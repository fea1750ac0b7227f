import Chip8.Proofs.Presentation
import Chip8.Proofs.Waiting

/-!
# The history of a terminal

Requests of a machine, frames, keys that are pressed, time that passes: whatever happens to a
terminal, in any order, is written into a log, the newest entry first. An entry holds the terminal
before it, so that what the entry did can be told: which reports it took, and whether a flush failed
in it. `since` cuts a log off at the last entry of some kind.
-/
namespace Chip8

namespace Output

variable {o o' : Output}

/-- The error of the flush between two states of an output, if there was one flush and it failed. -/
def failure? (o o' : Output) : Option OsError :=
  if o.flushes < o'.flushes then o.outcome o.flushes else none

theorem failure_of_flushes (h : o'.flushes = o.flushes) : o.failure? o' = none :=
  if_neg (Nat.not_lt.mpr (Nat.le_of_eq h))

/-- A flush reports its own failure. -/
theorem failure_flush (o : Output) : o.failure? o.flush.2 = o.flush.1 := by
  rw [flush]
  split
  · exact failure_of_flushes rfl
  · cases houtcome : o.outcome o.flushes <;>
      exact (if_pos (Nat.lt_succ_self o.flushes)).trans houtcome

/-- Making room for a piece is no flush. -/
theorem flushes_push (o : Output) (piece : Piece) : (o.push piece).2.flushes = o.flushes := by
  rw [push]
  split
  · rfl
  · split <;> rfl

@[simp] theorem flushes_queue (o : Output) (pieces : List Piece) :
    (o.queue pieces).2.flushes = o.flushes := by
  induction pieces generalizing o with
  | nil => rfl
  | cons piece rest ih =>
    have hfirst := o.flushes_push piece
    rw [queue]
    rcases hpush : o.push piece with ⟨_ | cause, after⟩ <;> rw [hpush] at hfirst
    · exact (ih after).trans hfirst
    · exact hfirst

end Output

namespace Terminal

inductive Happening where
  | tell (notice : Notice)
  | readDelay
  | testKey (key : Key)
  | waitKey
  | frame
  /-- Something becomes of the keyboard, such as keys being pressed. -/
  | input (keyboard : Keyboard)
  | time (timers : Timers)

def Happening.result (t : Terminal) : Happening → Terminal
  | tell notice => notice.deliver t
  | readDelay => (Host.delay t).2
  | testKey key => (Host.keyDown key t).2
  | waitKey => (Host.waitKey t).2
  | frame => (Frontend.present t).2
  | input keyboard => { t with keyboard }
  | time timers => { t with timers }

/-- Something that has happened, with the terminal before it. -/
structure Entry where
  before : Terminal
  happening : Happening

/-- The terminal after some happenings, the newest of which stands first. -/
def after (start : Terminal) : List Happening → Terminal
  | [] => start
  | happening :: earlier => happening.result (after start earlier)

/-- The log of some happenings; the newest stands first in both. -/
def log (start : Terminal) : List Happening → List Entry
  | [] => []
  | happening :: earlier => ⟨after start earlier, happening⟩ :: log start earlier

namespace Entry

variable (entry : Entry)

def after : Terminal :=
  entry.happening.result entry.before

def isWait : Bool :=
  match entry.happening with
  | .waitKey => true
  | _ => false

def isFrame : Bool :=
  match entry.happening with
  | .frame => true
  | _ => false

/-- Whether an entry is a frame that reads the keys. One with an error to report does not. -/
def polls : Bool :=
  entry.isFrame && entry.before.pending.isNone

def shows : Bool :=
  entry.isFrame && (Frontend.present entry.before).1.toBool

def draws : Bool :=
  match entry.happening with
  | .tell notice => notice.call.draws
  | _ => false

def heard : List InputEvent :=
  match entry.happening with
  | .input _ => []
  | _ => entry.before.keyboard.taken entry.after.keyboard

/-- The error of the flush that was made, if it failed. -/
def failure? : Option OsError :=
  entry.before.output.failure? entry.after.output

variable {entry}

theorem exists_of_isWait (h : entry.isWait = true) : ∃ t, entry = ⟨t, .waitKey⟩ := by
  rcases entry with ⟨t, happening⟩
  cases happening with
  | waitKey => exact ⟨t, rfl⟩
  | _ => cases h

theorem exists_of_isFrame (h : entry.isFrame = true) : ∃ t, entry = ⟨t, .frame⟩ := by
  rcases entry with ⟨t, happening⟩
  cases happening with
  | frame => exact ⟨t, rfl⟩
  | _ => cases h

end Entry

/-- The entries that are newer than the last of some kind. -/
def since (kind : Entry → Bool) (log : List Entry) : List Entry :=
  log.takeWhile fun entry => !kind entry

variable {kind : Entry → Bool} {entry : Entry} {entries : List Entry}

@[simp] theorem since_nil (kind : Entry → Bool) : since kind [] = [] := rfl

theorem since_of_kind (h : kind entry = true) : since kind (entry :: entries) = [] := by
  simp [since, h]

theorem since_of_not_kind (h : kind entry = false) :
    since kind (entry :: entries) = entry :: since kind entries := by
  simp [since, h]

/-- What is newer than the last entry of a kind is newer than every entry of that kind. -/
theorem mem_of_mem_since {last : Entry} {older newer : List Entry} (hlast : kind last = true)
    (h : entry ∈ since kind (newer ++ last :: older)) : entry ∈ newer := by
  induction newer with
  | nil =>
    rw [List.nil_append, since_of_kind hlast] at h
    exact h
  | cons first newer ih =>
    rw [List.cons_append] at h
    cases hfirst : kind first with
    | true =>
      rw [since_of_kind hfirst] at h
      cases h
    | false =>
      rw [since_of_not_kind hfirst] at h
      exact List.mem_cons.mpr ((List.mem_cons.mp h).imp_right ih)

/-! ## What single entries do -/

/-- An entry that is neither a wait nor a frame takes no report, and it writes without a flush. -/
structure Untouched (entry : Entry) : Prop where
  held : entry.after.held = entry.before.held
  quit : entry.after.quit = entry.before.quit
  heard : entry.heard = []
  /-- What it writes is queued, and a failure to do so is kept. -/
  writes : ∃ pieces, entry.after.output = (entry.before.output.queue pieces).2 ∧
    entry.after.pending = entry.before.pending.or (entry.before.output.queue pieces).1

theorem untouched_of_notice (t : Terminal) (notice : Notice) :
    Untouched ⟨t, .tell notice⟩ := by
  have hheard : Entry.heard ⟨t, .tell notice⟩ = [] := by
    change t.keyboard.taken (notice.deliver t).keyboard = []
    rw [(keyboard_deliver notice t).1, Keyboard.taken_self]
  refine ⟨?_, (keyboard_deliver notice t).2, hheard, ?_⟩
  · cases notice <;> rfl
  · cases notice with
    | clear => exact ⟨[.clear], rfl, rfl⟩
    | plot dot => exact ⟨Piece.dot dot, rfl, rfl⟩
    | setDelay value | setSound value => exact ⟨[], rfl, Option.or_none.symm⟩

theorem untouched (hwait : entry.isWait = false) (hframe : entry.isFrame = false) :
    Untouched entry := by
  rcases entry with ⟨t, happening⟩
  cases happening with
  | tell notice => exact untouched_of_notice t notice
  | readDelay | testKey key | time timers =>
    have hheard : t.keyboard.taken t.keyboard = [] := t.keyboard.taken_self
    exact ⟨rfl, rfl, hheard, [], rfl, Option.or_none.symm⟩
  | input keyboard => exact ⟨rfl, rfl, rfl, [], rfl, Option.or_none.symm⟩
  | waitKey => cases hwait
  | frame => cases hframe

/-- A frame that has an error to report does nothing else. -/
theorem present_of_pending {t : Terminal} {cause : OsError} (h : t.pending = some cause) :
    t.present = (.error (.io cause), { t with pending := none }) := by
  rw [present, h]

/-- Any other frame reads the keys, and then it is busy with the output. -/
theorem present_of_polls {t : Terminal} (h : t.pending = none) :
    ∃ output dirty, t.present.2 = { t.poll with output, dirty } := by
  obtain ⟨cause, hpending, -⟩ | ⟨cause, output, -, hpresent, -⟩ | ⟨output, -, hpresent, -⟩ :=
    t.present_cases
  · cases h.symm.trans hpending
  · exact ⟨output, _, by rw [hpresent]⟩
  · exact ⟨output, false, by rw [hpresent]⟩

/-- A frame that reads the keys takes those that are drained, and maybe reports about the cursor. -/
theorem heard_frame {t : Terminal} (h : t.pending = none) :
    ∃ lost, Entry.heard ⟨t, .frame⟩ = t.keyboard.drain.1 ++ lost ∧
      ∀ event ∈ lost, event = .cursor := by
  obtain ⟨output, dirty, hpresent⟩ := present_of_polls h
  obtain ⟨lost, hupcoming, hlost⟩ := t.keyboard.upcoming_drain
  refine ⟨lost, ?_, hlost⟩
  change t.keyboard.taken t.present.2.keyboard = _
  rw [hpresent, poll_eq]
  exact Keyboard.taken_of_append hupcoming

/-- A wait takes the reports up to the one that ends it. -/
theorem Takes.heard {t : Terminal} {skipped : List InputEvent} {event : InputEvent}
    (h : t.Takes skipped event) : Entry.heard ⟨t, .waitKey⟩ = skipped ++ [event] := by
  have hupcoming := h.upcoming
  rw [← List.singleton_append, ← List.append_assoc] at hupcoming
  exact Keyboard.taken_of_append hupcoming

theorem keymap_result (t : Terminal) (happening : Happening) :
    (happening.result t).keymap = t.keymap := by
  cases happening with
  | tell notice => cases notice <;> rfl
  | readDelay | testKey key | input keyboard | time timers => rfl
  | waitKey =>
    change t.waitKey.2.keymap = t.keymap
    rw [waitKey_eq]
  | frame =>
    change t.present.2.keymap = t.keymap
    cases hpending : t.pending with
    | some cause => rw [present_of_pending hpending]
    | none =>
      obtain ⟨output, dirty, hpresent⟩ := present_of_polls hpending
      rw [hpresent, poll_eq]

@[simp] theorem keymap_after (start : Terminal) (happenings : List Happening) :
    (after start happenings).keymap = start.keymap := by
  induction happenings with
  | nil => rfl
  | cons happening earlier ih => exact (keymap_result _ happening).trans ih

end Terminal
end Chip8
