import Chip8.Proofs.Emulator
import Chip8.Proofs.Session
import Chip8.Terminal.Basic

/-!
# What a terminal shows

The text that a terminal front end has written is, read by a terminal, a picture of the machine's
display: always when what still waits for a flush is counted in, and as it stands after each flush
that succeeds. Flushes may fail in any pattern. The output is one that makes room for a piece
whenever there is none, so that nothing which was written is lost.
-/
namespace Chip8

namespace Output

variable {o : Output} {d d' : Display}

/-- A piece is not lost while room can be made for it, and it can be made later on too. -/
theorem push_unspilt (h : ∀ n, o.spillOutcome n = none) (piece : Piece) :
    (o.push piece).1 = none ∧ ∀ n, (o.push piece).2.spillOutcome n = none := by
  rw [push, h o.spills]
  split <;> exact ⟨rfl, h⟩

theorem queue_unspilt (h : ∀ n, o.spillOutcome n = none) (pieces : List Piece) :
    (o.queue pieces).1 = none ∧ ∀ n, (o.queue pieces).2.spillOutcome n = none := by
  induction pieces generalizing o with
  | nil => exact ⟨rfl, h⟩
  | cons piece rest ih =>
    rw [queue]
    rcases hpush : o.push piece with ⟨lost, after⟩
    have hpiece := push_unspilt h piece
    rw [hpush] at hpiece
    obtain ⟨rfl, hafter⟩ := hpiece
    exact ih hafter

@[simp] theorem spillOutcome_flush (o : Output) : o.flush.2.spillOutcome = o.spillOutcome := by
  rw [flush]
  split
  · rfl
  · split <;> rfl

/-- Nothing waits any more after a flush that succeeds. -/
theorem queued_flush (h : o.flush.1 = none) : o.flush.2.queued = #[] := by
  revert h
  rw [flush]
  split
  · next hempty => exact fun _ => Array.isEmpty_iff.mp hempty
  · split
    · intro h
      cases h
    · exact fun _ => rfl

/-- All that has been written is a picture of a display, for a terminal that is not in the middle of
a control sequence, whatever its cells are. -/
structure Mirrors (o : Output) (d : Display) : Prop where
  unspilt : ∀ n, o.spillOutcome n = none
  written : ∀ s : Screen, s.mode = .ground → (s.read (Piece.textOf o.written)).Shows d

theorem Mirrors.queue (h : o.Mirrors d) {pieces : List Piece}
    (hpieces : ∀ s : Screen, s.Shows d → (pieces.foldl Screen.readPiece s).Shows d') :
    (o.queue pieces).2.Mirrors d' := by
  obtain ⟨hkept, hunspilt⟩ := queue_unspilt h.unspilt pieces
  refine ⟨hunspilt, fun s hs => ?_⟩
  have hwritten := h.written s hs
  rw [Screen.read_textOf] at hwritten
  rw [written_queue hkept, Screen.read_textOf, Array.toList_appendList, List.foldl_append]
  exact hpieces _ hwritten

theorem Mirrors.flush (h : o.Mirrors d) : o.flush.2.Mirrors d where
  unspilt n := by rw [spillOutcome_flush, h.unspilt]
  written s hs := by
    rw [written_flush]
    exact h.written s hs

/-- What has reached the terminal is the picture once nothing waits. -/
theorem Mirrors.shown (h : o.Mirrors d) (hqueued : o.queued = #[]) {s : Screen}
    (hs : s.mode = .ground) : (s.read (Piece.textOf o.shown)).Shows d := by
  have hwritten : o.written = o.shown := by rw [Output.written, hqueued, Array.append_empty]
  rw [← hwritten]
  exact h.written s hs

end Output

namespace Terminal

variable {t t' : Terminal} {d : Display}

/-! ## The output under the operations of a terminal -/

theorem output_hear (t : Terminal) (event : InputEvent) : (t.hear event).output = t.output := by
  cases event with
  | mouse | cursor => rfl
  | key press =>
    rw [hear]
    split <;> rfl

/-- Reading the keys writes nothing. -/
theorem output_poll (t : Terminal) : t.poll.output = t.output := by
  have hfold (events : List InputEvent) (t : Terminal) :
      (events.foldl hear t).output = t.output := by
    induction events generalizing t with
    | nil => rfl
    | cons event rest ih => rw [List.foldl_cons, ih, output_hear]
  exact hfold _ _

/-- What a wait for a key does whatever the keyboard holds. -/
theorem waitKey_eq (t : Terminal) : t.waitKey.2 = { t with
    held := Vector.replicate 16 0
    timers := t.timers.reset
    quit := t.waitKey.2.quit
    pending := t.waitKey.2.pending
    keyboard := t.waitKey.2.keyboard
    output := t.output.flush.2 } := by
  rw [waitKey]
  dsimp only
  split <;> rfl

/-- A wait for a key flushes the output and writes nothing. -/
theorem output_waitKey (t : Terminal) : t.waitKey.2.output = t.output.flush.2 := by
  rw [waitKey_eq]

theorem mirrors_write (h : t.output.Mirrors d) {d' : Display} (pieces : List Piece)
    (hpieces : ∀ s : Screen, s.Shows d → (pieces.foldl Screen.readPiece s).Shows d') :
    (t.write pieces).output.Mirrors d' :=
  h.queue hpieces

theorem output_refresh (t : Terminal) : t.refresh.2.output = t.output.flush.2 := by
  rw [refresh]
  split <;> simp_all

/-- What the bell and a flush leave true of the output, a frame does, whether it succeeds or not. -/
theorem keeps_present {p : Output → Prop} (hbell : ∀ o, p o → p (o.queue [.bell]).2)
    (hflush : ∀ o, p o → p o.flush.2) (h : p t.output) : p t.present.2.output := by
  have hring : p t.poll.ring.2.output := by
    rw [← t.output_poll] at h
    rw [ring]
    split
    · exact hbell _ h
    · exact h
  rw [present]
  split
  · exact h
  · split
    · next hrung => rwa [hrung] at hring
    · next hrung =>
      rw [hrung] at hring
      rw [output_refresh]
      exact hflush _ hring

/-- A frame leaves the picture as it was. -/
theorem mirrors_present (h : t.output.Mirrors d) : t.present.2.output.Mirrors d :=
  keeps_present (p := fun o => o.Mirrors d) (fun _ h => h.queue fun _ hs => hs.bell)
    (fun _ h => h.flush) h

/-- Nothing waits any more after a frame that succeeds. -/
theorem queued_present {more : Bool} (h : t.present = (.ok more, t')) : t'.output.queued = #[] := by
  rw [present] at h
  split at h
  · cases h
  · split at h
    · cases h
    · next u _ =>
      rw [refresh] at h
      split at h
      · cases h
      · next output hflush =>
        cases h
        have hqueued := Output.queued_flush (o := u.output)
        rw [hflush] at hqueued
        exact hqueued rfl

/-! ## Sessions with a terminal -/

/-- A terminal with its screen prepared, where any flush may fail later on. -/
def Fresh (t : Terminal) : Prop :=
  ∃ keymap keyboard outcome, t =
    { enter keymap keyboard with output := { (enter keymap keyboard).output with outcome } }

/-- What happens to a terminal between two steps: frames, keys, and the passing of time. -/
inductive Attended (t : Terminal) : Terminal → Prop where
  | frame : Attended t t.present.2
  | input (keyboard : Keyboard) : Attended t { t with keyboard }
  | time (timers : Timers) : Attended t { t with timers }

theorem Fresh.mirrors (h : t.Fresh) : t.output.Mirrors .dark := by
  obtain ⟨keymap, keyboard, outcome, rfl⟩ := h
  refine ⟨fun _ => rfl, fun s hs => ?_⟩
  rw [Screen.read_textOf]
  exact Screen.shows_prepare hs

theorem mirrors_deliver {notice : Notice} (hflips : notice.Flips d) (h : t.output.Mirrors d) :
    (notice.deliver t).output.Mirrors (notice.redraw d) := by
  cases notice with
  | clear => exact mirrors_write h [.clear] fun _ hs => hs.clear
  | plot dot => exact mirrors_write h (Piece.dot dot) fun _ hs => hs.dot hflips.1 hflips.2.1
  | setDelay value | setSound value => exact h

theorem keepsUp : KeepsUp Fresh Attended fun t d => t.output.Mirrors d where
  fresh _ hfresh := hfresh.mirrors
  acts _ _ _ hact h := by
    cases hact with
    | frame => exact mirrors_present h
    | input keyboard | time timers => exact h
  notice _ _ _ hflips h := mirrors_deliver hflips h
  delay _ _ h := h
  keyDown _ _ _ h := h
  waitKey t _ h := by
    change t.waitKey.2.output.Mirrors _
    rw [output_waitKey]
    exact h.flush

/-- Through every session with a terminal, each flush that succeeds leaves a picture of the
machine's display behind, be it the flush of a frame or that of a wait for a key. -/
theorem shows_of_session {m : Machine} (h : Session Fresh Attended m t) {s : Screen}
    (hs : s.mode = .ground) :
    (∀ more t', t.present = (.ok more, t') →
      t'.output.queued = #[] ∧ (s.read (Piece.textOf t'.output.shown)).Shows m.display) ∧
    (∀ x, m.Fetches (.waitKey x) → m.status = .running → t.output.flush.1 = none →
      ∃ turn, m.step t = .ok turn ∧ turn.host.output.queued = #[] ∧
        (s.read (Piece.textOf turn.host.output.shown)).Shows turn.machine.display) := by
  constructor
  · intro more t' hpresent
    have hqueued := queued_present hpresent
    have hframe := h.act .frame
    rw [hpresent] at hframe
    exact ⟨hqueued, (hframe.shows_display keepsUp).shown hqueued hs⟩
  · intro x hfetch hstatus hflush
    have hstep := h.step_eq_turn hstatus
    have houtput : (m.turn t).host.output = t.output.flush.2 := by
      rw [hfetch.turn_host_waitKey]
      exact output_waitKey t
    have hqueued : (m.turn t).host.output.queued = #[] := by
      rw [houtput, Output.queued_flush hflush]
    exact ⟨m.turn t, hstep, hqueued, ((h.step hstep).shows_display keepsUp).shown hqueued hs⟩

/-- A program that waits for a key at once, shown over what stood on the screen before. -/
theorem first_wait_shown :
    ∃ (m : Machine) (turn : Turn Terminal),
      Machine.boot .cosmac (.cycle []) [0xf0, 0x0a] = .ok m ∧
      m.step (enter .hex {}) = .ok turn ∧ turn.host.output.queued = #[] ∧
      (Screen.read ⟨fun _ _ => '$', 7, 5, .ground⟩ (Piece.textOf turn.host.output.shown)).Shows
        turn.machine.display := by
  obtain ⟨m, hboot, -, hstatus, -, -, hfetch⟩ :=
    Machine.boot_instruction (i := .waitKey (lastDigit 0)) .cosmac (.cycle []) 0xf0 0x0a (by decide)
  have hsession : Session Fresh Attended m (enter .hex {}) :=
    .boot hboot ⟨.hex, {}, fun _ => none, rfl⟩
  obtain ⟨-, hwait⟩ := shows_of_session hsession (s := ⟨fun _ _ => '$', 7, 5, .ground⟩) rfl
  obtain ⟨turn, hstep, hqueued, hshows⟩ := hwait (lastDigit 0) hfetch hstatus rfl
  exact ⟨m, turn, hboot, hstep, hqueued, hshows⟩

end Terminal
end Chip8
