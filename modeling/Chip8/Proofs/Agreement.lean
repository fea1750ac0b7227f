import Chip8.Proofs.Walk
import Chip8.Recorder
import Chip8.Terminal.Basic
import Mathlib.Data.List.Forall2

/-!
# Terminal and recorder agree

A terminal waits for a key by going through what was typed, and passes over all that stands for no
key; a recorder takes the next key of its queue. If the queue holds the keys that the typing stands
for, and nobody asks to stop, both answer alike, so that a machine cannot tell the one from the
other as long as there are keys left to wait for.
-/
namespace Chip8

namespace InputEvent

def key? (keymap : Keymap) : InputEvent → Option Key
  | key press => press.key? keymap
  | mouse | cursor => none

def asksToQuit : InputEvent → Bool
  | key press => press.asksToQuit
  | mouse | cursor => false

end InputEvent

namespace Keyboard

/-- The reports that are there, and then those that further looks find. -/
def reports : (looks : Nat) → Keyboard → List InputEvent
  | 0, k => k.events
  | looks + 1, k => k.events ++ reports looks ({ k with events := [] }).look

/-- Every report that is there or still to come, oldest first. -/
def upcoming (k : Keyboard) : List InputEvent :=
  reports k.arrivals.length k

theorem arrivals_look (k : Keyboard) : k.look.arrivals = k.arrivals.tail := by
  rw [look]
  split <;> simp [*]

end Keyboard

def keysOf (keymap : Keymap) (events : List InputEvent) : List Byte :=
  events.filterMap fun event => (event.key? keymap).map fun key => UInt8.ofNat key.val

namespace Terminal

variable {keymap : Keymap} {events : List InputEvent}

/-- An event ends a wait if it stands for a key, unless it asks to stop. -/
theorem scan_cons {event : InputEvent} (hcalm : event.asksToQuit = false) :
    scan keymap false (event :: events) =
      match event.key? keymap with
      | some key => some ⟨UInt8.ofNat key.val, false, events⟩
      | none => scan keymap false events := by
  cases event with
  | mouse | cursor => rfl
  | key press =>
    change press.asksToQuit = false at hcalm
    rw [scan, InputEvent.key?]
    cases press.key? keymap with
    | some key => rfl
    | none => simp only [hcalm, Bool.or_false, Bool.false_eq_true, if_false]

/-- If nobody asks to stop, events are gone through up to the first that stands for a key. -/
theorem scan_cases (hcalm : ∀ event ∈ events, event.asksToQuit = false) :
    scan keymap false events = none ∧ keysOf keymap events = [] ∨
      ∃ answer rest, scan keymap false events = some ⟨answer, false, rest⟩ ∧
        keysOf keymap events = answer :: keysOf keymap rest ∧ rest ⊆ events := by
  induction events with
  | nil => exact .inl ⟨rfl, rfl⟩
  | cons event events ih =>
    obtain ⟨hevent, hrest⟩ := List.forall_mem_cons.mp hcalm
    rw [scan_cons hevent, keysOf, List.filterMap_cons]
    cases event.key? keymap with
    | some key => exact .inr ⟨_, events, rfl, rfl, List.subset_cons_self event events⟩
    | none =>
      obtain hnone | ⟨answer, rest, hscan, hkeys, hsubset⟩ := ih hrest
      · exact .inl hnone
      · exact .inr ⟨answer, rest, hscan, hkeys, List.subset_cons_of_subset event hsubset⟩

theorem keysOf_append (keymap : Keymap) (events events' : List InputEvent) :
    keysOf keymap (events ++ events') = keysOf keymap events ++ keysOf keymap events' :=
  List.filterMap_append

theorem scanLooks_of_scan {quit : Bool} {looks : Nat} {k : Keyboard} {wait : Wait}
    (h : scan keymap quit k.events = some wait) :
    scanLooks keymap quit looks k = (some wait, { k with events := wait.rest }) := by
  rw [scanLooks.eq_def]
  simp only [h]

theorem scanLooks_succ {quit : Bool} {looks : Nat} {k : Keyboard}
    (h : scan keymap quit k.events = none) :
    scanLooks keymap quit (looks + 1) k =
      scanLooks keymap quit looks ({ k with events := [] }).look := by
  rw [scanLooks.eq_def]
  simp only [h]

/-- As long as a key is still to come, a wait ends with the next one. -/
theorem scanLooks_of_keys {looks : Nat} {k : Keyboard} {key : Byte} {keys : List Byte}
    (hlooks : k.arrivals.length = looks)
    (hcalm : ∀ event ∈ k.reports looks, event.asksToQuit = false)
    (hkeys : keysOf keymap (k.reports looks) = key :: keys) :
    ∃ rest k', scanLooks keymap false looks k = (some ⟨key, false, rest⟩, k') ∧
      keysOf keymap k'.upcoming = keys ∧ k'.upcoming ⊆ k.reports looks := by
  induction looks generalizing k with
  | zero =>
    rw [Keyboard.reports] at hcalm hkeys ⊢
    obtain ⟨-, hnone⟩ | ⟨answer, rest, hscan, hanswer, hsubset⟩ := scan_cases hcalm
    · rw [hnone] at hkeys
      cases hkeys
    · rw [hanswer] at hkeys
      cases hkeys
      refine ⟨rest, _, scanLooks_of_scan hscan, ?_⟩
      rw [Keyboard.upcoming, hlooks]
      exact ⟨rfl, hsubset⟩
  | succ looks ih =>
    have hlooks' : ({ k with events := [] }).look.arrivals.length = looks := by
      rw [Keyboard.arrivals_look, List.length_tail, hlooks, Nat.add_sub_cancel]
    rw [Keyboard.reports] at hcalm hkeys ⊢
    obtain ⟨hhere, hlater⟩ := List.forall_mem_append.mp hcalm
    rw [keysOf_append] at hkeys
    obtain ⟨hscan, hnone⟩ | ⟨answer, rest, hscan, hanswer, hsubset⟩ := scan_cases hhere
    · rw [hnone, List.nil_append] at hkeys
      obtain ⟨rest, k', hwait, hrest, hsubset⟩ := ih hlooks' hlater hkeys
      exact ⟨rest, k', (scanLooks_succ hscan).trans hwait, hrest,
        List.subset_append_of_subset_right _ hsubset⟩
    · rw [hanswer] at hkeys
      cases hkeys
      refine ⟨rest, _, scanLooks_of_scan hscan, ?_⟩
      rw [Keyboard.upcoming, hlooks, Keyboard.reports, keysOf_append]
      exact ⟨rfl, List.append_subset.mpr
        ⟨List.subset_append_of_subset_left _ hsubset, List.subset_append_right _ _⟩⟩

/-- What becomes of a terminal by a wait that ends with a key. -/
theorem waitKey_of_scanLooks {t : Terminal} {wait : Wait} {k : Keyboard}
    (h : scanLooks t.keymap t.quit t.keyboard.arrivals.length t.keyboard = (some wait, k)) :
    t.waitKey = (wait.answer,
      { t with
        held := Vector.replicate 16 0
        timers := t.timers.reset
        quit := wait.quit
        pending := t.pending.or t.output.flush.1
        keyboard := k
        output := t.output.flush.2 }) := by
  rw [waitKey]
  simp only [keep, h]

/-- The terminal and the recorder hold the same timers, no key is down, and the recorder has queued
the keys that are still to come on the terminal, at least `n` of them. -/
structure Accord (n : Nat) (t : Terminal) (r : Recorder) : Prop where
  quit : t.quit = false
  held : t.held = Vector.replicate 16 0
  keys : r.keys = Vector.replicate 16 false
  delay : r.timers.delay = t.timers.delay
  sound : r.timers.sound = t.timers.sound
  calm : ∀ event ∈ t.keyboard.upcoming, event.asksToQuit = false
  queue : r.queue = keysOf t.keymap t.keyboard.upcoming
  enough : n ≤ r.queue.length

/-- Terminal and recorder answer a wait alike, and both stop their timers. -/
theorem Accord.waitKey {n : Nat} {t : Terminal} {r : Recorder} (h : Accord (n + 1) t r) :
    (Host.waitKey r).1 = (Host.waitKey t).1 ∧ Accord n (Host.waitKey t).2 (Host.waitKey r).2 := by
  obtain ⟨key, keys, hqueue⟩ := List.exists_cons_of_length_pos (Nat.zero_lt_of_lt h.enough)
  obtain ⟨rest, k, hscan, hrest, hsubset⟩ :=
    scanLooks_of_keys rfl h.calm (h.queue.symm.trans hqueue)
  rw [← h.quit] at hscan
  have hwait := waitKey_of_scanLooks hscan
  change r.queue.headD 0 = t.waitKey.1 ∧ Accord n t.waitKey.2 r.waitKey.2
  rw [hwait, hqueue]
  refine ⟨rfl, ?_⟩
  exact
    { quit := h.quit
      held := rfl
      keys := h.keys
      delay := rfl
      sound := rfl
      calm := fun event hevent => h.calm event (hsubset hevent)
      queue := (congrArg List.tail hqueue).trans hrest.symm
      enough := by
        have htail : r.waitKey.2.queue.length = r.queue.length - 1 := List.length_tail
        have henough := h.enough
        omega }

/-- No key is down for either of them, and what they are told leaves them in accord. -/
theorem alike_accord : Alike Accord where
  notice notice n t r h := by
    cases notice with
    | clear | plot dot =>
      exact ⟨h.quit, h.held, h.keys, h.delay, h.sound, h.calm, h.queue, h.enough⟩
    | setDelay value => exact ⟨h.quit, h.held, h.keys, rfl, h.sound, h.calm, h.queue, h.enough⟩
    | setSound value => exact ⟨h.quit, h.held, h.keys, h.delay, rfl, h.calm, h.queue, h.enough⟩
  delay n t r h := ⟨h.delay, h⟩
  keyDown key n t r h := by
    refine ⟨?_, h⟩
    change r.keys.get key = decide (0 < t.held.get key)
    rw [h.keys, h.held]
    simp [Vector.get]
  waitKey n t r h := h.waitKey

theorem accord_enter (keymap : Keymap) (keyboard : Keyboard) (output : Output)
    (hcalm : ∀ event ∈ keyboard.upcoming, event.asksToQuit = false) :
    Accord (keysOf keymap keyboard.upcoming).length { enter keymap keyboard with output }
      { queue := keysOf keymap keyboard.upcoming } where
  quit := rfl
  held := rfl
  keys := rfl
  delay := rfl
  sound := rfl
  calm := hcalm
  queue := rfl
  enough := Nat.le_refl _

/-- A machine takes the same way on a terminal and on a recorder that has queued the keys of what is
typed, whether the terminal can be written to or not, as long as there are keys to wait for. The
calls are the same, and so are the timers after each step. -/
theorem hosts_agree {m m' : Machine} (hm : m.Reachable) {keyboard : Keyboard} {output : Output}
    (hcalm : ∀ event ∈ keyboard.upcoming, event.asksToQuit = false) {legs : List (Leg Terminal)}
    {t' : Terminal} (h : m.Walk { enter keymap keyboard with output } legs m' t')
    (hwaits : legs.countP (·.machine.waits) ≤ (keysOf keymap keyboard.upcoming).length) :
    ∃ legs' r', m.Walk ({ queue := keysOf keymap keyboard.upcoming } : Recorder) legs' m' r' ∧
      List.Forall₂ (fun leg leg' => leg.Matches leg' ∧
        leg'.turn.host.timers.delay = leg.turn.host.timers.delay ∧
        leg'.turn.host.timers.sound = leg.turn.host.timers.sound) legs legs' := by
  have haccord := accord_enter keymap keyboard output hcalm
  rw [← Nat.sub_add_cancel hwaits] at haccord
  obtain ⟨legs', r', hwalk, -, hlegs⟩ := alike_accord.walk h hm.sound haccord
  refine ⟨legs', r', hwalk, hlegs.imp fun leg leg' => ?_⟩
  rintro ⟨hmatches, n, hnext⟩
  exact ⟨hmatches, hnext.delay, hnext.sound⟩

/-- A program that waits for a key, and a user who first presses a key that stands for none. -/
theorem second_press_taken :
    ∃ (m m' : Machine) (leg : Leg Terminal) (leg' : Leg Recorder) (t' : Terminal) (r' : Recorder),
      Machine.boot .cosmac (.cycle []) [0xf0, 0x0a] = .ok m ∧
        m.Walk (enter .conventional
          { events := [.key .other, .key (.char 'w' false)] }) [leg] m' t' ∧
        m.Walk ({ queue := [5] } : Recorder) [leg'] m' r' ∧ leg.Matches leg' := by
  obtain ⟨m, hboot, hm, hstatus, -, -, hfetch⟩ :=
    Machine.boot_instruction (i := .waitKey (lastDigit 0)) .cosmac (.cycle []) 0xf0 0x0a (by decide)
  let keyboard : Keyboard := { events := [.key .other, .key (.char 'w' false)] }
  let output : Output := { shown := Piece.prepare.toArray }
  obtain ⟨turn, hstep⟩ := hm.sound.exists_step hstatus (enter .conventional keyboard)
  have hkeys : keysOf .conventional keyboard.upcoming = [5] := by decide
  have hcalm : ∀ event ∈ keyboard.upcoming, event.asksToQuit = false := by decide
  have hwalk : m.Walk { enter .conventional keyboard with output }
      [⟨m, enter .conventional keyboard, turn⟩] turn.machine turn.host := .cons hstep (.nil ..)
  have hwaits := List.countP_le_length (p := fun leg : Leg Terminal => leg.machine.waits)
    (l := [⟨m, enter .conventional keyboard, turn⟩])
  obtain ⟨legs', r', hwalk', hlegs⟩ := hosts_agree hm hcalm hwalk (by rw [hkeys]; exact hwaits)
  obtain ⟨leg', rfl, hmatches⟩ : ∃ leg', legs' = [leg'] ∧ Leg.Matches _ leg' := by
    cases hlegs with
    | cons hleg hnil =>
      cases hnil
      exact ⟨_, rfl, hleg.1⟩
  rw [hkeys] at hwalk'
  exact ⟨m, turn.machine, _, leg', turn.host, r', hboot, hwalk, hwalk', hmatches⟩

end Terminal

end Chip8
