import Chip8.Proofs.Session
import Chip8.Recorder

/-!
# Replaying a record

A recorder writes down what a machine tells it. The record is as good as the machine and the host
themselves: replayed on a dark display it gives the machine's display, replayed on stopped timers it
gives the host's timers, and no entry of it plots a pixel in vain.
-/
namespace Chip8

namespace Event

/-- The display after an event, for one who has only the record to go by. -/
def redraw (d : Display) : Event → Display
  | clear => .dark
  | plot dot => d.put dot.x dot.y dot.lit
  | frame | setDelay _ | setSound _ | waitKey _ => d

def retime (timers : Byte × Byte) : Event → Byte × Byte
  | setDelay value => (value, timers.2)
  | setSound value => (timers.1, value)
  | waitKey _ => (0, 0)
  | frame | clear | plot _ => timers

def picture (events : List Event) : Display :=
  events.foldl redraw .dark

def clock (events : List Event) : Byte × Byte :=
  events.foldl retime (0, 0)

theorem picture_append (events : List Event) (event : Event) :
    picture (events ++ [event]) = event.redraw (picture events) := by
  rw [picture, List.foldl_append]
  rfl

theorem clock_append (events : List Event) (event : Event) :
    clock (events ++ [event]) = event.retime (clock events) := by
  rw [clock, List.foldl_append]
  rfl

end Event

namespace Recorder

/-- The record gives the display `d` and the timers of the recorder, and each pixel that was plotted
lies on the display and had another value before. -/
structure Mirrors (r : Recorder) (d : Display) : Prop where
  picture : Event.picture r.events.toList = d
  flips : ∀ before dot, before ++ [.plot dot] <+: r.events.toList →
    dot.x < 64 ∧ dot.y < 32 ∧ dot.lit = !(Event.picture before).lit dot.x dot.y
  clock : Event.clock r.events.toList = (r.timers.delay, r.timers.sound)

/-- What happens to a recorder between two steps: keys go down and up, and others are queued. -/
inductive Attended (r : Recorder) : Recorder → Prop where
  | press (key : Nat) (down : Bool) : Attended r (r.press key down)
  | enqueue (keys : List Byte) : Attended r (r.enqueue keys)

variable {r r' : Recorder} {d : Display}

/-- One more entry, if it speaks the truth about display and timers. -/
theorem Mirrors.push (h : r.Mirrors d) (event : Event) (hevents : r'.events = r.events.push event)
    (hflips : ∀ dot, event = .plot dot →
      dot.x < 64 ∧ dot.y < 32 ∧ dot.lit = !d.lit dot.x dot.y)
    (htimers : event.retime (r.timers.delay, r.timers.sound) =
      (r'.timers.delay, r'.timers.sound)) :
    r'.Mirrors (event.redraw d) := by
  have hlist : r'.events.toList = r.events.toList ++ [event] := by
    rw [hevents, Array.toList_push]
  refine ⟨?_, ?_, ?_⟩
  · rw [hlist, Event.picture_append, h.picture]
  · intro before dot hbefore
    rw [hlist, List.prefix_concat_iff] at hbefore
    rcases hbefore with heq | hearlier
    · obtain ⟨rfl, hevent⟩ := List.append_inj' heq rfl
      rw [h.picture]
      exact hflips dot (List.cons.inj hevent).1.symm
    · exact h.flips before dot hearlier
  · rw [hlist, Event.clock_append, h.clock, htimers]

/-- An entry that does not concern the display. -/
theorem Mirrors.push_same (h : r.Mirrors d) (event : Event)
    (hevents : r'.events = r.events.push event)
    (hevent : ∀ dot, event ≠ .plot dot) (hsame : event.redraw d = d)
    (htimers : event.retime (r.timers.delay, r.timers.sound) =
      (r'.timers.delay, r'.timers.sound)) :
    r'.Mirrors d :=
  hsame ▸ h.push event hevents (fun dot heq => absurd heq (hevent dot)) htimers

theorem mirrors_fresh : ({} : Recorder).Mirrors .dark where
  picture := rfl
  flips before dot hbefore := by
    have hnil := List.prefix_nil.mp hbefore
    cases before <;> cases hnil
  clock := rfl

theorem Mirrors.deliver (h : r.Mirrors d) {notice : Notice} (hflips : notice.Flips d) :
    (notice.deliver r).Mirrors (notice.redraw d) := by
  cases notice with
  | clear => exact h.push .clear rfl nofun rfl
  | plot dot =>
    refine h.push (.plot dot) rfl ?_ rfl
    rintro _ ⟨⟩
    exact hflips
  | setDelay value => exact h.push_same (.setDelay value) rfl nofun rfl rfl
  | setSound value => exact h.push_same (.setSound value) rfl nofun rfl rfl

theorem keepsUp : KeepsUp (· = ({} : Recorder)) Attended Mirrors where
  fresh host hfresh := hfresh ▸ mirrors_fresh
  acts host host' d hact h := by
    cases hact with
    | press key down => exact ⟨h.picture, h.flips, h.clock⟩
    | enqueue keys => exact ⟨h.picture, h.flips, h.clock⟩
  notice notice host d hflips h := h.deliver hflips
  delay host d h := h
  keyDown key host d h := h
  waitKey host d h := h.push_same (.waitKey (host.queue.headD 0)) rfl nofun rfl rfl

/-- Through every session with a recorder that only the machine calls, the record mirrors display
and timers, before and after each step, and also after one that raises a fault. -/
theorem mirrors_of_session {m : Machine} (h : Session (· = ({} : Recorder)) Attended m r) :
    r.Mirrors m.display ∧
      (m.status = .running → ∃ turn, m.step r = .ok turn ∧
        turn.host.Mirrors turn.machine.display) := by
  refine ⟨h.shows_display keepsUp, ?_⟩
  intro hstatus
  have hstep := h.step_eq_turn hstatus
  exact ⟨m.turn r, hstep, (h.step hstep).shows_display keepsUp⟩

/-- A row of the first glyph, drawn in the upper left corner and recorded. -/
theorem glyph_row_mirrored :
    ∃ (m : Machine) (turn : Turn Recorder), Machine.boot .cosmac (.cycle []) [0xd0, 0x11] = .ok m ∧
      m.step ({} : Recorder) = .ok turn ∧ turn.host.Mirrors turn.machine.display := by
  obtain ⟨m, hboot, -, hstatus, -⟩ :=
    Machine.boot_instruction (i := .draw (lastDigit 0) (lastDigit 1) (lastDigit 1)) .cosmac
      (.cycle []) 0xd0 0x11 (by decide)
  obtain ⟨-, hnext⟩ := mirrors_of_session (.boot hboot rfl)
  obtain ⟨turn, hstep, hmirrors⟩ := hnext hstatus
  exact ⟨m, turn, hboot, hstep, hmirrors⟩

end Recorder
end Chip8
