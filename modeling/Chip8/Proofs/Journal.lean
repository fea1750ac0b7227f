import Chip8.Proofs.Reachable

/-!
# The calls of a step

`Journal` puts a list of calls beside a host and adds every call that the host gets, with its
answer. The journal is out of sight of the machine: forgetting it leaves the step on the host
itself. `Machine.calls` are the calls that one step makes.
-/
namespace Chip8

/-- A call to a host, with its answer if it has one. -/
inductive Call where
  | clear
  | plot (dot : Dot)
  | delay (answer : Byte)
  | setDelay (value : Byte)
  | setSound (value : Byte)
  | keyDown (key : Key) (answer : Bool)
  | waitKey (answer : Byte)
deriving DecidableEq, Repr

/-- A host and the calls that it got, oldest first. -/
structure Journal (H : Type) where
  host : H
  calls : List Call := []

namespace Journal

variable {H : Type}

/-- The journal after a call, and what the host has become. -/
def note (j : Journal H) (host : H) (call : Call) : Journal H :=
  ⟨host, j.calls ++ [call]⟩

instance [Host H] : Host (Journal H) where
  clear j := j.note (Host.clear j.host) .clear
  plot dot j := j.note (Host.plot dot j.host) (.plot dot)
  delay j :=
    let (answer, host) := Host.delay j.host
    (answer, j.note host (.delay answer))
  setDelay value j := j.note (Host.setDelay value j.host) (.setDelay value)
  setSound value j := j.note (Host.setSound value j.host) (.setSound value)
  keyDown key j :=
    let (answer, host) := Host.keyDown key j.host
    (answer, j.note host (.keyDown key answer))
  waitKey j :=
    let (answer, host) := Host.waitKey j.host
    (answer, j.note host (.waitKey answer))

end Journal

def Notice.call : Notice → Call
  | clear => .clear
  | plot dot => .plot dot
  | setDelay value => .setDelay value
  | setSound value => .setSound value

namespace Effect

variable {H : Type} [Host H]

def calls (host : H) : Effect → List Call
  | proceed notices _ => notices.map Notice.call
  | readDelay _ => [.delay (Host.delay host).1]
  | testKey key _ => [.keyDown key (Host.keyDown key host).1]
  | waitKey _ => [.waitKey (Host.waitKey host).1]

theorem deliver_journal (j : Journal H) (notice : Notice) :
    notice.deliver j = j.note (notice.deliver j.host) notice.call := by
  cases notice <;> rfl

theorem foldl_deliver_journal (notices : List Notice) (j : Journal H) :
    notices.foldl Notice.deliver j =
      ⟨notices.foldl Notice.deliver j.host, j.calls ++ notices.map Notice.call⟩ := by
  induction notices generalizing j with
  | nil => simp
  | cons notice notices ih =>
    rw [List.foldl_cons, ih, deliver_journal]
    simp [Journal.note]

/-- An effect that is put to a journal is put to its host, and its calls are written down. -/
theorem perform_journal (effect : Effect) (j : Journal H) :
    effect.perform j =
      ((effect.perform j.host).1, ⟨(effect.perform j.host).2, j.calls ++ effect.calls j.host⟩) := by
  cases effect with
  | proceed notices next => rw [perform, foldl_deliver_journal, perform, calls]
  | readDelay resume | testKey key resume | waitKey resume => rfl

end Effect

namespace Machine

variable {m : Machine} {H : Type} [Host H]

def calls (m : Machine) (host : H) : List Call :=
  match m.step (⟨host, []⟩ : Journal H) with
  | .ok turn => turn.host.calls
  | .error _ => []

theorem turn_journal (m : Machine) (j : Journal H) :
    m.turn j =
      ⟨(m.turn j.host).machine, ⟨(m.turn j.host).host, j.calls ++
        match m.effect with
        | .ok effect => effect.calls j.host
        | .error _ => []⟩, (m.turn j.host).fault⟩ := by
  simp only [turn]
  cases m.effect with
  | error cause => simp [Effect.attempt, turnOf]
  | ok effect =>
    rw [Effect.attempt, Effect.perform_journal, Effect.attempt]
    rcases effect.perform j.host with ⟨_ | _, host'⟩ <;> rfl

/-- The calls of a step are those of the effect of the next instruction. -/
theorem Shallow.calls_eq (h : m.Shallow) (hstatus : m.status = .running) (host : H) :
    m.calls host =
      match m.effect with
      | .ok effect => effect.calls host
      | .error _ => [] := by
  rw [calls, h.step_eq_turn hstatus, turn_journal]
  rfl

/-- The calls of a step are those of the effect of the next instruction. -/
theorem calls_eq (hstatus : m.status = .running) (hdepth : m.depth ≤ maxDepth) (host : H) :
    m.calls host =
      match m.effect with
      | .ok effect => effect.calls host
      | .error _ => [] :=
  Shallow.calls_eq (fun _ _ _ => hdepth) hstatus host

end Machine
end Chip8
