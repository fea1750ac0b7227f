import Chip8.Proofs.Journal
import Chip8.Recorder

/-!
# Faults are atomic

A fault leaves everything as it was before the step, apart from the status that names it. The host
notices nothing either, unless it was asked for a key and answered with one that the keypad does not
have. After a fault there is no further step, so that a run ends with the first one.
-/
namespace Chip8.Machine

variable {m : Machine}

/-- The results of the steps of a run: no fault at all, or one at its end that the status names. -/
theorem Run.results_eq {results : List (Option Fault)} (h : Run results m) :
    (∃ n, results = List.replicate n none ∧ m.status = .running) ∨
      ∃ n cause, results = List.replicate n none ++ [some cause] ∧ m.status = .halted cause := by
  induction h with
  | new dialect entropy => exact .inl ⟨0, rfl, rfl⟩
  | load _ hload ih => rwa [(sameControl_load hload).status]
  | @step results m H _ host turn hrun hstep ih =>
    obtain ⟨hstatus, -, hnext⟩ := hrun.sound.step hstep
    obtain ⟨n, rfl, -⟩ | ⟨n, cause, -, hhalted⟩ := ih
    · rw [hnext]
      cases turn.fault with
      | none => exact .inl ⟨n + 1, List.replicate_succ'.symm, rfl⟩
      | some cause => exact .inr ⟨n, cause, rfl, rfl⟩
    · rw [hstatus] at hhalted
      cases hhalted

/-- A step that raises a fault changes nothing but the status, and draws no random byte. If it
waited for a key and refused the answer, it has made this one call; otherwise it has made none. A
step that raises no fault leaves the machine running. So a run has at most one fault, at its end,
and the status names it. -/
theorem faults_atomic :
    (∀ m : Machine, m.Reachable → m.status = .running → ∀ (H : Type) [Host H] (host : H),
      ∃ turn, m.step host = .ok turn ∧
        (∀ cause, turn.fault = some cause → turn.machine = m.halt cause ∧
          (∀ x, cause = .badKey → m.Fetches (.waitKey x) →
            m.calls host = [.waitKey (Host.waitKey host).1] ∧
              turn.host = (Host.waitKey host).2) ∧
          (¬ (cause = .badKey ∧ ∃ x, m.Fetches (.waitKey x)) →
            m.calls host = [] ∧ turn.host = host)) ∧
        (turn.fault = none → turn.machine.status = .running)) ∧
      ∀ (results : List (Option Fault)) (m : Machine), Run results m →
        (∃ n, results = List.replicate n none ∧ m.status = .running) ∨
          ∃ n cause, results = List.replicate n none ++ [some cause] ∧
            m.status = .halted cause := by
  constructor
  · intro m hm hstatus H _ host
    have hstep := step_eq_turn hstatus hm.sound.depth_le host
    have hcalls := calls_eq hstatus hm.sound.depth_le host
    have hnext := (hm.sound.step hstep).2.2
    refine ⟨m.turn host, hstep, fun cause hcause => ?_, fun hnone => ?_⟩
    · refine ⟨turn_machine_of_fault hcause, fun x _ hfetch => ?_, fun hother => ?_⟩
      · rw [hcalls, hfetch.effect_eq]
        exact ⟨rfl, hfetch.turn_host_waitKey host⟩
      · obtain ⟨own, heffect, hturn⟩ | ⟨x, hfetch, -, hturn⟩ | ⟨effect, next, host', -, -, hturn⟩ :=
          turn_cases m host
        · rw [hcalls, heffect, hturn]
          exact ⟨rfl, rfl⟩
        · rw [hturn] at hcause
          cases hcause
          exact absurd ⟨rfl, x, hfetch⟩ hother
        · rw [hturn] at hcause
          cases hcause
    · rw [hnext, hnone]
      rfl
  · intro results m hrun
    exact hrun.results_eq

/-- A program that waits for a key, and a recorder that answers with key sixteen: the recorder has
been asked once, and its queue is used up. -/
theorem refused_key_atomic :
    ∃ (m : Machine) (turn : Turn Recorder), boot .cosmac (.cycle []) [0xf0, 0x0a] = .ok m ∧
      m.step ({ queue := [0x10] } : Recorder) = .ok turn ∧ turn.fault = some .badKey ∧
      turn.machine = m.halt .badKey ∧
      m.calls ({ queue := [0x10] } : Recorder) = [.waitKey 0x10] ∧ turn.host.queue = [] := by
  obtain ⟨m, hboot, hm, hstatus, -, -, hfetch⟩ :=
    boot_instruction (i := .waitKey (lastDigit 0)) .cosmac (.cycle []) 0xf0 0x0a (by decide)
  obtain ⟨turn, hstep, hfault, -⟩ := faults_atomic.1 m hm hstatus Recorder { queue := [0x10] }
  have hcause : turn.fault = some .badKey := by
    rw [step_eq_turn hstatus hm.sound.depth_le, Machine.turn, hfetch.effect_eq] at hstep
    cases hstep
    rfl
  obtain ⟨hmachine, hasked, -⟩ := hfault _ hcause
  obtain ⟨hcalls, hhost⟩ := hasked (lastDigit 0) rfl hfetch
  exact ⟨m, turn, hboot, hstep, hcause, hmachine, hcalls, by rw [hhost]; rfl⟩

end Chip8.Machine
