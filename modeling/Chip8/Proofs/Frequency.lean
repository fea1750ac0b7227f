import Chip8.Proofs.Account
import Chip8.Proofs.Walk
import Chip8.Recorder

/-!
# The frequency does not matter

How many steps a batch has decides when frames are shown and how far the timers have moved on by
then. A front end is steady if its answers to the machine depend on neither, but only on the calls
that the machine has made before. On a steady front end the machine goes the same way at every
frequency: a run that ends with a fault ends with it at every other frequency, after the same steps
and with the same calls.
-/
namespace Chip8

namespace Frontend

variable {F : Type} [Frontend F]

/-- What can become of the front end `f₀` in a run, and the calls that led there. Frames and the
passing of time are not among the calls. -/
inductive Reached (f₀ : F) : Journal F → Prop where
  | start : Reached f₀ ⟨f₀, []⟩
  | notice {j : Journal F} (notice : Notice) : Reached f₀ j → Reached f₀ (notice.deliver j)
  | delay {j : Journal F} : Reached f₀ j → Reached f₀ (Host.delay j).2
  | keyDown {j : Journal F} (key : Key) : Reached f₀ j → Reached f₀ (Host.keyDown key j).2
  | waitKey {j : Journal F} : Reached f₀ j → Reached f₀ (Host.waitKey j).2
  | present {j : Journal F} : Reached f₀ j → Reached f₀ ⟨(present j.host).2, j.calls⟩
  | time {j : Journal F} {seconds : Float} {ticks : Nat} {timers : Timers} :
      Reached f₀ j → (Frontend.timers j.host).advance seconds = some (ticks, timers) →
      Reached f₀ ⟨withTimers timers j.host, j.calls⟩

/-- Whatever a run does with the front end `f₀`, it never asks to stop, its frames never fail, and
its answers depend on the calls before them alone. -/
structure Steady (f₀ : F) : Prop where
  delay : ∀ j j', Reached f₀ j → Reached f₀ j' → j'.calls = j.calls →
    (Host.delay j'.host).1 = (Host.delay j.host).1
  keyDown : ∀ key j j', Reached f₀ j → Reached f₀ j' → j'.calls = j.calls →
    (Host.keyDown key j'.host).1 = (Host.keyDown key j.host).1
  waitKey : ∀ j j', Reached f₀ j → Reached f₀ j' → j'.calls = j.calls →
    (Host.waitKey j'.host).1 = (Host.waitKey j.host).1
  wantsQuit : ∀ j, Reached f₀ j → Frontend.wantsQuit j.host = false
  present : ∀ j, Reached f₀ j → (Frontend.present j.host).1 = .ok true

/-- The same calls have led from `f₀` to two front ends. -/
def Twins (f₀ f f' : F) : Prop :=
  ∃ calls, Reached f₀ ⟨f, calls⟩ ∧ Reached f₀ ⟨f', calls⟩

variable {f₀ f f' : F}

theorem Reached.deliver {calls : List Call} (h : Reached f₀ ⟨f, calls⟩) (notice : Notice) :
    Reached f₀ ⟨notice.deliver f, calls ++ [notice.call]⟩ := by
  have hnext := h.notice notice
  rwa [Effect.deliver_journal] at hnext

/-- Twins of a steady front end give the same answers. -/
theorem Steady.alike (h : Steady f₀) : Alike fun _ => Twins f₀ where
  notice notice n f f' := by
    rintro ⟨calls, hf, hf'⟩
    exact ⟨_, hf.deliver notice, hf'.deliver notice⟩
  delay n f f' := by
    rintro ⟨calls, hf, hf'⟩
    have hanswer : (Host.delay f').1 = (Host.delay f).1 := h.delay _ _ hf hf' rfl
    have hnext : Reached f₀ ⟨(Host.delay f').2, calls ++ [.delay (Host.delay f').1]⟩ := hf'.delay
    rw [hanswer] at hnext
    exact ⟨hanswer, _, hf.delay, hnext⟩
  keyDown key n f f' := by
    rintro ⟨calls, hf, hf'⟩
    have hanswer : (Host.keyDown key f').1 = (Host.keyDown key f).1 := h.keyDown key _ _ hf hf' rfl
    have hnext : Reached f₀
        ⟨(Host.keyDown key f').2, calls ++ [.keyDown key (Host.keyDown key f').1]⟩ :=
      hf'.keyDown key
    rw [hanswer] at hnext
    exact ⟨hanswer, _, hf.keyDown key, hnext⟩
  waitKey n f f' := by
    rintro ⟨calls, hf, hf'⟩
    have hanswer : (Host.waitKey f').1 = (Host.waitKey f).1 := h.waitKey _ _ hf hf' rfl
    have hnext : Reached f₀ ⟨(Host.waitKey f').2, calls ++ [.waitKey (Host.waitKey f').1]⟩ :=
      hf'.waitKey
    rw [hanswer] at hnext
    exact ⟨hanswer, _, hf.waitKey, hnext⟩

end Frontend

/-! ## A front end without frames -/

/-- A host with timers beside it, whose frames show nothing. -/
structure Headless (H : Type) where
  host : H
  clock : Timers := {}
  /-- A frame is wanted after every step. -/
  eager : Bool := false

namespace Headless

variable {H : Type} [Host H]

instance : Frontend (Headless H) where
  clear f := { f with host := Host.clear f.host }
  plot dot f := { f with host := Host.plot dot f.host }
  delay f :=
    let (answer, host) := Host.delay f.host
    (answer, { f with host })
  setDelay value f := { f with host := Host.setDelay value f.host }
  setSound value f := { f with host := Host.setSound value f.host }
  keyDown key f :=
    let (answer, host) := Host.keyDown key f.host
    (answer, { f with host })
  waitKey f :=
    let (answer, host) := Host.waitKey f.host
    (answer, { f with host })
  timers f := f.clock
  withTimers clock f := { f with clock }
  present f := (.ok true, f)
  wantsFrame f := f.eager

def replay (host : H) : Call → H
  | .clear => Host.clear host
  | .plot dot => Host.plot dot host
  | .delay _ => (Host.delay host).2
  | .setDelay value => Host.setDelay value host
  | .setSound value => Host.setSound value host
  | .keyDown key _ => (Host.keyDown key host).2
  | .waitKey _ => (Host.waitKey host).2

variable {f₀ : Headless H} {j : Journal (Headless H)}

/-- The host is what the calls have made of it. -/
theorem host_of_reached (h : Frontend.Reached f₀ j) :
    j.host.host = j.calls.foldl replay f₀.host := by
  have hnote (j : Journal (Headless H)) (f : Headless H) (call : Call) :
      (j.note f call).calls.foldl replay f₀.host = replay (j.calls.foldl replay f₀.host) call := by
    rw [Journal.note, List.foldl_append]
    rfl
  induction h with
  | start => rfl
  | @notice j notice _ ih =>
    rw [Effect.deliver_journal, hnote, ← ih]
    cases notice <;> rfl
  | delay _ ih => exact (congrArg (replay · (.delay _)) ih).trans (hnote _ _ _).symm
  | keyDown key _ ih => exact (congrArg (replay · (.keyDown key _)) ih).trans (hnote _ _ _).symm
  | waitKey _ ih => exact (congrArg (replay · (.waitKey _)) ih).trans (hnote _ _ _).symm
  | present _ ih | time _ _ ih => exact ih

/-- Every host is steady in this way. -/
theorem steady (f₀ : Headless H) : Frontend.Steady f₀ where
  delay j j' h h' hcalls := by
    change (Host.delay j'.host.host).1 = (Host.delay j.host.host).1
    rw [host_of_reached h, host_of_reached h', hcalls]
  keyDown key j j' h h' hcalls := by
    change (Host.keyDown key j'.host.host).1 = (Host.keyDown key j.host.host).1
    rw [host_of_reached h, host_of_reached h', hcalls]
  waitKey j j' h h' hcalls := by
    change (Host.waitKey j'.host.host).1 = (Host.waitKey j.host.host).1
    rw [host_of_reached h, host_of_reached h', hcalls]
  wantsQuit _ _ := rfl
  present _ _ := rfl

end Headless

/-! ## Runs without their frames -/

namespace Console

open Frontend

variable {F : Type}

/-- The turn that an act takes, if it is not a frame. -/
def Act.turn? : Act F → Option (Turn F)
  | step turn => some turn
  | frame _ => none

theorem filterMap_acts (rounds : List (Round F)) :
    (rounds.flatMap Round.acts).filterMap Act.turn? = rounds.flatMap Round.turns := by
  have hsteps : Act.turn? ∘ Act.step = (some : Turn F → Option (Turn F)) := rfl
  have hframes : Act.turn? ∘ Act.frame = fun _ : Shown F => (none : Option (Turn F)) := rfl
  have hround (round : Round F) : round.acts.filterMap Act.turn? = round.turns := by
    rw [Round.acts, List.filterMap_append, List.filterMap_map, List.filterMap_map, hsteps, hframes]
    simp
  rw [List.filterMap_flatMap]
  simp only [hround]

/-- Every round takes a step. -/
theorem length_le_turns (rounds : List (Round F)) :
    rounds.length ≤ (rounds.flatMap Round.turns).length := by
  induction rounds with
  | nil => exact Nat.le_refl 0
  | cons round rounds ih =>
    rw [List.flatMap_cons, List.length_append, List.length_cons, Round.length_turns]
    omega

variable [Frontend F]

/-- The calls that the machine makes in acts that begin at a console; those of the frames are not
among them. -/
def calls (c : Console F) : List (Act F) → List Call
  | [] => []
  | .step turn :: acts => c.machine.calls c.frontend ++ turn.console.calls acts
  | .frame shown :: acts => calls ⟨c.machine, shown.frontend⟩ acts

variable {f₀ : F} {c c' : Console F} {acts : List (Act F)}

/-- A frame is no call of the machine. -/
theorem Shows.reached {shown : Shown F} {calls : List Call} (h : c.Shows shown)
    (hreached : Reached f₀ ⟨c.frontend, calls⟩) : Reached f₀ ⟨shown.frontend, calls⟩ := by
  obtain ⟨ticks, timers, hadvance, hpresent⟩ := h
  have hnext : Reached f₀ ⟨(Frontend.present (withTimers timers c.frontend)).2, calls⟩ :=
    (hreached.time hadvance).present
  rwa [hpresent] at hnext

/-- The steps among the acts of a run, taken one after the other on a twin of the front end. -/
theorem Acts.walk (hsteady : Steady f₀) (h : Acts c acts c') (hm : c.machine.Sound) {f : F}
    (htwins : Twins f₀ c.frontend f) :
    ∃ legs f', c.machine.Walk f legs c'.machine f' ∧
      legs.map (·.turn.machine) = (acts.filterMap Act.turn?).map Turn.machine ∧
      legs.flatMap Leg.calls = c.calls acts := by
  induction h generalizing f with
  | nil c => exact ⟨[], f, .nil .., rfl, rfl⟩
  | @step c _ turn acts hstatus hstep _ ih =>
    obtain ⟨turn', hstep', hmatches, hnext⟩ := hsteady.alike.step (n := 0) hm hstep htwins
    obtain ⟨legs, f', hwalk, hmachines, hcalls⟩ := ih (hm.step hstep).2.1 hnext
    have htarget : turn'.machine = turn.machine := hmatches.target
    have hfirst : Leg.calls ⟨c.machine, f, turn'⟩ = c.machine.calls c.frontend := hmatches.calls
    refine ⟨⟨c.machine, f, turn'⟩ :: legs, f', .cons hstep' (htarget ▸ hwalk), ?_, ?_⟩
    · rw [List.map_cons, hmachines, htarget]
      rfl
    · rw [List.flatMap_cons, hfirst, hcalls]
      rfl
  | frame hshows _ ih =>
    obtain ⟨calls, hfrontend, hf⟩ := htwins
    exact ih hm ⟨calls, hshows.reached hfrontend, hf⟩

/-- On a steady front end only a fault ends a run. -/
theorem Acts.ending_halted (hsteady : Steady f₀) (h : Acts c acts c') (hm : c.machine.Sound)
    {calls : List Call} (hreached : Reached f₀ ⟨c.frontend, calls⟩) :
    ∀ act ∈ acts, ∀ ending, act.ending = some ending → ∃ cause, ending = .halted cause := by
  induction h generalizing calls with
  | nil => exact List.forall_mem_nil _
  | @step c _ turn acts _ hstep _ ih =>
    obtain ⟨turn', hstep', -, calls', hnext, -⟩ :=
      hsteady.alike.step (n := 0) hm hstep ⟨calls, hreached, hreached⟩
    refine List.forall_mem_cons.mpr ⟨fun ending hending => ?_, ih (hm.step hstep).2.1 hnext⟩
    obtain rfl | hhalted := Turn.ending_cases hending
    · have hquit := (Turn.ending_eq_quit.mp hending).2
      rw [hsteady.wantsQuit _ hnext] at hquit
      cases hquit
    · exact hhalted
  | @frame c _ shown acts hshows _ ih =>
    refine List.forall_mem_cons.mpr ⟨fun ending hending => ?_, ih hm (hshows.reached hreached)⟩
    obtain ⟨ticks, timers, hadvance, hpresent⟩ := hshows
    have hanswer : (Frontend.present (withTimers timers c.frontend)).1 = .ok true :=
      hsteady.present _ (hreached.time hadvance)
    rw [hpresent] at hanswer
    change shown.answer = _ at hanswer
    change shown.ending = _ at hending
    rw [Shown.ending, hanswer] at hending
    cases hending

/-- On a steady front end a run breaks off or ends with a fault. -/
theorem Course.ending_cases {n : Nat} {durations : List Float} {rounds : List (Round F)}
    {ending : Option Ending} (h : Course n c durations rounds c' ending)
    (hm : c.machine.Sound) (hsteady : Steady c.frontend) :
    ending = none ∨ ending = some .overslept ∨ ∃ cause, ending = some (.halted cause) := by
  cases ending with
  | none => exact .inl rfl
  | some e =>
    by_cases he : e = .overslept
    · exact .inr (.inl (congrArg some he))
    · obtain ⟨act, hact, hend⟩ := (h.ending_iff he).mp rfl
      obtain ⟨cause, rfl⟩ := h.acts.ending_halted hsteady hm .start act hact e hend
      exact .inr (.inr ⟨cause, rfl⟩)

/-- The steps of a run, taken one after the other without its frames. -/
theorem Course.walk {n : Nat} {durations : List Float} {rounds : List (Round F)}
    {ending : Option Ending} (h : Course n c durations rounds c' ending)
    (hm : c.machine.Sound) (hsteady : Steady c.frontend) :
    ∃ legs f, c.machine.Walk c.frontend legs c'.machine f ∧
      legs.map (·.turn.machine) = (rounds.flatMap Round.turns).map Turn.machine ∧
      legs.flatMap Leg.calls = c.calls (rounds.flatMap Round.acts) := by
  rw [← filterMap_acts]
  exact h.acts.walk hsteady hm ⟨[], .start, .start⟩

theorem Course.not_running {n : Nat} {durations : List Float} {rounds : List (Round F)}
    {cause : Fault} (h : Course n c durations rounds c' (some (.halted cause))) :
    c'.machine.status ≠ .running := by
  rw [h.status_eq]
  rintro ⟨⟩

/-- A run that ends with a fault at the frequency `a` ends with it at the frequency `b`, if it is
given the time for as many rounds as there were steps, and if the timers can catch up with that
time. It takes the same steps: the machine is the same after each of them, and so are all calls. -/
theorem frequency_irrelevant (hm : c.machine.Reachable) (hstatus : c.machine.status = .running)
    (hsteady : Steady c.frontend) (a b : Nat) {durations : List Float} {cause : Fault}
    (h : run (batchSize a) durations c = (c', some (.halted cause))) :
    ∃ rounds, Course (batchSize a) c durations rounds c' (some (.halted cause)) ∧
      ∀ durations', (rounds.flatMap Round.turns).length ≤ durations'.length →
        (run (batchSize b) durations' c).2 ≠ some .overslept →
        ∃ rounds' c'', run (batchSize b) durations' c = (c'', some (.halted cause)) ∧
          Course (batchSize b) c durations' rounds' c'' (some (.halted cause)) ∧
          c''.machine = c'.machine ∧
          (rounds'.flatMap Round.turns).map Turn.machine =
            (rounds.flatMap Round.turns).map Turn.machine ∧
          c.calls (rounds'.flatMap Round.acts) = c.calls (rounds.flatMap Round.acts) := by
  obtain ⟨rounds, hcourse⟩ := exists_course_at hm.sound hstatus a durations
  rw [h] at hcourse
  refine ⟨rounds, hcourse, fun durations' hlong hawake => ?_⟩
  obtain ⟨rounds', hcourse'⟩ := exists_course_at hm.sound hstatus b durations'
  obtain ⟨c'', ending, hrun⟩ : ∃ c'' ending, run (batchSize b) durations' c = (c'', ending) :=
    ⟨_, _, rfl⟩
  rw [hrun] at hcourse' hawake ⊢
  obtain ⟨legs, f, hwalk, hmachines, hcalls⟩ := hcourse.walk hm.sound hsteady
  obtain ⟨legs', f', hwalk', hmachines', hcalls'⟩ := hcourse'.walk hm.sound hsteady
  obtain rfl | rfl | ⟨cause', rfl⟩ := hcourse'.ending_cases hm.sound hsteady
  · -- every round took a step, so that there were more steps than lead to the fault
    have hlength : legs.length = (rounds.flatMap Round.turns).length := by
      simpa using congrArg List.length hmachines
    have hlength' : legs'.length = (rounds'.flatMap Round.turns).length := by
      simpa using congrArg List.length hmachines'
    have hrounds := hcourse'.breaksOff.1 rfl
    have hturns := length_le_turns rounds'
    exact absurd (hwalk.running_of_lt hwalk' (by omega)) hcourse.not_running
  · exact absurd rfl hawake
  · obtain ⟨rfl, hmachine⟩ :=
      hwalk.unique_of_halted hwalk' hcourse.not_running hcourse'.not_running
    have hcause := hcourse'.status_eq
    rw [← hmachine, hcourse.status_eq] at hcause
    cases hcause
    exact ⟨rounds', c'', rfl, hcourse', hmachine.symm, hmachines'.symm.trans hmachines,
      hcalls'.symm.trans hcalls⟩

/-- A program of one instruction, which halts behind it, at two frequencies: one of them takes both
steps in one batch, and the other one shows a frame in between. -/
theorem two_frequencies :
    ∃ (m : Machine) (c' c'' : Console (Headless Recorder)),
      Machine.boot .cosmac (.cycle []) [0x60, 0x01, 0x00, 0x00] = .ok m ∧
        run (batchSize 540) [] ⟨m, { host := {} }⟩ = (c', some (.halted .illegalInstruction)) ∧
        run (batchSize 60) (List.replicate 9 0.0) ⟨m, { host := {} }⟩ =
          (c'', some (.halted .illegalInstruction)) ∧
        c''.machine = c'.machine := by
  obtain ⟨m, hboot, hm, hstatus, -, -, -, hpc, hwords⟩ :=
    Machine.exists_boot .cosmac (.cycle []) [0x60, 0x01, 0x00, 0x00]
      (Nat.le_of_lt (show 4 < Memory.programRoom by decide))
  have hset : m.Fetches (.setByte (lastDigit 0) 1) :=
    Machine.fetches_of_pc hpc (by decide) (hwords 0 (by simp))
  let m₁ := m.pass.set (lastDigit 0) 1
  have hpc₁ : m₁.pc.toNat = 0x202 := hset.1.toNat_pc_pass.trans (congrArg (· + 2) hpc)
  have hfirst (f : Headless Recorder) : m.step f = .ok ⟨m₁, f, none⟩ := by
    rw [Machine.step_eq_turn hstatus hm.sound.depth_le, Machine.turn_quiet hset.effect_eq]
  have hsecond (f : Headless Recorder) : m₁.step f =
      .ok ⟨m₁.halt .illegalInstruction, f, some .illegalInstruction⟩ := by
    rw [Machine.step_eq_turn (m := m₁) hstatus hm.sound.depth_le,
      Machine.turn_of_zero hpc₁ (by decide) (hwords 2 (by simp))]
  let f : Headless Recorder := { host := {} }
  have hgoesOn (n : Nat) : batch (n + 1) ⟨m, f⟩ = batch n ⟨m₁, f⟩ :=
    by rw [batch_succ (hfirst f)]; exact if_neg Bool.false_ne_true
  have hends (n : Nat) (f : Headless Recorder) : batch (n + 1) ⟨m₁, f⟩ =
      (⟨m₁.halt .illegalInstruction, f⟩, some (.halted .illegalInstruction)) :=
    (batch_succ (hsecond f)).trans (if_pos rfl)
  obtain ⟨c', hrun⟩ :
      ∃ c', run (batchSize 540) [] ⟨m, f⟩ = (c', some (.halted .illegalInstruction)) :=
    ⟨_, run_of_batch_ends ((hgoesOn 8).trans (hends 7 f))⟩
  have hrun' : (run (batchSize 60) (List.replicate 9 0.0) ⟨m, f⟩).2 =
      some (.halted .illegalInstruction) := by
    obtain ⟨_, -, shown, hpresent, hframe⟩ :=
      frame_of_short (c := ⟨m₁, f⟩) (show ¬ (0.0 : Float) ≥ secondsPerTick by decide)
        (show ¬ (0.0 : Float) ≥ 33554432.0 by decide)
    have hanswer : shown.answer = .ok true := (congrArg Prod.fst hpresent).symm
    rw [Shown.ending, hanswer] at hframe
    have hsize : batchSize 60 = 0 + 1 := rfl
    rw [hsize, List.replicate_succ, run_cons (hgoesOn 0) hframe, run_of_batch_ends (hends 0 _)]
  obtain ⟨rounds, hcourse, hother⟩ :=
    frequency_irrelevant hm hstatus (Headless.steady f) 540 60 hrun
  have hlong : (rounds.flatMap Round.turns).length ≤ (List.replicate 9 (0.0 : Float)).length := by
    cases hcourse with
    | ends hbatch _ =>
      rw [List.flatMap_singleton, Round.length_turns]
      exact hbatch.size
  obtain ⟨rounds', c'', hother, -, hmachine, -⟩ :=
    hother _ hlong (by rw [hrun']; rintro ⟨⟩)
  exact ⟨m, c', c'', hboot, hrun, hother, hmachine⟩

end Console

end Chip8
