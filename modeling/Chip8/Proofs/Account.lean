import Chip8.Frontend.Scripted
import Chip8.Proofs.Course
import Chip8.Proofs.Seconds

/-!
# The account of a run

What a run does and how it ends, read off its course: how many steps a batch has, when a frame
follows it, which act each ending comes from, and that nothing is done after that act. The machine
that a run leaves behind is the one that its steps lead to, one after the other.
-/
namespace Chip8
namespace Console

variable {F : Type} [Frontend F]

/-! ## Acts that end a run -/

namespace Act

variable {act : Act F}

theorem ending_eq_halted {cause : Fault} :
    act.ending = some (.halted cause) ↔ ∃ turn, act = .step turn ∧ turn.fault = some cause := by
  cases act with
  | step turn => simp [ending, Turn.ending_eq_halted]
  | frame shown =>
    constructor
    · intro h
      obtain h | ⟨own, h⟩ := Shown.ending_cases h <;> cases h
    · rintro ⟨turn, ⟨⟩, -⟩

theorem ending_eq_quit : act.ending = some .quit ↔
    (∃ turn, act = .step turn ∧ turn.fault = none ∧ Frontend.wantsQuit turn.host = true) ∨
      ∃ shown, act = .frame shown ∧ shown.answer = .ok false := by
  cases act with
  | step turn => simp [ending, Turn.ending_eq_quit]
  | frame shown => simp [ending, Shown.ending_eq_quit]

theorem ending_eq_failed {cause : Failure} :
    act.ending = some (.failed cause) ↔
      ∃ shown, act = .frame shown ∧ shown.answer = .error cause := by
  cases act with
  | step turn =>
    constructor
    · intro h
      obtain h | ⟨own, h⟩ := Turn.ending_cases h <;> cases h
    · rintro ⟨shown, ⟨⟩, -⟩
  | frame shown => simp [ending, Shown.ending_eq_failed]

/-- No act ends a run because the machine left its domain. -/
theorem ending_ne_violated {cause : Violation} : act.ending ≠ some (.violated cause) := by
  intro h
  cases act with
  | step turn => obtain h | ⟨own, h⟩ := Turn.ending_cases h <;> cases h
  | frame shown => obtain h | ⟨own, h⟩ := Shown.ending_cases h <;> cases h

end Act

/-! ## What a course says -/

variable {n : Nat} {c c' : Console F}

namespace Course

variable {durations : List Float} {rounds : List (Round F)} {ending : Option Ending}

theorem acts (h : Course n c durations rounds c' ending) :
    Acts c (rounds.flatMap Round.acts) c' := by
  induction h with
  | ends hbatch _ | outlasts hbatch _ | oversleeps hbatch _ _ =>
    rw [List.flatMap_singleton]
    exact hbatch.acts.append (.nil _)
  | stops hbatch _ hshows _ =>
    rw [List.flatMap_singleton]
    exact hbatch.acts.append (.frame hshows (.nil _))
  | goesOn hbatch _ hshows _ _ ih =>
    rw [List.flatMap_cons, Round.acts, List.append_assoc]
    exact hbatch.acts.append (.frame hshows ih)

/-- Each round is a batch, and the run goes on after it if there is a frame. -/
theorem batch (h : Course n c durations rounds c' ending) :
    ∀ round ∈ rounds, (∃ start, Batch n start round.before round.last) ∧
      (round.frame ≠ none → round.last.ending = none) := by
  induction h with
  | ends hbatch _ | outlasts hbatch _ | oversleeps hbatch _ _ =>
    exact List.forall_mem_singleton.mpr ⟨⟨_, hbatch⟩, fun h => absurd rfl h⟩
  | stops hbatch hlast _ _ =>
    exact List.forall_mem_singleton.mpr ⟨⟨_, hbatch⟩, fun _ => hlast⟩
  | goesOn hbatch hlast _ _ _ ih =>
    exact List.forall_mem_cons.mpr ⟨⟨⟨_, hbatch⟩, fun _ => hlast⟩, ih⟩

/-- There is a frame after every batch but the last one, and after that too if the run does not end
with it, unless the run breaks off there. -/
theorem framed (h : Course n c durations rounds c' ending) :
    ∃ earlier final, rounds = earlier ++ [final] ∧ (∀ round ∈ earlier, round.frame ≠ none) ∧
      (final.last.ending = none →
        final.frame ≠ none ∨ ending = none ∨ ending = some .overslept) := by
  induction h with
  | ends _ hlast =>
    refine ⟨[], _, rfl, List.forall_mem_nil _, fun hnone => ?_⟩
    rw [hlast] at hnone
    cases hnone
  | outlasts _ _ => exact ⟨[], _, rfl, List.forall_mem_nil _, fun _ => .inr (.inl rfl)⟩
  | oversleeps _ _ _ => exact ⟨[], _, rfl, List.forall_mem_nil _, fun _ => .inr (.inr rfl)⟩
  | stops _ _ _ _ =>
    exact ⟨[], _, rfl, List.forall_mem_nil _, fun _ => .inl (Option.some_ne_none _)⟩
  | goesOn _ _ _ _ _ ih =>
    obtain ⟨earlier, final, rfl, hearlier, hfinal⟩ := ih
    exact ⟨_ :: earlier, final, rfl,
      List.forall_mem_cons.mpr ⟨Option.some_ne_none _, hearlier⟩, hfinal⟩

/-- The seconds that pass before the frames are the durations of the run, one after the other. -/
theorem seconds (h : Course n c durations rounds c' ending) :
    (rounds.filterMap Round.frame).map Shown.seconds <+: durations := by
  induction h with
  | ends _ _ | outlasts _ _ | oversleeps _ _ _ => exact List.nil_prefix
  | stops _ _ _ _ => exact (List.prefix_cons_inj _).mpr List.nil_prefix
  | goesOn _ _ _ _ _ ih => exact (List.prefix_cons_inj _).mpr ih

/-- A run breaks off when its durations are used up, or when the timers cannot catch up with the
duration that would come before the next frame. -/
theorem breaksOff (h : Course n c durations rounds c' ending) :
    (ending = none → rounds.length = durations.length + 1) ∧
      (ending = some .overslept →
        ∃ seconds, durations[(rounds.filterMap Round.frame).length]? = some seconds ∧
          (Frontend.timers c'.frontend).advance seconds = none) := by
  induction h with
  | ends _ hlast =>
    refine ⟨nofun, ?_⟩
    rintro ⟨⟩
    obtain h | ⟨cause, h⟩ := Turn.ending_cases hlast <;> cases h
  | outlasts _ _ => exact ⟨fun _ => rfl, nofun⟩
  | oversleeps _ _ hadvance => exact ⟨nofun, fun _ => ⟨_, rfl, hadvance⟩⟩
  | stops _ _ _ hshown =>
    refine ⟨nofun, ?_⟩
    rintro ⟨⟩
    obtain h | ⟨cause, h⟩ := Shown.ending_cases hshown <;> cases h
  | goesOn _ _ _ _ _ ih =>
    refine ⟨fun hnone => congrArg Nat.succ (ih.1 hnone), fun hoverslept => ?_⟩
    exact ih.2 hoverslept

/-- The ending of a run is that of its last act, and no act before it would have ended the run. Only
timers that cannot catch up end a run after an act that would let it go on. -/
theorem last_act (h : Course n c durations rounds c' ending) :
    ∃ init last, rounds.flatMap Round.acts = init ++ [last] ∧
      (∀ act ∈ init, act.ending = none) ∧
      (ending = last.ending ∨ last.ending = none ∧ ending = some .overslept) := by
  induction h with
  | ends hbatch hlast | outlasts hbatch hlast =>
    refine ⟨_, .step _, ?_, hbatch.ending_before, .inl hlast.symm⟩
    rw [List.flatMap_singleton, Round.acts_unframed]
  | oversleeps hbatch hlast _ =>
    refine ⟨_, .step _, ?_, hbatch.ending_before, .inr ⟨hlast, rfl⟩⟩
    rw [List.flatMap_singleton, Round.acts_unframed]
  | stops hbatch hlast _ hshown =>
    refine ⟨_, .frame _, ?_, hbatch.ending_through hlast, .inl hshown.symm⟩
    rw [List.flatMap_singleton, Round.acts_framed]
  | @goesOn _ _ _ before turn shown _ _ hbatch hlast _ hshown _ ih =>
    obtain ⟨init, last, hacts, hinit, hend⟩ := ih
    have hround :
        ∀ act ∈ before.map Act.step ++ [.step turn] ++ [.frame shown], act.ending = none :=
      List.forall_mem_append.mpr
        ⟨hbatch.ending_through hlast, List.forall_mem_singleton.mpr hshown⟩
    refine ⟨_ ++ init, last, ?_, List.forall_mem_append.mpr ⟨hround, hinit⟩, hend⟩
    rw [List.flatMap_cons, hacts, Round.acts_framed, ← List.append_assoc]

/-- A run ends as one of its acts tells it to. -/
theorem ending_iff (h : Course n c durations rounds c' ending) {e : Ending} (he : e ≠ .overslept) :
    ending = some e ↔ ∃ act ∈ rounds.flatMap Round.acts, act.ending = some e := by
  obtain ⟨init, last, hacts, hinit, hend⟩ := h.last_act
  rw [hacts]
  constructor
  · rintro rfl
    rcases hend with hlast | ⟨-, hoverslept⟩
    · exact ⟨last, List.mem_append_right _ (List.mem_singleton_self last), hlast.symm⟩
    · exact absurd (Option.some.inj hoverslept) he
  · rintro ⟨act, hact, hsome⟩
    rcases List.mem_append.mp hact with hact | hact
    · rw [hinit act hact] at hsome
      cases hsome
    · rw [List.mem_singleton.mp hact] at hsome
      rcases hend with hlast | ⟨hnone, -⟩
      · rw [hlast, hsome]
      · rw [hnone] at hsome
        cases hsome

theorem status_eq (h : Course n c durations rounds c' ending) :
    c'.machine.status = statusAfter ending := by
  induction h with
  | ends hbatch hlast | outlasts hbatch hlast =>
    rw [← hlast, ← Turn.statusAfter_ending]
    exact hbatch.status
  | oversleeps hbatch hlast _ =>
    change _ = statusAfter none
    rw [← hlast, ← Turn.statusAfter_ending]
    exact hbatch.status
  | stops hbatch hlast _ hshown =>
    have hstatus := hbatch.status
    rw [Turn.statusAfter_ending, hlast] at hstatus
    obtain rfl | ⟨cause, rfl⟩ := Shown.ending_cases hshown <;> exact hstatus
  | goesOn _ _ _ _ _ ih => exact ih

end Course

/-- What can be said of a run from its acts. A round has one batch, and one frame or none, so that
the first six fields fix how steps and frames follow on each other. -/
structure Account (n : Nat) (c : Console F) (durations : List Float) (rounds : List (Round F))
    (c' : Console F) (ending : Option Ending) : Prop where
  acts : Acts c (rounds.flatMap Round.acts) c'
  size : ∀ round ∈ rounds, 1 ≤ round.turns.length ∧ round.turns.length ≤ n
  early : ∀ round ∈ rounds, round.turns.length < n →
    round.last.fault ≠ none ∨ Frontend.wantsQuit round.last.host = true ∨
      Frontend.wantsFrame round.last.host = true
  /-- A frame follows only a batch that the run does not end with. -/
  frame : ∀ round ∈ rounds, round.frame ≠ none →
    round.last.fault = none ∧ Frontend.wantsQuit round.last.host = false
  /-- A frame follows every such batch, unless the run breaks off there. -/
  framed : ∃ earlier final, rounds = earlier ++ [final] ∧
    (∀ round ∈ earlier, round.frame ≠ none) ∧
    (final.last.fault = none → Frontend.wantsQuit final.last.host = false →
      final.frame ≠ none ∨ ending = none ∨ ending = some .overslept)
  seconds : (rounds.filterMap Round.frame).map Shown.seconds <+: durations
  halted : ∀ cause, ending = some (.halted cause) ↔
    ∃ turn, .step turn ∈ rounds.flatMap Round.acts ∧ turn.fault = some cause
  quit : ending = some .quit ↔
    (∃ turn, .step turn ∈ rounds.flatMap Round.acts ∧ turn.fault = none ∧
      Frontend.wantsQuit turn.host = true) ∨
    ∃ shown, .frame shown ∈ rounds.flatMap Round.acts ∧ shown.answer = .ok false
  failed : ∀ cause, ending = some (.failed cause) ↔
    ∃ shown, .frame shown ∈ rounds.flatMap Round.acts ∧ shown.answer = .error cause
  /-- No act comes after one that ends the run. -/
  stops : ∀ before act after, rounds.flatMap Round.acts = before ++ act :: after →
    act.ending ≠ none → after = []
  sound : ∀ cause, ending ≠ some (.violated cause)
  outlasts : ending = none → rounds.length = durations.length + 1
  /-- The timers cannot catch up with the next duration, and that is only because it is a year and
  more, or because a tick was due all along. -/
  oversleeps : ending = some .overslept →
    ∃ seconds, durations[(rounds.filterMap Round.frame).length]? = some seconds ∧
      (Frontend.timers c'.frontend).advance seconds = none ∧
      ((Frontend.timers c'.frontend).elapsed ≥ secondsPerTick ∨ seconds ≥ 33554432.0)
  status : c'.machine.status = statusAfter ending

/-- A course gives the account of its run. -/
theorem Course.account {durations : List Float} {rounds : List (Round F)} {ending : Option Ending}
    (h : Course n c durations rounds c' ending) : Account n c durations rounds c' ending where
  acts := h.acts
  size round hround := by
    obtain ⟨⟨start, hbatch⟩, -⟩ := h.batch round hround
    rw [Round.length_turns]
    exact ⟨Nat.le_add_left 1 _, hbatch.size⟩
  early round hround hshort := by
    obtain ⟨⟨start, hbatch⟩, -⟩ := h.batch round hround
    rw [Round.length_turns] at hshort
    exact Turn.endsBatch_eq_true.mp (hbatch.early hshort)
  frame round hround := by
    obtain ⟨-, hframe⟩ := h.batch round hround
    exact fun hsome => Turn.ending_eq_none.mp (hframe hsome)
  framed := by
    obtain ⟨earlier, final, hrounds, hearlier, hfinal⟩ := h.framed
    exact ⟨earlier, final, hrounds, hearlier,
      fun hfault hquit => hfinal (Turn.ending_eq_none.mpr ⟨hfault, hquit⟩)⟩
  seconds := h.seconds
  halted cause := by
    rw [h.ending_iff (e := .halted cause) nofun]
    simp only [Act.ending_eq_halted]
    constructor
    · rintro ⟨_, hact, turn, rfl, hfault⟩
      exact ⟨turn, hact, hfault⟩
    · rintro ⟨turn, hact, hfault⟩
      exact ⟨_, hact, turn, rfl, hfault⟩
  quit := by
    rw [h.ending_iff (e := .quit) nofun]
    simp only [Act.ending_eq_quit]
    constructor
    · rintro ⟨_, hact, ⟨turn, rfl, hquit⟩ | ⟨shown, rfl, hanswer⟩⟩
      · exact .inl ⟨turn, hact, hquit⟩
      · exact .inr ⟨shown, hact, hanswer⟩
    · rintro (⟨turn, hact, hquit⟩ | ⟨shown, hact, hanswer⟩)
      · exact ⟨_, hact, .inl ⟨turn, rfl, hquit⟩⟩
      · exact ⟨_, hact, .inr ⟨shown, rfl, hanswer⟩⟩
  failed cause := by
    rw [h.ending_iff (e := .failed cause) nofun]
    simp only [Act.ending_eq_failed]
    constructor
    · rintro ⟨_, hact, shown, rfl, hanswer⟩
      exact ⟨shown, hact, hanswer⟩
    · rintro ⟨shown, hact, hanswer⟩
      exact ⟨_, hact, shown, rfl, hanswer⟩
  stops before act after hacts hact := by
    obtain ⟨init, last, hlast, hinit, -⟩ := h.last_act
    rcases after.eq_nil_or_concat with rfl | ⟨middle, final, rfl⟩
    · rfl
    · rw [hlast, List.concat_eq_append, ← List.cons_append, ← List.append_assoc] at hacts
      obtain ⟨rfl, -⟩ := List.append_inj' hacts rfl
      exact absurd (hinit act (List.mem_append_right _ (List.mem_cons_self ..))) hact
  sound cause hviolated := by
    obtain ⟨act, -, hact⟩ := (h.ending_iff (e := .violated cause) nofun).mp hviolated
    exact Act.ending_ne_violated hact
  outlasts := h.breaksOff.1
  oversleeps hoverslept := by
    obtain ⟨seconds, hnext, hadvance⟩ := h.breaksOff.2 hoverslept
    exact ⟨seconds, hnext, hadvance, Timers.overdue_of_advance hadvance⟩
  status := h.status_eq

/-- Every run of a machine that program and host can have led to, at every frequency, is a sequence
of rounds: what it does, how it ends and what it leaves behind is as `Account` says. -/
theorem run_account (hreachable : c.machine.Reachable) (hstatus : c.machine.status = .running)
    (frequency : Nat) (durations : List Float) :
    ∃ rounds, Account (batchSize frequency) c durations rounds
      (run (batchSize frequency) durations c).1 (run (batchSize frequency) durations c).2 := by
  obtain ⟨rounds, hcourse⟩ := exists_course_at hreachable.sound hstatus frequency durations
  exact ⟨rounds, hcourse.account⟩

/-- Timers that have caught up do so again in the next frame, if that comes soon enough. -/
theorem frame_of_short {seconds : Float}
    (hsettled : ¬ (Frontend.timers c.frontend).elapsed ≥ secondsPerTick)
    (hshort : ¬ seconds ≥ 33554432.0) :
    ∃ timers, ¬ timers.elapsed ≥ secondsPerTick ∧
      ∃ shown : Shown F, Frontend.present (Frontend.withTimers timers c.frontend) =
          (shown.answer, shown.frontend) ∧
        frame seconds c = (⟨c.machine, shown.frontend⟩, shown.ending) := by
  obtain ⟨hnone, -⟩ | ⟨shown, rfl, ⟨_, timers, hadvance, hpresent⟩, hframe⟩ := frame_cases seconds c
  · have hsome := Timers.isSome_advance hsettled hshort
    rw [hnone] at hsome
    cases hsome
  · exact ⟨timers, Timers.settled_of_advance hadvance, shown, hpresent, hframe⟩

/-- A program that clears the screen twice, with a front end that wants each picture shown and stops
after two frames. There would be nine steps to a batch. -/
theorem eager_run_account :
    ∃ (c c' : Console Scripted) (rounds : List (Round Scripted)),
      Machine.boot .cosmac (.cycle []) [0x00, 0xe0, 0x00, 0xe0] = .ok c.machine ∧
      run (batchSize 540) [1.0 / 60.0, 1.0 / 60.0] c = (c', some .quit) ∧
      c'.frontend.recorder.events = #[.clear, .frame, .clear, .frame] ∧
      Account (batchSize 540) c [1.0 / 60.0, 1.0 / 60.0] rounds c' (some .quit) := by
  obtain ⟨m, hboot, hreachable, hstatus, -, -, -, hpc, hwords⟩ :=
    Machine.exists_boot .cosmac (.cycle []) [0x00, 0xe0, 0x00, 0xe0]
      (Nat.le_of_lt (show 4 < Memory.programRoom by decide))
  have hdepth := hreachable.sound.depth_le
  have hfirst : m.Fetches .clearScreen :=
    Machine.fetches_of_pc hpc (by decide) (hwords 0 (by simp))
  let m₁ : Machine := { m.pass with display := .dark }
  have hsecond : m₁.Fetches .clearScreen :=
    Machine.fetches_of_pc (hfirst.1.toNat_pc_pass.trans (by rw [hpc])) (by decide)
      (hwords 2 (by simp))
  let s : Scripted := { script := { frames := 2, failure := .window "gone", eager := true } }
  have hbatch : batch (8 + 1) ⟨m, s⟩ = (⟨m₁, Host.clear s⟩, none) :=
    batch_of_clear hfirst hstatus hdepth rfl rfl
  obtain ⟨timers, hsettled, shown, hpresent, hframe⟩ := frame_of_short (c := ⟨m₁, Host.clear s⟩)
    (show ¬ (0.0 : Float) ≥ secondsPerTick by decide)
    (show ¬ (1.0 / 60.0 : Float) ≥ 33554432.0 by decide)
  obtain ⟨hanswer, hfrontend⟩ := Prod.mk.inj hpresent
  have hbatch' : batch (8 + 1) ⟨m₁, shown.frontend⟩ =
      (⟨{ m₁.pass with display := .dark }, Host.clear shown.frontend⟩, none) := by
    rw [← hfrontend]
    exact batch_of_clear hsecond hstatus hdepth rfl rfl
  obtain ⟨timers', -, shown', hpresent', hframe'⟩ :=
    frame_of_short (c := ⟨{ m₁.pass with display := .dark }, Host.clear shown.frontend⟩)
      (by rw [← hfrontend]; exact hsettled) (show ¬ (1.0 / 60.0 : Float) ≥ 33554432.0 by decide)
  obtain ⟨hanswer', hfrontend'⟩ := Prod.mk.inj hpresent'
  have hgoesOn : shown.ending = none := Shown.ending_eq_none.mpr hanswer.symm
  have hquit : shown'.ending = some .quit :=
    Shown.ending_eq_quit.mpr (hanswer'.symm.trans (by rw [← hfrontend]; rfl))
  have hsize : batchSize 540 = 8 + 1 := by decide
  have hrun : run (batchSize 540) [1.0 / 60.0, 1.0 / 60.0] ⟨m, s⟩ =
      (⟨{ m₁.pass with display := .dark }, shown'.frontend⟩, some .quit) := by
    rw [hsize, run_cons hbatch (hgoesOn ▸ hframe), run_of_frame_ends hbatch' (hquit ▸ hframe')]
  obtain ⟨rounds, haccount⟩ :=
    run_account (c := ⟨m, s⟩) hreachable hstatus 540 [1.0 / 60.0, 1.0 / 60.0]
  rw [hrun] at haccount
  exact ⟨⟨m, s⟩, _, rounds, hboot, hrun, by rw [← hfrontend', ← hfrontend]; rfl, haccount⟩

end Console
end Chip8
