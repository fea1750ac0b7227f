import Chip8.Proofs.Account

/-!
# Moments of a run

A moment of a run is one of its acts, with the console that the act starts from and the acts that
come after it. What every act keeps holds at every moment, if it holds at the start; and the act
after the last turn of a batch is a frame, if there is one.
-/
namespace Chip8.Console

variable {F : Type}

def Act.result (c : Console F) : Act F → Console F
  | step turn => turn.console
  | frame shown => ⟨c.machine, shown.frontend⟩

variable [Frontend F]

def Act.Occurs (c : Console F) : Act F → Prop
  | step turn => c.machine.status = .running ∧ c.machine.step c.frontend = .ok turn
  | frame shown => c.Shows shown

variable {c c' c'' start : Console F} {act act' : Act F} {acts before after : List (Act F)}

/-- Acts are carried out one after the other. -/
theorem acts_cons_iff :
    Acts c (act :: acts) c' ↔ act.Occurs c ∧ Acts (act.result c) acts c' := by
  constructor
  · intro h
    cases h with
    | step hstatus hstep hrest => exact ⟨⟨hstatus, hstep⟩, hrest⟩
    | frame hshows hrest => exact ⟨hshows, hrest⟩
  · rintro ⟨hoccurs, hrest⟩
    cases act with
    | step turn => exact .step hoccurs.1 hoccurs.2 hrest
    | frame shown => exact .frame hoccurs hrest

/-- An act leads from a sound machine to a sound one. -/
theorem Act.Occurs.sound (h : act.Occurs c) (hm : c.machine.Sound) :
    (act.result c).machine.Sound := by
  cases act with
  | step turn => exact (hm.step h.2).2.1
  | frame shown => exact hm

namespace Acts

theorem split (h : Acts c (before ++ after) c') :
    ∃ middle, Acts c before middle ∧ Acts middle after c' := by
  induction before generalizing c with
  | nil => exact ⟨c, .nil c, h⟩
  | cons act before ih =>
    rw [List.cons_append, acts_cons_iff] at h
    obtain ⟨middle, hbefore, hafter⟩ := ih h.2
    exact ⟨middle, acts_cons_iff.mpr ⟨h.1, hbefore⟩, hafter⟩

/-- Acts lead to one console only. -/
theorem unique (h : Acts c acts c') (h' : Acts c acts c'') : c' = c'' := by
  induction acts generalizing c with
  | nil =>
    cases h
    cases h'
    rfl
  | cons act acts ih => exact ih (acts_cons_iff.mp h).2 (acts_cons_iff.mp h').2

/-- What each of the acts keeps holds after them. -/
theorem keeps (h : Acts c acts c') {p : Console F → Prop}
    (hp : ∀ act ∈ acts, ∀ c, c.machine.Sound → act.Occurs c → p c → p (act.result c))
    (hm : c.machine.Sound) (hc : p c) : c'.machine.Sound ∧ p c' := by
  induction acts generalizing c with
  | nil =>
    cases h
    exact ⟨hm, hc⟩
  | cons act acts ih =>
    obtain ⟨hoccurs, hrest⟩ := acts_cons_iff.mp h
    obtain ⟨hact, hacts⟩ := List.forall_mem_cons.mp hp
    exact ih hrest hacts (hoccurs.sound hm) (hact c hm hoccurs hc)

end Acts

/-! ## Moments -/

/-- A moment in acts that begin at the console `c`: the acts before it lead to the console `start`,
the next act is `act`, and the others are still to come. -/
def Moment (c : Console F) (acts : List (Act F)) (start : Console F) (act : Act F)
    (after : List (Act F)) : Prop :=
  ∃ before, acts = before ++ act :: after ∧ Acts c before start

namespace Moment

/-- The next act occurs, and the rest of the acts comes after it. -/
theorem occurs (h : Moment c acts start act after) (hacts : Acts c acts c') :
    act.Occurs start ∧ Acts (act.result start) after c' := by
  obtain ⟨before, rfl, hstart⟩ := h
  obtain ⟨middle, hmiddle, hrest⟩ := hacts.split
  obtain rfl := hstart.unique hmiddle
  exact acts_cons_iff.mp hrest

/-- The act after that of a moment has its moment next. -/
theorem next (h : Moment c acts start act (act' :: after)) (hacts : Acts c acts c') :
    Moment c acts (act.result start) act' after := by
  have hoccurs := (h.occurs hacts).1
  obtain ⟨before, rfl, hstart⟩ := h
  refine ⟨before ++ [act], ?_, hstart.append (acts_cons_iff.mpr ⟨hoccurs, .nil _⟩)⟩
  rw [List.append_assoc, List.singleton_append]

/-- A moment is the first one, or it comes after another one. -/
theorem eq_or_previous (h : Moment c acts start act after) (hacts : Acts c acts c') :
    start = c ∨ ∃ start' previous, Moment c acts start' previous (act :: after) ∧
      previous.Occurs start' ∧ start = previous.result start' := by
  obtain ⟨before, rfl, hstart⟩ := h
  rcases before.eq_nil_or_concat with rfl | ⟨earlier, previous, rfl⟩
  · cases hstart
    exact .inl rfl
  · rw [List.concat_eq_append] at hstart hacts ⊢
    obtain ⟨start', hearlier, hprevious⟩ := hstart.split
    obtain ⟨hoccurs, hend⟩ := acts_cons_iff.mp hprevious
    cases hend
    refine .inr ⟨start', previous, ⟨earlier, ?_, hearlier⟩, hoccurs, rfl⟩
    rw [List.append_assoc, List.singleton_append]

end Moment

/-! ## Moments of a course -/

/-- What holds before an act holds after it too, unless the run ends with the act. -/
def Persists (p : Console F → Prop) : Prop :=
  ∀ (c : Console F) (act : Act F), c.machine.Sound → act.Occurs c → act.ending = none →
    p c → p (act.result c)

namespace Course

variable {n : Nat} {durations : List Float} {rounds : List (Round F)} {ending : Option Ending}

/-- A run does not end before the act of a moment, nor with it if another act comes after it. -/
theorem ending_eq_none (h : Course n c durations rounds c' ending)
    (hacts : rounds.flatMap Round.acts = before ++ act :: after) :
    (∀ earlier ∈ before, earlier.ending = none) ∧ (after ≠ [] → act.ending = none) := by
  obtain ⟨init, last, hlast, hinit, -⟩ := h.last_act
  rcases after.eq_nil_or_concat with rfl | ⟨middle, final, rfl⟩
  · obtain ⟨rfl, -⟩ := List.append_inj' (hlast.symm.trans hacts) rfl
    exact ⟨hinit, fun hnil => absurd rfl hnil⟩
  · rw [hlast, List.concat_eq_append, ← List.cons_append, ← List.append_assoc] at hacts
    obtain ⟨rfl, -⟩ := List.append_inj' hacts rfl
    exact ⟨fun earlier hmem => hinit earlier (List.mem_append_left _ hmem),
      fun _ => hinit act (List.mem_append_right _ (List.mem_cons_self ..))⟩

/-- What persists holds at every moment of a run, if it holds at the start. -/
theorem persists (h : Course n c durations rounds c' ending) {p : Console F → Prop}
    (hp : Persists p) (hm : c.machine.Sound) (hc : p c)
    (hmoment : Moment c (rounds.flatMap Round.acts) start act after) :
    start.machine.Sound ∧ p start := by
  obtain ⟨before, hacts, hstart⟩ := hmoment
  have hgoesOn := (h.ending_eq_none hacts).1
  exact hstart.keeps (fun act hact c hm hoccurs => hp c act hm hoccurs (hgoesOn act hact)) hm hc

theorem sound_at (h : Course n c durations rounds c' ending) (hm : c.machine.Sound)
    (hmoment : Moment c (rounds.flatMap Round.acts) start act after) : start.machine.Sound :=
  (h.persists (p := fun _ => True) (fun _ _ _ _ _ => id) hm trivial hmoment).1

/-- A run that ends with an act ends as that act tells it to. -/
theorem ending_of_last (h : Course n c durations rounds c' ending)
    (hacts : rounds.flatMap Round.acts = before ++ [act]) :
    ending = act.ending ∨ act.ending = none ∧ ending = some .overslept := by
  obtain ⟨init, last, hlast, -, hend⟩ := h.last_act
  obtain ⟨-, hact⟩ := List.append_inj' (hlast.symm.trans hacts) rfl
  rw [← List.cons.inj hact |>.1]
  exact hend

/-- The moment of the last act of a run. -/
theorem last_moment (h : Course n c durations rounds c' ending) :
    ∃ start last, Moment c (rounds.flatMap Round.acts) start last [] ∧ last.Occurs start ∧
      c' = last.result start ∧
      (ending = last.ending ∨ last.ending = none ∧ ending = some .overslept) := by
  obtain ⟨init, last, hacts, -, hending⟩ := h.last_act
  obtain ⟨start, hinit, hlast⟩ := Acts.split (hacts ▸ h.acts)
  obtain ⟨hoccurs, hend⟩ := acts_cons_iff.mp hlast
  cases hend
  exact ⟨start, last, ⟨init, hacts, hinit⟩, hoccurs, rfl, hending⟩

/-- A run goes on after an act that another one comes after. -/
theorem goesOn_after (h : Course n c durations rounds c' ending)
    (hmoment : Moment c (rounds.flatMap Round.acts) start act after) (hafter : after ≠ []) :
    act.ending = none := by
  obtain ⟨before, hacts, -⟩ := hmoment
  exact (h.ending_eq_none hacts).2 hafter

/-- A run ends with the act that ends it. -/
theorem ends_of_ending (h : Course n c durations rounds c' ending)
    (hmoment : Moment c (rounds.flatMap Round.acts) start act after) (hact : act.ending ≠ none) :
    after = [] ∧ ending = act.ending := by
  obtain rfl : after = [] := by_contra fun hmore => hact (h.goesOn_after hmoment hmore)
  obtain ⟨before, hacts, -⟩ := hmoment
  obtain hending | ⟨hgoesOn, -⟩ := h.ending_of_last hacts
  · exact ⟨rfl, hending⟩
  · exact absurd hgoesOn hact

end Course

/-! ## Turns of a batch -/

/-- A turn of one of the rounds, the console that it starts from, and the turns after it in its
batch. -/
def InBatch (c : Console F) (rounds : List (Round F)) (start : Console F) (turn : Turn F)
    (rest : List (Turn F)) : Prop :=
  ∃ earlier round later turns, rounds = earlier ++ round :: later ∧
    round.turns = turns ++ turn :: rest ∧
    Acts c (earlier.flatMap Round.acts ++ turns.map .step) start

section Locate

variable {turn : Turn F}

omit [Frontend F] in
/-- A step among the acts of a round is one of its turns. -/
theorem exists_turns_of_step {round : Round F} (h : round.acts = before ++ .step turn :: after) :
    ∃ turns rest, round.turns = turns ++ turn :: rest ∧ before = turns.map .step ∧
      after = rest.map .step ++ round.frame.toList.map .frame := by
  have hframe : Act.step turn ∉ round.frame.toList.map Act.frame := by simp
  rw [Round.acts] at h
  obtain ⟨more, rfl, hmore⟩ | ⟨more, hturns, hmore⟩ := List.append_eq_append_iff.mp h
  · exact absurd (hmore ▸ List.mem_append_right _ (List.mem_cons_self ..)) hframe
  · rcases more with _ | ⟨act, more⟩
    · rw [List.nil_append] at hmore
      exact absurd (hmore ▸ List.mem_cons_self ..) hframe
    · obtain ⟨rfl, rfl⟩ := List.cons.inj hmore
      obtain ⟨turns, last, hsplit, rfl, hlast⟩ := List.map_eq_append_iff.mp hturns
      obtain ⟨turn', rest, rfl, hstep, rfl⟩ := List.map_eq_cons_iff.mp hlast
      cases hstep
      exact ⟨turns, rest, hsplit, rfl, rfl⟩

omit [Frontend F] in
/-- A step among the acts of some rounds is a turn of one of them. -/
theorem exists_round_of_step {rounds : List (Round F)}
    (h : rounds.flatMap Round.acts = before ++ .step turn :: after) :
    ∃ earlier round later turns rest, rounds = earlier ++ round :: later ∧
      round.turns = turns ++ turn :: rest ∧
      before = earlier.flatMap Round.acts ++ turns.map .step ∧
      after = rest.map .step ++ round.frame.toList.map .frame ++ later.flatMap Round.acts := by
  induction rounds generalizing before with
  | nil => cases before <;> cases h
  | cons round rounds ih =>
    rw [List.flatMap_cons] at h
    -- the step is one of the round that comes first, or comes after the whole round
    obtain ⟨more, rfl, hmore⟩ | ⟨more, hround, hmore⟩ := List.append_eq_append_iff.mp h
    · obtain ⟨earlier, round', later, turns, rest, rfl, hturns, rfl, hafter⟩ := ih hmore
      refine ⟨round :: earlier, round', later, turns, rest, rfl, hturns, ?_, hafter⟩
      rw [List.flatMap_cons, List.append_assoc]
    · rcases more with _ | ⟨act, more⟩
      · have hlater : rounds.flatMap Round.acts = [] ++ .step turn :: after := hmore.symm
        obtain ⟨earlier, round', later, turns, rest, rfl, hturns, hbefore, hafter⟩ := ih hlater
        refine ⟨round :: earlier, round', later, turns, rest, rfl, hturns, ?_, hafter⟩
        rw [List.append_nil] at hround
        rw [List.flatMap_cons, List.append_assoc, ← hbefore, List.append_nil, hround]
      · obtain ⟨rfl, rfl⟩ := List.cons.inj hmore
        obtain ⟨turns, rest, hturns, rfl, rfl⟩ := exists_turns_of_step hround
        exact ⟨[], round, rounds, turns, rest, rfl, hturns, rfl, rfl⟩

end Locate

namespace InBatch

variable {rounds : List (Round F)} {turn : Turn F} {rest : List (Turn F)}

/-- A turn of a batch is an act of the run. -/
theorem moment (h : InBatch c rounds start turn rest) :
    ∃ after, Moment c (rounds.flatMap Round.acts) start (.step turn) after := by
  obtain ⟨earlier, round, later, turns, rfl, hturns, hstart⟩ := h
  refine ⟨rest.map .step ++ round.frame.toList.map .frame ++ later.flatMap Round.acts, _, ?_,
    hstart⟩
  simp only [List.flatMap_append, List.flatMap_cons, Round.acts, hturns, List.map_append,
    List.map_cons, List.append_assoc, List.cons_append]

end InBatch

namespace Course

variable {n : Nat} {durations : List Float} {rounds : List (Round F)} {ending : Option Ending}
  {turn : Turn F}

/-- Only the last turn of a batch ends it. -/
theorem rest_eq_nil (h : Course n c durations rounds c' ending) {round : Round F}
    (hround : round ∈ rounds) {turns rest : List (Turn F)}
    (hturns : round.turns = turns ++ turn :: rest) (hends : turn.endsBatch = true) :
    rest = [] := by
  obtain ⟨⟨start, hbatch⟩, -⟩ := h.batch round hround
  rcases rest.eq_nil_or_concat with rfl | ⟨middle, last, rfl⟩
  · rfl
  · rw [Round.turns, List.concat_eq_append, ← List.cons_append, ← List.append_assoc] at hturns
    obtain ⟨hbefore, -⟩ := List.append_inj' hturns rfl
    have hmem : turn ∈ round.before :=
      hbefore ▸ List.mem_append_right _ (List.mem_cons_self ..)
    rw [hbatch.goesOn turn hmem] at hends
    cases hends

/-- After a turn that ends its batch comes a frame, or nothing: then the run ends as the turn tells
it to, or breaks off. -/
theorem after_batch (h : Course n c durations rounds c' ending)
    (hmoment : Moment c (rounds.flatMap Round.acts) start (.step turn) after)
    (hends : turn.endsBatch = true) :
    (∃ shown later, after = .frame shown :: later) ∨
      after = [] ∧ (ending = turn.ending ∨ turn.ending = none ∧ ending = some .overslept) := by
  obtain ⟨before, hacts, -⟩ := hmoment
  obtain ⟨earlier, round, later, turns, rest, hrounds, hturns, -, hafter⟩ :=
    exists_round_of_step hacts
  have hround : round ∈ rounds := hrounds ▸ List.mem_append_right _ (List.mem_cons_self ..)
  obtain rfl := h.rest_eq_nil hround hturns hends
  cases hframe : round.frame with
  | some shown =>
    rw [hframe] at hafter
    exact .inl ⟨shown, later.flatMap Round.acts, hafter⟩
  | none =>
    -- a round without a frame is the last one
    obtain ⟨others, final, hfinal, hothers, -⟩ := h.framed
    have hlater : later = [] := by
      rcases later.eq_nil_or_concat with rfl | ⟨middle, last, rfl⟩
      · rfl
      · rw [hfinal, List.concat_eq_append, ← List.cons_append, ← List.append_assoc] at hrounds
        obtain ⟨rfl, -⟩ := List.append_inj' hrounds rfl
        exact absurd hframe (hothers round (List.mem_append_right _ (List.mem_cons_self ..)))
    have hnil : after = [] := by rw [hafter, hframe, hlater]; rfl
    subst hnil
    exact .inr ⟨rfl, h.ending_of_last hacts⟩

end Course

end Chip8.Console
