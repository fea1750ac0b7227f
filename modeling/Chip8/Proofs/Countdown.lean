import Chip8.Timers
import Mathlib.Algebra.GroupWithZero.Nat
import Mathlib.Logic.Function.Iterate

/-!
# Counting down

A portion of time moves both timers on by the same number of ticks. How many there are depends on
how seconds are added and subtracted, and floating-point numbers round; what the ticks do to the
timers does not depend on it. So nothing is asked here of sums and differences: a `Rounding` is any
two operations, of which `Rounding.nearest` are the timers' own. Whatever happens to the timers, and
in whatever order, each of them shows the value it was last given less the ticks since then, cut off
at zero.
-/
namespace Chip8

/-- How seconds are added and subtracted. Nothing is asked of the results. -/
structure Rounding where
  sum : Float → Float → Float
  difference : Float → Float → Float

namespace Rounding

/-- Sums and differences of floating-point numbers, rounded to the nearest one. -/
def nearest : Rounding where
  sum a b := a + b
  difference a b := a - b

/-- The seconds that are left after `n` ticks were subtracted one after the other. -/
def left (r : Rounding) (seconds : Float) (n : Nat) : Float :=
  (fun s => r.difference s secondsPerTick)^[n] seconds

/-- After `n` ticks, and not before, less than another tick is left, or no number at all. -/
structure SettlesAt (r : Rounding) (seconds : Float) (n : Nat) : Prop where
  due : ∀ k < n, r.left seconds k ≥ secondsPerTick
  rest : ¬ r.left seconds n ≥ secondsPerTick

variable {r : Rounding} {seconds : Float} {m n : Nat}

theorem settlesAt_zero : r.SettlesAt seconds 0 ↔ ¬ seconds ≥ secondsPerTick :=
  ⟨fun h => h.rest, fun h => ⟨by simp, h⟩⟩

theorem settlesAt_succ : r.SettlesAt seconds (n + 1) ↔
    seconds ≥ secondsPerTick ∧ r.SettlesAt (r.difference seconds secondsPerTick) n := by
  constructor
  · intro h
    exact ⟨h.due 0 (by omega), fun k hk => h.due (k + 1) (by omega), h.rest⟩
  · rintro ⟨hfirst, h⟩
    refine ⟨fun k hk => ?_, h.rest⟩
    cases k with
    | zero => exact hfirst
    | succ k => exact h.due k (by omega)

/-- Seconds settle only once. -/
theorem SettlesAt.unique (hm : r.SettlesAt seconds m) (hn : r.SettlesAt seconds n) : m = n := by
  obtain h | h | h := Nat.lt_trichotomy m n
  · exact absurd (hn.due m h) hm.rest
  · exact h
  · exact absurd (hm.due n h) hn.rest

end Rounding

inductive Timer where
  | delay
  | sound
deriving DecidableEq, Repr

namespace Timers

variable {r : Rounding} {t u start now : Timers} {seconds : Float} {n ticks : Nat} {timer : Timer}

def value (t : Timers) : Timer → Byte
  | .delay => t.delay
  | .sound => t.sound

def assign (t : Timers) : Timer → Byte → Timers
  | .delay, b => { t with delay := b }
  | .sound, b => { t with sound := b }

theorem ext_value (hvalue : ∀ timer, t.value timer = u.value timer)
    (helapsed : t.elapsed = u.elapsed) : t = u := by
  cases t
  cases u
  rw [Timers.mk.injEq]
  exact ⟨hvalue .delay, hvalue .sound, helapsed⟩

@[simp] theorem value_tick (t : Timers) (timer : Timer) :
    t.tick.value timer = countDown (t.value timer) := by
  cases timer <;> rfl

@[simp] theorem value_reset (t : Timers) (timer : Timer) : t.reset.value timer = 0 := by
  cases timer <;> rfl

theorem value_assign (t : Timers) (target timer : Timer) (b : Byte) :
    (t.assign target b).value timer = if target = timer then b else t.value timer := by
  cases target <;> cases timer <;> rfl

theorem toNat_iterate_countDown (n : Nat) (b : Byte) : (countDown^[n] b).toNat = b.toNat - n := by
  induction n with
  | zero => rfl
  | succ n ih =>
    rw [Function.iterate_succ_apply', toNat_countDown, ih]
    omega

/-! ## A portion of time -/

/-- Tick while a whole tick has elapsed, as `settle` does, with any rounding. -/
def settleBy (r : Rounding) : (fuel ticks : Nat) → Timers → Option (Nat × Timers)
  | 0, _, _ => none
  | fuel + 1, ticks, t =>
    if t.elapsed ≥ secondsPerTick then
      settleBy r fuel (ticks + 1)
        { t.tick with elapsed := r.difference t.elapsed secondsPerTick }
    else
      some (ticks, t)

/-- Let some seconds pass, as `advance` does, with any rounding. -/
def advanceBy (r : Rounding) (t : Timers) (seconds : Float) : Option (Nat × Timers) :=
  settleBy r tickLimit 0 { t with elapsed := r.sum t.elapsed seconds }

theorem settleBy_nearest (fuel ticks : Nat) (t : Timers) :
    settleBy .nearest fuel ticks t = settle fuel ticks t := by
  induction fuel generalizing ticks t with
  | zero => rfl
  | succ fuel ih =>
    rw [settleBy, settle]
    split
    · exact ih ..
    · rfl

/-- The timers' own arithmetic is one of the roundings. -/
theorem advanceBy_nearest (t : Timers) (seconds : Float) :
    t.advanceBy .nearest seconds = t.advance seconds :=
  settleBy_nearest ..

/-- The timers after `n` ticks, each of which was also taken from the seconds. -/
def lapsed (r : Rounding) (t : Timers) (n : Nat) : Timers where
  delay := countDown^[n] t.delay
  sound := countDown^[n] t.sound
  elapsed := r.left t.elapsed n

theorem toNat_value_lapsed (r : Rounding) (t : Timers) (n : Nat) (timer : Timer) :
    ((t.lapsed r n).value timer).toNat = (t.value timer).toNat - n := by
  cases timer <;> exact toNat_iterate_countDown n _

/-- Either the seconds settle before the fuel is used up, and as many ticks pass, or a tick is due
at each of the first readings and there is no answer. -/
theorem settleBy_cases (r : Rounding) (fuel ticks : Nat) (t : Timers) :
    (∃ n < fuel, r.SettlesAt t.elapsed n ∧
        settleBy r fuel ticks t = some (ticks + n, t.lapsed r n)) ∨
      (∀ n < fuel, r.left t.elapsed n ≥ secondsPerTick) ∧ settleBy r fuel ticks t = none := by
  induction fuel generalizing ticks t with
  | zero => exact .inr ⟨by simp, rfl⟩
  | succ fuel ih =>
    rw [settleBy]
    by_cases hdue : t.elapsed ≥ secondsPerTick
    · rw [if_pos hdue]
      obtain ⟨n, hn, hsettles, heq⟩ | ⟨hall, heq⟩ :=
        ih (ticks + 1) { t.tick with elapsed := r.difference t.elapsed secondsPerTick }
      · -- what the first tick leaves settles one tick earlier
        refine .inl ⟨n + 1, by omega, Rounding.settlesAt_succ.mpr ⟨hdue, hsettles⟩, ?_⟩
        rw [heq, Nat.add_right_comm]
        rfl
      · refine .inr ⟨fun n hn => ?_, heq⟩
        cases n with
        | zero => exact hdue
        | succ n => exact hall n (by omega)
    · rw [if_neg hdue]
      exact .inl ⟨0, by omega, Rounding.settlesAt_zero.mpr hdue, rfl⟩

/-- The timers `u` are `t` after some seconds that brought `n` ticks. -/
structure Lapses (r : Rounding) (t : Timers) (seconds : Float) (n : Nat) (u : Timers) : Prop where
  few : n < tickLimit
  due : ∀ k < n, r.left (r.sum t.elapsed seconds) k ≥ secondsPerTick
  elapsed : u.elapsed = r.left (r.sum t.elapsed seconds) n
  rest : ¬ u.elapsed ≥ secondsPerTick
  value : ∀ timer, (u.value timer).toNat = (t.value timer).toNat - n

theorem Lapses.settlesAt (h : Lapses r t seconds n u) :
    r.SettlesAt (r.sum t.elapsed seconds) n :=
  ⟨h.due, h.elapsed ▸ h.rest⟩

theorem Lapses.unique {m : Nat} {v : Timers} (hu : Lapses r t seconds m u)
    (hv : Lapses r t seconds n v) : m = n ∧ u = v := by
  have hcount : m = n := hu.settlesAt.unique hv.settlesAt
  subst hcount
  refine ⟨rfl, ext_value (fun timer => ?_) (hu.elapsed.trans hv.elapsed.symm)⟩
  exact UInt8.toNat_inj.mp ((hu.value timer).trans (hv.value timer).symm)

/-- Either the seconds that have come together settle in fewer ticks than the limit, or there is no
answer. -/
theorem advanceBy_cases (r : Rounding) (t : Timers) (seconds : Float) :
    (∃ n u, t.advanceBy r seconds = some (n, u) ∧ Lapses r t seconds n u) ∨
      (∀ n < tickLimit, r.left (r.sum t.elapsed seconds) n ≥ secondsPerTick) ∧
        t.advanceBy r seconds = none := by
  obtain ⟨n, hn, hsettles, heq⟩ | hnone :=
    settleBy_cases r tickLimit 0 { t with elapsed := r.sum t.elapsed seconds }
  · rw [Nat.zero_add] at heq
    refine .inl ⟨n, _, heq, hn, hsettles.due, rfl, hsettles.rest, fun timer => ?_⟩
    rw [toNat_value_lapsed]
    cases timer <;> rfl
  · exact .inr hnone

theorem advanceBy_eq_some_iff :
    t.advanceBy r seconds = some (n, u) ↔ Lapses r t seconds n u := by
  obtain ⟨m, v, heq, hlapses⟩ | ⟨hall, heq⟩ := t.advanceBy_cases r seconds
  · rw [heq]
    constructor
    · intro h
      cases h
      exact hlapses
    · intro h
      obtain ⟨rfl, rfl⟩ := hlapses.unique h
      rfl
  · rw [heq]
    constructor
    · intro h
      cases h
    · intro h
      exact absurd (hall n h.few) h.settlesAt.rest

/-- There is an answer exactly if one of the first readings leaves less than a tick. -/
theorem isSome_advanceBy_iff : (t.advanceBy r seconds).isSome ↔
    ∃ n < tickLimit, ¬ r.left (r.sum t.elapsed seconds) n ≥ secondsPerTick := by
  obtain ⟨n, u, heq, hlapses⟩ | ⟨hall, heq⟩ := t.advanceBy_cases r seconds
  · simp only [heq, Option.isSome_some, true_iff]
    exact ⟨n, hlapses.few, hlapses.settlesAt.rest⟩
  · simp only [heq, Option.isSome_none, Bool.false_eq_true, false_iff]
    rintro ⟨n, hn, hrest⟩
    exact hrest (hall n hn)

/-! ## Whatever happens to the timers -/

inductive Deed where
  | advance (seconds : Float)
  | tick
  | reset
  | assign (target : Timer) (value : Byte)

namespace Deed

/-- The ticks that a deed brings, and the timers after it. -/
def perform (r : Rounding) (t : Timers) : Deed → Option (Nat × Timers)
  | advance seconds => t.advanceBy r seconds
  | tick => some (1, t.tick)
  | reset => some (0, t.reset)
  | assign target value => some (0, t.assign target value)

/-- The value that a deed gives to a timer. -/
def given? (timer : Timer) : Deed → Option Byte
  | reset => some 0
  | assign target value => if target = timer then some value else none
  | advance _ | tick => none

/-- A deed gives a timer its value, or the timer shows less by the ticks that the deed brought. -/
theorem value_of_perform {deed : Deed} (h : deed.perform r t = some (ticks, u)) (timer : Timer) :
    (∃ b, deed.given? timer = some b ∧ u.value timer = b) ∨
      deed.given? timer = none ∧ (u.value timer).toNat = (t.value timer).toNat - ticks := by
  cases deed with
  | advance seconds => exact .inr ⟨rfl, (advanceBy_eq_some_iff.mp h).value timer⟩
  | tick =>
    cases h
    exact .inr ⟨rfl, by rw [value_tick, toNat_countDown]⟩
  | reset =>
    cases h
    exact .inl ⟨0, rfl, t.value_reset timer⟩
  | assign target b =>
    cases h
    rw [value_assign, given?]
    by_cases htarget : target = timer
    · exact .inl ⟨b, by simp [htarget]⟩
    · exact .inr (by simp [htarget])

end Deed

/-- Something that has happened to the timers, with the ticks that it brought. -/
structure Entry where
  deed : Deed
  ticks : Nat

/-- The entries of the log lead from the timers `start` to others; the newest stands first. -/
inductive Passed (r : Rounding) (start : Timers) : List Entry → Timers → Prop where
  | start : Passed r start [] start
  | next {earlier : List Entry} {t u : Timers} {deed : Deed} {ticks : Nat} :
    Passed r start earlier t → deed.perform r t = some (ticks, u) →
      Passed r start (⟨deed, ticks⟩ :: earlier) u

/-- The value that a timer was last given, or that it had at the start. -/
def lastGiven (start : Timers) (timer : Timer) (log : List Entry) : Byte :=
  (log.findSome? fun entry => entry.deed.given? timer).getD (start.value timer)

/-- The ticks since a timer was last given a value, or since the start. -/
def ticksSince (timer : Timer) (log : List Entry) : Nat :=
  ((log.takeWhile fun entry => (entry.deed.given? timer).isNone).map Entry.ticks).sum

/-- A timer shows what it was last given, less the ticks since then. -/
theorem Passed.value {log : List Entry} (h : Passed r start log now) (timer : Timer) :
    (now.value timer).toNat = (lastGiven start timer log).toNat - ticksSince timer log := by
  induction h with
  | start => rfl
  | next _ hperform ih =>
    rw [lastGiven, ticksSince, List.findSome?_cons, List.takeWhile_cons]
    -- the newest entry starts the count anew, or its ticks are added to those of the others
    obtain ⟨b, hgiven, hvalue⟩ | ⟨hgiven, hvalue⟩ := Deed.value_of_perform hperform timer
    · simp [hgiven, hvalue]
    · rw [lastGiven, ticksSince] at ih
      simp only [hgiven, Option.isNone_none, if_true, List.map_cons, List.sum_cons]
      omega

/-- However seconds are rounded, timers that are moved on by some seconds count down by the number
of ticks that is the answer, each down to zero at most, and of the seconds as many ticks are taken,
until no whole tick is left; there is an answer if this happens soon enough. So each timer always
shows the value it was last given less all ticks since then. -/
theorem counts_in_step (r : Rounding) :
    (∀ t seconds, advanceBy .nearest t seconds = advance t seconds) ∧
      (∀ t seconds n u, advanceBy r t seconds = some (n, u) ↔ Lapses r t seconds n u) ∧
      (∀ t seconds, (advanceBy r t seconds).isSome ↔
        ∃ n < tickLimit, ¬ r.left (r.sum t.elapsed seconds) n ≥ secondsPerTick) ∧
      ∀ start log now, Passed r start log now → ∀ timer,
        (now.value timer).toNat = (lastGiven start timer log).toNat - ticksSince timer log :=
  ⟨advanceBy_nearest, fun _ _ _ _ => advanceBy_eq_some_iff, fun _ _ => isSome_advanceBy_iff,
    fun _ _ _ h => h.value⟩

/-- Two portions that are shorter than a tick bring one together. The sound timer, which was given a
value in between, stops at zero while the delay timer goes on. -/
theorem short_portions_add_up : ∃ now,
    Passed .nearest { delay := 9, sound := 9 }
      [⟨.advance 0.04, 2⟩, ⟨.tick, 1⟩, ⟨.assign .sound 1, 0⟩, ⟨.advance 0.01, 1⟩,
        ⟨.advance 0.01, 0⟩] now ∧
      now.delay.toNat = 9 - 4 ∧ now.sound.toNat = 1 - 3 := by
  obtain ⟨now, hpassed⟩ : ∃ now, Passed .nearest { delay := 9, sound := 9 }
      [⟨.advance 0.04, 2⟩, ⟨.tick, 1⟩, ⟨.assign .sound 1, 0⟩, ⟨.advance 0.01, 1⟩,
        ⟨.advance 0.01, 0⟩] now :=
    ⟨_, .next (.next (.next (.next (.next .start rfl) rfl) rfl) rfl) rfl⟩
  obtain ⟨-, -, -, hshown⟩ := counts_in_step .nearest
  have hvalue := hshown _ _ _ hpassed
  exact ⟨now, hpassed, hvalue .delay, hvalue .sound⟩

end Timers
end Chip8
