import Chip8.Proofs.Countdown
import Chip8.Proofs.Doubles

/-!
# Portions of time that come to an end

The timers take ticks from their seconds until less than a tick is left. A difference of doubles can
be the number it was taken from, and then there is no end to it. That needs a large number: seconds
below `2 ^ 26` become fewer with every tick, and more than `tickLimit` ticks are not in them. So
timers that have caught up once catch up with every portion of less than a year.
-/
namespace Chip8

open Float.Model (Format UnpackedFloat)
open Float.Model.UnpackedFloat
open Doubles

/-! ## Seconds as numbers -/

namespace Seconds

variable {a b : Float} {p q : Rat}

theorem le_iff : a ≤ b ↔ a.toModel.unpack.le b.toModel.unpack = true := by
  change decide _ = true ↔ _
  rw [decide_eq_true_iff]
  rfl

theorem regular_float (a : Float) : Regular a.toModel.unpack :=
  regular_unpack _

theorem unpack_add : (a + b).toModel.unpack =
    unpack .binary64 (pack .binary64 (add .binary64 a.toModel.unpack b.toModel.unpack)) := rfl

theorem unpack_sub : (a - b).toModel.unpack =
    unpack .binary64 (pack .binary64 (sub .binary64 a.toModel.unpack b.toModel.unpack)) := rfl

theorem unpack_secondsPerTick :
    secondsPerTick.toModel.unpack = .finite .positive 4803839602528529 (-58) (by decide) := rfl

def tickNumber : Rat := number 4803839602528529 (-58)

theorem canonical_tick : Canonical 4803839602528529 (-58) :=
  ⟨by decide, by decide, by decide, .inr (by decide)⟩

/-- Seconds of which a tick can be taken become fewer by a sixty-fourth at least. -/
theorem atMost_sub_tick (h : AtMost q a.toModel.unpack) (hq : q ≤ 2 ^ 26)
    (hdue : a ≥ secondsPerTick) :
    tickNumber ≤ q ∧ AtMost (q - 1 / 64) (a - secondsPerTick).toModel.unpack := by
  have hle := le_iff.mp hdue
  rw [unpack_secondsPerTick] at hle
  obtain ⟨m, e, hm, ha, hlow, hhigh⟩ := exists_number_of_le canonical_tick (regular_float a) h hle
  have htick : (1 / 64 + 2 ^ (-26 : Int) : Rat) ≤ tickNumber := by
    rw [tickNumber, number]
    norm_num
  refine ⟨hlow.trans hhigh, ?_⟩
  rw [unpack_sub, ha, unpack_secondsPerTick]
  refine (atMost_sub (q := q - tickNumber) hm _ (sub_le_sub_right hhigh _) ?_).mono ?_
  · have hpos : 0 ≤ tickNumber := number_nonneg ..
    linarith
  · linarith

end Seconds

/-! ## Portions of time -/

namespace Timers

open Seconds

/-- As long as a tick is due, the seconds become fewer with every tick. -/
theorem atMost_left {seconds : Float} {q : Rat} (h : AtMost q seconds.toModel.unpack)
    (hq : q ≤ 2 ^ 26) (n : Nat)
    (hdue : ∀ k < n, Rounding.nearest.left seconds k ≥ secondsPerTick) :
    AtMost (q - n / 64) (Rounding.nearest.left seconds n).toModel.unpack := by
  induction n with
  | zero => exact h.mono (by norm_num)
  | succ n ih =>
    have hn : (0 : Rat) ≤ n / 64 := by positivity
    have hleft : Rounding.nearest.left seconds (n + 1) =
        Rounding.nearest.left seconds n - secondsPerTick := Function.iterate_succ_apply' ..
    rw [hleft]
    obtain ⟨-, hnext⟩ := atMost_sub_tick (ih fun k hk => hdue k (by omega)) (by linarith)
      (hdue n (by omega))
    refine hnext.mono ?_
    push_cast
    linarith

/-- Timers with less than a tick left over catch up with every portion of time of less than a
year. -/
theorem isSome_advance {t : Timers} {seconds : Float} (hsettled : ¬ t.elapsed ≥ secondsPerTick)
    (hshort : ¬ seconds ≥ 33554432.0) : (t.advance seconds).isSome := by
  have hyear : (33554432.0 : Float).toModel.unpack =
      .finite .positive (2 ^ 52) (-27) (by decide) := rfl
  have hleft : AtMost 1 t.elapsed.toModel.unpack := by
    rw [ge_iff_le, le_iff, unpack_secondsPerTick] at hsettled
    refine (atMost_of_not_le (by decide) (regular_float _) hsettled).mono ?_
    rw [number]
    norm_num
  have hportion : AtMost (2 ^ 25) seconds.toModel.unpack := by
    rw [ge_iff_le, le_iff, hyear] at hshort
    refine (atMost_of_not_le (by decide) (regular_float _) hshort).mono ?_
    rw [number]
    norm_num
  have hsum : AtMost (2 ^ 25 + 2) (t.elapsed + seconds).toModel.unpack := by
    rw [unpack_add]
    refine (atMost_add hleft hportion (by norm_num) (by norm_num) (by norm_num)
      (regular_float _) (regular_float _)).mono ?_
    norm_num
  rw [← advanceBy_nearest, isSome_advanceBy_iff]
  by_contra hnone
  have hdue (k : Nat) (hk : k < tickLimit) :
      Rounding.nearest.left (t.elapsed + seconds) k ≥ secondsPerTick :=
    by_contra fun hrest => hnone ⟨k, hk, hrest⟩
  -- after so many ticks fewer than no seconds would be left
  have hlast := atMost_left hsum (by norm_num) 0xffffffff fun k hk =>
    hdue k (by rw [tickLimit]; omega)
  obtain ⟨htick, -⟩ := atMost_sub_tick hlast (by norm_num) (hdue _ (by decide))
  rw [tickNumber, number] at htick
  norm_num at htick

/-- Timers that cannot catch up had a whole tick left over before, or the portion is a year and
more. -/
theorem overdue_of_advance {t : Timers} {seconds : Float} (h : t.advance seconds = none) :
    t.elapsed ≥ secondsPerTick ∨ seconds ≥ 33554432.0 := by
  by_contra hfew
  obtain ⟨hsettled, hshort⟩ := not_or.mp hfew
  have hsome := isSome_advance hsettled hshort
  rw [h] at hsome
  cases hsome

/-- Once timers have caught up, less than a tick is left over. -/
theorem settled_of_advance {t u : Timers} {seconds : Float} {ticks : Nat}
    (h : t.advance seconds = some (ticks, u)) : ¬ u.elapsed ≥ secondsPerTick := by
  rw [← advanceBy_nearest] at h
  exact (advanceBy_eq_some_iff.mp h).rest

end Timers
end Chip8
