import Mathlib

/-!
# Doubles and their rounding

A double is a mantissa and an exponent, or it is no number. Sums and differences are rounded to the
nearest double. Here it is enough to know that a positive result is too large by less than one unit
in its last place, and that below `2 ^ 26` such a unit is no more than `2 ^ -26`.
-/
namespace Chip8.Doubles

open Float.Model (Format UnpackedFloat totalExponent)
open Float.Model.UnpackedFloat

/-- The mantissa and the exponent of a double. -/
structure Canonical (m : Nat) (e : Int) : Prop where
  lt : m < 2 ^ 53
  exponent_le : e ≤ 971
  le_exponent : -1074 ≤ e
  full : e = -1074 ∨ 2 ^ 52 ≤ m

/-- The number that a positive double stands for. -/
def number (m : Nat) (e : Int) : Rat :=
  m * 2 ^ e

variable {m : Nat} {e : Int}

/-! ## Rounding -/

/-- The exponent that a number gets when it is rounded. -/
def lastPlace (m : Nat) (e : Int) : Int :=
  max (m.log2 + e - 52) (-1074)

theorem targetExponent_eq (m : Nat) (e : Int) :
    Format.binary64.targetExponent (totalExponent m e) = lastPlace m e := by
  rw [Format.targetExponent, totalExponent, lastPlace]
  have hbits : (Format.binary64.mantissaBits : Int) = 53 := rfl
  have hmin : Format.binary64.minExponent = -1074 := rfl
  rw [hbits, hmin]
  omega

theorem mantissa_shiftRight (em : ExtendedMantissa) (n : Nat) :
    (em >>> n).mantissa = em.mantissa / 2 ^ n := by
  induction n with
  | zero => exact (Nat.div_one _).symm
  | succ n ih =>
    have hstep : (em >>> (n + 1)).mantissa = (em >>> n).mantissa / 2 := rfl
    rw [hstep, ih, Nat.div_div_eq_div_mul, Nat.pow_succ]

theorem roundedMantissa_bounds (em : ExtendedMantissa) :
    em.mantissa ≤ em.roundedMantissa ∧ em.roundedMantissa ≤ em.mantissa + 1 := by
  rcases em with ⟨m, _ | _, _ | _⟩ <;>
    simp only [ExtendedMantissa.roundedMantissa, ExtendedMantissa.accuracy,
      Accuracy.roundToNearestEven] <;> omega

/-- A mantissa that fits needs no shift. -/
theorem shift_of_lt (hm : m < 2 ^ 53) (he : -1074 ≤ e) :
    shiftToTargetExponent .binary64 m e .exact = (⟨m, false, false⟩, e) := by
  have hlog : m.log2 ≤ 52 := by
    obtain rfl | hpos := Nat.eq_zero_or_pos m
    · decide
    · exact Nat.le_of_lt_succ ((Nat.log2_lt hpos.ne').mpr hm)
  have hnone : (Format.binary64.targetExponent (totalExponent m e) - e).toNat = 0 := by
    rw [targetExponent_eq, lastPlace]
    omega
  rw [shiftToTargetExponent, shiftToExponent, hnone]
  exact Prod.ext rfl (Int.add_zero e)

theorem shift_of_eq (he : -1074 ≤ e) :
    shiftToTargetExponent .binary64 (2 ^ 53) e .exact = (⟨2 ^ 52, false, false⟩, e + 1) := by
  have hone : (Format.binary64.targetExponent (totalExponent (2 ^ 53) e) - e).toNat = 1 := by
    rw [targetExponent_eq, lastPlace, Nat.log2_two_pow]
    omega
  rw [shiftToTargetExponent, shiftToExponent, hone]
  rfl

theorem log2_shiftLeft (hm : 0 < m) (n : Nat) : (m <<< n).log2 = m.log2 + n := by
  rw [Nat.shiftLeft_eq, Nat.log2_eq_iff (by positivity)]
  have hlow := Nat.log2_self_le hm.ne'
  have hhigh : m < 2 ^ (m.log2 + 1) := Nat.lt_log2_self
  constructor
  · rw [Nat.pow_add]
    exact Nat.mul_le_mul_right _ hlow
  · rw [Nat.add_right_comm, Nat.pow_add]
    exact Nat.mul_lt_mul_of_pos_right hhigh (by positivity)

theorem number_shiftLeft (m n : Nat) (e : Int) : number (m <<< n) (e - n) = number m e := by
  rw [number, number, Nat.shiftLeft_eq, Nat.cast_mul, Nat.cast_pow, Nat.cast_ofNat,
    zpow_sub₀ two_ne_zero, zpow_natCast]
  field_simp

/-- The first shift leaves at most as many digits as a double has, and the last digit may be one too
large. -/
theorem shift_spec (hm : 0 < m) (he : e ≤ lastPlace m e) : ∃ em,
    shiftToTargetExponent .binary64 m e .exact = (em, lastPlace m e) ∧
      em.roundedMantissa ≤ 2 ^ 53 ∧
      (lastPlace m e = -1074 ∨ 2 ^ 52 ≤ em.roundedMantissa) ∧
      number em.roundedMantissa (lastPlace m e) ≤ number m e + 2 ^ lastPlace m e := by
  obtain ⟨s, hs⟩ := Int.eq_ofNat_of_zero_le (Int.sub_nonneg_of_le he)
  let em := (⟨m, false, false⟩ : ExtendedMantissa) >>> s
  have hshift : shiftToTargetExponent .binary64 m e .exact = (em, lastPlace m e) := by
    rw [shiftToTargetExponent, shiftToExponent, targetExponent_eq, hs, Int.toNat_natCast]
    exact Prod.ext rfl (by dsimp only; omega)
  have hmantissa : em.mantissa = m / 2 ^ s := mantissa_shiftRight _ s
  obtain ⟨hlow, hhigh⟩ := roundedMantissa_bounds em
  rw [hmantissa] at hlow hhigh
  rw [lastPlace] at hs
  refine ⟨em, hshift, ?_, ?_, ?_⟩
  · have hfits : m / 2 ^ s < 2 ^ 53 := by
      rw [Nat.div_lt_iff_lt_mul (by positivity), ← Nat.pow_add]
      exact Nat.lt_log2_self.trans_le (Nat.pow_le_pow_right two_pos (by omega))
    omega
  · by_cases hplace : lastPlace m e = -1074
    · exact .inl hplace
    · refine .inr (le_trans ?_ hlow)
      rw [lastPlace] at hplace
      rw [Nat.le_div_iff_mul_le (by positivity), ← Nat.pow_add]
      exact le_trans (Nat.pow_le_pow_right two_pos (by omega)) (Nat.log2_self_le hm.ne')
  · have hplace : lastPlace m e = e + s := by rw [lastPlace]; omega
    have hfloor : ((m / 2 ^ s : Nat) : Rat) * 2 ^ s ≤ m := by
      exact_mod_cast Nat.div_mul_le_self m (2 ^ s)
    have hrounded : (em.roundedMantissa : Rat) ≤ (m / 2 ^ s : Nat) + 1 := by exact_mod_cast hhigh
    rw [number, number, hplace, zpow_add₀ two_ne_zero, zpow_natCast]
    have hpos : (0 : Rat) < 2 ^ e := by positivity
    have hpow : (0 : Rat) < 2 ^ s := by positivity
    nlinarith only [mul_le_mul_of_nonneg_right hrounded hpow.le,
      mul_le_mul_of_nonneg_right hfloor hpos.le, hpos]

theorem roundWithAccuracy_spec (hm : 0 < m) (he : e ≤ lastPlace m e)
    (hsmall : m.log2 + e ≤ 1000) :
    roundWithAccuracy .binary64 .positive m e .exact = .zero .positive ∨
      ∃ m' e' h, roundWithAccuracy .binary64 .positive m e .exact = .finite .positive m' e' h ∧
        Canonical m' e' ∧ number m' e' ≤ number m e + 2 ^ lastPlace m e := by
  obtain ⟨em, hshift, hmax, hfull, hnumber⟩ := shift_spec hm he
  have hplace : -1074 ≤ lastPlace m e ∧ lastPlace m e ≤ 970 := by
    rw [lastPlace]
    omega
  rw [roundWithAccuracy, hshift]
  dsimp only
  obtain hlt | heq := Nat.lt_or_eq_of_le hmax
  · rw [shift_of_lt hlt hplace.1]
    dsimp only
    split
    · exact .inl rfl
    · next hpos =>
      exact .inr ⟨_, _, Nat.pos_of_ne_zero hpos, rfl, ⟨hlt, by omega, hplace.1, hfull⟩, hnumber⟩
  · rw [heq] at hnumber ⊢
    rw [shift_of_eq hplace.1]
    refine .inr ⟨2 ^ 52, lastPlace m e + 1, by decide, rfl,
      ⟨by decide, by omega, by omega, .inr le_rfl⟩, ?_⟩
    convert hnumber using 1
    rw [number, number, zpow_add₀ two_ne_zero]
    push_cast
    ring

/-- A number that is rounded becomes too large by one unit in the last place at most. -/
theorem round_spec (hm : 0 < m) (hsmall : m.log2 + e ≤ 1000) :
    UnpackedFloat.round .binary64 .positive m e = .zero .positive ∨
      ∃ m' e' h, UnpackedFloat.round .binary64 .positive m e = .finite .positive m' e' h ∧
        Canonical m' e' ∧
        number m' e' ≤ number m e + 2 ^ lastPlace m e := by
  obtain ⟨k, hk⟩ : ∃ k, (e - lastPlace m e).toNat = k := ⟨_, rfl⟩
  have hround : UnpackedFloat.round .binary64 .positive m e =
      roundWithAccuracy .binary64 .positive (m <<< k) (e - k) .exact := by
    rw [UnpackedFloat.round, decreaseExponent, targetExponent_eq, hk]
  have hplace : lastPlace (m <<< k) (e - k) = lastPlace m e := by
    rw [lastPlace, log2_shiftLeft hm, lastPlace]
    omega
  have hspec := roundWithAccuracy_spec (m := m <<< k) (e := e - k)
    (by rw [Nat.shiftLeft_eq]; positivity) (by omega) (by rw [log2_shiftLeft hm]; omega)
  rwa [hplace, number_shiftLeft, ← hround] at hspec

/-! ## Writing and reading -/

theorem toNat_implicit (mantissa : BitVec 52) :
    (1#1 ++ mantissa).toNat = 2 ^ 52 + mantissa.toNat := by
  rw [BitVec.toNat_append, ← Nat.shiftLeft_add_eq_or_of_lt mantissa.isLt]
  rfl

theorem unpack_normal (s : Sign) {biased : Nat} (hpos : 0 < biased) (htop : biased < 2047)
    (hfull : 2 ^ 52 ≤ m) (hlt : m < 2 ^ 53) (hm : 0 < m) :
    unpack .binary64 (packComponents .binary64 s (.ofNat 11 biased) (.ofNat 52 m)) =
      .finite s m (biased - 1075) hm := by
  have hbias : ((Format.binary64.exponentBias : Nat) : Int) = 1023 := rfl
  have hmantissa : (1#1 ++ BitVec.ofNat 52 m).toNat = m := by
    rw [toNat_implicit, BitVec.toNat_ofNat]
    omega
  have hexponent : (BitVec.ofNat 11 biased).toNat = biased := by
    rw [BitVec.toNat_ofNat]
    omega
  rw [unpack]
  simp only [unpackMantissa_packComponents, unpackExponent_packComponents,
    unpackSign_packComponents, Sign.ofBitVec_toBitVec]
  rw [if_neg fun h => ?_, if_neg fun h => ?_]
  · congr 1
    rw [hbias, hexponent]
    omega
  · exact hpos.ne' (hexponent.symm.trans (congrArg BitVec.toNat h))
  · exact htop.ne (hexponent.symm.trans (congrArg BitVec.toNat h))

theorem unpack_subnormal (s : Sign) (hlt : m < 2 ^ 52) (hm : 0 < m) :
    unpack .binary64 (packComponents .binary64 s 0#11 (.ofNat 52 m)) =
      .finite s m (-1074) hm := by
  have hmantissa : (BitVec.ofNat 52 m).toNat = m := by
    rw [BitVec.toNat_ofNat]
    omega
  rw [unpack]
  simp only [unpackMantissa_packComponents, unpackExponent_packComponents,
    unpackSign_packComponents, Sign.ofBitVec_toBitVec]
  rw [if_neg (by decide), if_pos trivial, dif_neg fun h => ?_]
  · congr 1
  · exact hm.ne' (hmantissa.symm.trans (congrArg BitVec.toNat h))

/-- A double is read back as it was written. -/
theorem unpack_pack (s : Sign) (h : Canonical m e) (hm : 0 < m) :
    unpack .binary64 (pack .binary64 (.finite s m e hm)) = .finite s m e hm := by
  obtain ⟨hlt, hmax, hmin, hfull⟩ := h
  have hbias : ((Format.binary64.exponentBias : Nat) : Int) = 1023 := rfl
  have hwidth : ((Format.binary64.mantissaBitsWithoutImplicit : Nat) : Int) = 52 := rfl
  have hroom : 2 ^ Format.binary64.exponentBits = 2048 := rfl
  have hbits : Format.binary64.mantissaBits = 53 := rfl
  obtain ⟨biased, hbiased⟩ := Int.eq_ofNat_of_zero_le (a := e + 1023 + 52) (by omega)
  obtain rfl : e = biased - 1075 := by omega
  rw [pack, hbias, hwidth, hroom, hbits, hbiased, Int.toNat_natCast, if_neg (by omega)]
  by_cases hnormal : 2 ^ 52 ≤ m
  · have hlog : m.log2 = 52 := (Nat.log2_eq_iff hm.ne').mpr ⟨hnormal, hlt⟩
    rw [if_pos (by rw [hlog])]
    exact unpack_normal s (by omega) (by omega) hnormal hlt hm
  · have hlog : m.log2 < 52 := (Nat.log2_lt hm.ne').mpr (by omega)
    rw [if_neg (by omega), hfull.resolve_right hnormal]
    exact unpack_subnormal s (by omega) hm

/-- What is read is a double. -/
theorem canonical_of_unpack {b : BitVec Format.binary64.numBits} {s : Sign} {hm : 0 < m}
    (h : unpack .binary64 b = .finite s m e hm) : Canonical m e := by
  have hmantissa : (unpackMantissa b).toNat < 2 ^ 52 := (unpackMantissa b).isLt
  have hexponent : (unpackExponent b).toNat < 2 ^ 11 := (unpackExponent b).isLt
  have hbias : ((Format.binary64.exponentBias : Nat) : Int) = 1023 := rfl
  rw [unpack] at h
  split at h
  · split at h <;> cases h
  split at h
  · next hzero =>
    split at h
    · cases h
    · cases h
      rw [hzero, hbias]
      exact ⟨by omega, by decide, by decide, .inl (by decide)⟩
  · next htop hzero =>
    cases h
    have hwidth : ((Format.binary64.mantissaBitsWithoutImplicit : Nat) : Int) = 52 := rfl
    rw [hbias, hwidth, toNat_implicit]
    have htop' : (unpackExponent b).toNat ≠ 2047 := fun h => htop (BitVec.eq_of_toNat_eq h)
    have hzero' : (unpackExponent b).toNat ≠ 0 := fun h => hzero (BitVec.eq_of_toNat_eq h)
    exact ⟨by omega, by omega, by omega, .inr (by omega)⟩

/-! ## Bounds -/

variable {p q : Rat} {u v : UnpackedFloat}

/-- A double is not positive, or a number that is no more than `q`. -/
def AtMost (q : Rat) : UnpackedFloat → Prop
  | .infinity .positive => False
  | .finite .positive m e _ => number m e ≤ q
  | _ => True

/-- A double as it is read. -/
def Regular (u : UnpackedFloat) : Prop :=
  ∀ s m e hm, u = .finite s m e hm → Canonical m e

theorem regular_unpack (b : BitVec Format.binary64.numBits) : Regular (unpack .binary64 b) :=
  fun _ _ _ _ h => canonical_of_unpack h

theorem AtMost.mono (h : AtMost p u) (hpq : p ≤ q) : AtMost q u := by
  cases u with
  | notANumber | zero => trivial
  | infinity s =>
    cases s with
    | negative => trivial
    | positive => exact h
  | finite s m e hm =>
    cases s with
    | negative => trivial
    | positive => exact h.trans hpq

theorem atMost_unpack_negative (exponent : BitVec 11) (mantissa : BitVec 52) :
    AtMost q (unpack .binary64 (packComponents .binary64 .negative exponent mantissa)) := by
  rw [unpack, unpackSign_packComponents, Sign.ofBitVec_toBitVec]
  dsimp only
  split
  · split <;> trivial
  · split
    · split <;> trivial
    · trivial

theorem exists_pack_negative (m : Nat) (e : Int) (hm : 0 < m) : ∃ exponent mantissa,
    pack .binary64 (.finite .negative m e hm) =
      packComponents .binary64 .negative exponent mantissa := by
  rw [pack]
  dsimp only
  split
  · exact ⟨_, _, rfl⟩
  · split <;> exact ⟨_, _, rfl⟩

/-- A bound outlives the writing of a double. -/
theorem AtMost.repack (h : AtMost q u)
    (hu : ∀ m e hm, u = .finite .positive m e hm → Canonical m e) :
    AtMost q (unpack .binary64 (pack .binary64 u)) := by
  cases u with
  | notANumber => trivial
  | infinity s =>
    cases s with
    | negative => trivial
    | positive => exact h.elim
  | zero s => cases s <;> trivial
  | finite s m e hm =>
    cases s with
    | negative =>
      obtain ⟨exponent, mantissa, hpack⟩ := exists_pack_negative m e hm
      rw [hpack]
      exact atMost_unpack_negative exponent mantissa
    | positive =>
      rw [unpack_pack .positive (hu m e hm rfl) hm]
      exact h

theorem roundWithAccuracy_negative (m : Nat) (e : Int) :
    roundWithAccuracy .binary64 .negative m e .exact = .zero .negative ∨
      ∃ m' e' h, roundWithAccuracy .binary64 .negative m e .exact = .finite .negative m' e' h := by
  rw [roundWithAccuracy]
  dsimp only
  split
  · exact .inl rfl
  · next hpos => exact .inr ⟨_, _, Nat.pos_of_ne_zero hpos, rfl⟩

theorem round_negative (m : Nat) (e : Int) :
    UnpackedFloat.round .binary64 .negative m e = .zero .negative ∨
      ∃ m' e' h, UnpackedFloat.round .binary64 .negative m e = .finite .negative m' e' h :=
  roundWithAccuracy_negative ..

theorem lastPlace_le (hm : 0 < m) (h : number m e ≤ 2 ^ 26) : lastPlace m e ≤ -26 := by
  have hlow : (2 : Rat) ^ ((m.log2 : Int) + e) ≤ 2 ^ (26 : Int) := by
    rw [zpow_add₀ two_ne_zero, zpow_natCast]
    refine le_trans (mul_le_mul_of_nonneg_right ?_ (by positivity)) h
    exact_mod_cast Nat.log2_self_le hm.ne'
  have hlog := (zpow_le_zpow_iff_right₀ one_lt_two).mp hlow
  rw [lastPlace]
  omega

/-- Rounding raises a bound by one unit in the last place at most. -/
theorem atMost_normalize {d : Int} (h : d * 2 ^ e ≤ q) (hq : q ≤ 2 ^ 26) :
    AtMost (q + 2 ^ (-26 : Int))
      (unpack .binary64 (pack .binary64 (UnpackedFloat.normalize .binary64 d e .positive))) := by
  rw [UnpackedFloat.normalize]
  cases hsign : compare d 0 with
  | lt =>
    dsimp only
    obtain hround | ⟨m', e', hm', hround⟩ := round_negative (-d).toNat e
    all_goals
      rw [hround]
      refine AtMost.repack trivial ?_
      rintro _ _ _ ⟨⟩
  | eq => exact AtMost.repack trivial (by rintro _ _ _ ⟨⟩)
  | gt =>
    dsimp only
    have hd : 0 < d := Int.compare_eq_gt.mp hsign
    obtain ⟨m, rfl⟩ := Int.eq_ofNat_of_zero_le hd.le
    rw [Int.toNat_natCast]
    have hm : 0 < m := by omega
    have hnumber : number m e ≤ q := by exact_mod_cast h
    have hplace := lastPlace_le hm (hnumber.trans hq)
    obtain hround | ⟨m', e', hm', hround, hcanonical, hle⟩ :=
      round_spec (e := e) hm (by rw [lastPlace] at hplace; omega)
    · rw [hround]
      exact AtMost.repack trivial (by rintro _ _ _ ⟨⟩)
    · rw [hround]
      refine AtMost.repack ?_ ?_
      · have hunit : (2 : Rat) ^ lastPlace m e ≤ 2 ^ (-26 : Int) :=
          zpow_le_zpow_right₀ one_le_two hplace
        exact hle.trans (add_le_add hnumber hunit)
      · rintro _ _ _ ⟨⟩
        exact hcanonical

/-! ## Sums and differences -/

theorem number_nonneg (m : Nat) (e : Int) : 0 ≤ number m e := by
  rw [number]
  positivity

/-- What a finite double stands for. -/
def signed (s : Sign) (m : Nat) (e : Int) : Rat :=
  s.apply m * 2 ^ e

theorem signed_negative (m : Nat) (e : Int) : signed .negative m e = -number m e := by
  rw [signed, number, Sign.apply, Int.cast_neg, neg_mul, Int.cast_natCast]

theorem signed_shiftLeft (s : Sign) (m n : Nat) (e : Int) :
    signed s (m <<< n) (e - n) = signed s m e := by
  have hnumber := number_shiftLeft m n e
  cases s with
  | positive => exact hnumber
  | negative => rw [signed_negative, signed_negative, hnumber]

/-- A number is brought to a smaller exponent. -/
theorem signed_decreaseExponent (s : Sign) (m : Nat) {target : Int} (h : target ≤ e) :
    (s.apply (m <<< (e - target).toNat : Nat) : Rat) * 2 ^ target = signed s m e := by
  obtain ⟨n, hn⟩ := Int.eq_ofNat_of_zero_le (Int.sub_nonneg_of_le h)
  have htarget : target = e - n := by omega
  rw [hn, Int.toNat_natCast, htarget]
  exact signed_shiftLeft s m n e

theorem signed_le {s : Sign} {hm : 0 < m} (h : AtMost q (.finite s m e hm)) (hq : 0 ≤ q) :
    signed s m e ≤ q := by
  cases s with
  | positive => exact h
  | negative =>
    rw [signed_negative]
    exact le_trans (neg_nonpos.mpr (number_nonneg m e)) hq

theorem atMost_add (hu : AtMost p u) (hv : AtMost q v) (hp : 0 ≤ p) (hq : 0 ≤ q)
    (hpq : p + q ≤ 2 ^ 26) (hregular : Regular u) (hregular' : Regular v) :
    AtMost (p + q + 2 ^ (-26 : Int)) (unpack .binary64 (pack .binary64 (add .binary64 u v))) := by
  have hunit : (0 : Rat) ≤ 2 ^ (-26 : Int) := by positivity
  have hleft : AtMost (p + q + 2 ^ (-26 : Int)) (unpack .binary64 (pack .binary64 u)) :=
    AtMost.repack (hu.mono (by linarith)) fun m e hm h => hregular _ m e hm h
  have hright : AtMost (p + q + 2 ^ (-26 : Int)) (unpack .binary64 (pack .binary64 v)) :=
    AtMost.repack (hv.mono (by linarith)) fun m e hm h => hregular' _ m e hm h
  have hnothing :
      AtMost (p + q + 2 ^ (-26 : Int)) (unpack .binary64 (pack .binary64 .notANumber)) :=
    trivial
  cases u with
  | notANumber => cases v <;> exact hnothing
  | infinity s =>
    cases s with
    | positive => exact hu.elim
    | negative =>
      cases v with
      | notANumber => exact hnothing
      | zero | finite => exact hleft
      | infinity s' =>
        cases s' with
        | positive => exact hv.elim
        | negative => exact hleft
  | zero s =>
    cases v with
    | notANumber => exact hnothing
    | infinity | finite => exact hright
    | zero s' =>
      rw [add]
      split
      · exact hleft
      · trivial
  | finite s m e hm =>
    cases v with
    | notANumber => exact hnothing
    | infinity => exact hright
    | zero => exact hleft
    | finite s' m' e' hm' =>
      rw [add]
      refine atMost_normalize (q := p + q) ?_ hpq
      have hfirst := signed_decreaseExponent s m (min_le_left e e')
      have hsecond := signed_decreaseExponent s' m' (min_le_right e e')
      rw [Int.cast_add, add_mul, hfirst, hsecond]
      exact add_le_add (signed_le hu hp) (signed_le hv hq)

theorem atMost_sub {m' : Nat} {e' : Int} (hm : 0 < m) (hm' : 0 < m')
    (h : number m e - number m' e' ≤ q) (hq : q ≤ 2 ^ 26) :
    AtMost (q + 2 ^ (-26 : Int)) (unpack .binary64 (pack .binary64
      (sub .binary64 (.finite .positive m e hm) (.finite .positive m' e' hm')))) := by
  rw [sub]
  refine atMost_normalize ?_ hq
  have hfirst := signed_decreaseExponent .positive m (min_le_left e e')
  have hsecond := signed_decreaseExponent .positive m' (min_le_right e e')
  rw [Int.cast_sub, sub_mul, hfirst, hsecond]
  exact h

/-! ## Comparisons -/

theorem le_finite_iff {m' : Nat} {e' : Int} {hm : 0 < m} {hm' : 0 < m'} :
    (UnpackedFloat.finite .positive m e hm).le (.finite .positive m' e' hm') = true ↔
      e < e' ∨ e = e' ∧ m ≤ m' := by
  change ((compare e e').then (compare m m')).isLE = true ↔ _
  rw [Ordering.isLE_then_iff_or, Int.compare_eq_lt, Int.compare_eq_eq, Nat.isLE_compare]

theorem number_le_of_lt {m' : Nat} {e' : Int} (h : m < 2 ^ 53) (hfull : 2 ^ 52 ≤ m') (he : e < e') :
    number m e ≤ number m' e' := by
  have hm : (m : Rat) ≤ 2 ^ 53 := by exact_mod_cast h.le
  have hm' : (2 ^ 52 : Rat) ≤ m' := by exact_mod_cast hfull
  have hexponent : (2 : Rat) ^ (e + 1) ≤ 2 ^ e' := zpow_le_zpow_right₀ one_le_two he
  calc number m e ≤ 2 ^ 53 * 2 ^ e := mul_le_mul_of_nonneg_right hm (by positivity)
    _ = 2 ^ 52 * 2 ^ (e + 1) := by rw [zpow_add₀ two_ne_zero]; ring
    _ ≤ 2 ^ 52 * 2 ^ e' := mul_le_mul_of_nonneg_left hexponent (by positivity)
    _ ≤ number m' e' := mul_le_mul_of_nonneg_right hm' (by positivity)

theorem number_le_of_le {m' : Nat} (h : m ≤ m') : number m e ≤ number m' e :=
  mul_le_mul_of_nonneg_right (by exact_mod_cast h) (by positivity)

/-- A double that is not at least as large as another one stays below it. -/
theorem atMost_of_not_le {hm : 0 < m} (hfull : 2 ^ 52 ≤ m) (hu : Regular u)
    (h : ¬ (UnpackedFloat.finite .positive m e hm).le u = true) : AtMost (number m e) u := by
  cases u with
  | notANumber | zero => trivial
  | infinity s =>
    cases s with
    | negative => trivial
    | positive => exact h rfl
  | finite s m' e' hm' =>
    cases s with
    | negative => trivial
    | positive =>
      rw [le_finite_iff] at h
      obtain hlt | rfl | hgt := lt_trichotomy e' e
      · exact number_le_of_lt (hu _ _ _ _ rfl).lt hfull hlt
      · exact number_le_of_le (by omega)
      · exact absurd (.inl hgt) h

/-- A double that is at least as large as another one, but bounded, is a number that is. -/
theorem exists_number_of_le {hm : 0 < m} (hcanonical : Canonical m e) (hu : Regular u)
    (hbound : AtMost q u) (h : (UnpackedFloat.finite .positive m e hm).le u = true) :
    ∃ m' e' hm', u = .finite .positive m' e' hm' ∧ number m e ≤ number m' e' ∧
      number m' e' ≤ q := by
  cases u with
  | notANumber | zero => cases h
  | infinity s =>
    cases s with
    | negative => cases h
    | positive => exact hbound.elim
  | finite s m' e' hm' =>
    cases s with
    | negative => cases h
    | positive =>
      refine ⟨m', e', hm', rfl, ?_, hbound⟩
      obtain hlt | ⟨rfl, hle⟩ := le_finite_iff.mp h
      · have hmin := hcanonical.le_exponent
        have hfull := (hu _ _ _ _ rfl).full.resolve_left (by omega)
        exact number_le_of_lt hcanonical.lt hfull hlt
      · exact number_le_of_le hle

end Chip8.Doubles

