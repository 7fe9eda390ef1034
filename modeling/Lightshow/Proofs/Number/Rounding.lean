import Lightshow.Proofs.Number.Binary
import Mathlib.Tactic.FieldSimp

/-!
# Rounding to a float

A float has 53 bits and an exponent that is not too small.  A number that needs more than that is
rounded: its size says to which exponent, and what is left of its mantissa there is rounded to the
nearest whole number.  So rounding is `roundScaled` once more, with units that depend on the size
of the number, and it keeps numbers in order: within one exponent because `roundScaled` does, and
from one exponent to the next because the rounded mantissas stay within their 53 bits.

The rounding may use up one bit more than there are.  Then the mantissa is a power of two, and the
bit goes into the exponent; this is why the mantissa is shifted twice.

## Main definitions

* `targetOf`, `mantissaOf` — the exponent and the mantissa that a number is rounded to.
* `RoundsTo` — a rational number and the one that it is rounded to.
* `IsRounded` — a number in canonical form is what a rational number is rounded to.

## Main results

* `round_eq` — **rounding gives just this mantissa and this exponent.**
* `RoundsTo.mono` — **what is greater is not rounded to less.**
* `isRounded_normalize` — what is rounded is in canonical form.
-/

namespace Lightshow

open Float.Model (UnpackedFloat Format)
open Float.Model.UnpackedFloat

/-! ### The exponent that is rounded to -/

/-- The exponent that a number is rounded to: what leaves 53 bits, and never less than the least. -/
def targetOf (m : ℕ) (e : ℤ) : ℤ := max (m.log2 + 1 + e - 53) (-1074)

theorem two_zpow_le_magnitude {m : ℕ} (hm : 0 < m) (e : ℤ) :
    (2 : ℚ) ^ (m.log2 + e) ≤ m * 2 ^ e := by
  have hlow : (2 : ℚ) ^ m.log2 ≤ m := by exact_mod_cast Nat.log2_self_le hm.ne'
  rw [zpow_add₀ two_ne_zero, zpow_natCast]
  gcongr

theorem magnitude_lt_two_zpow (m : ℕ) (e : ℤ) : (m : ℚ) * 2 ^ e < 2 ^ (m.log2 + 1 + e) := by
  have hhigh : (m : ℚ) < 2 ^ (m.log2 + 1) := by exact_mod_cast Nat.lt_log2_self
  rw [zpow_add₀ two_ne_zero]
  refine mul_lt_mul_of_pos_right ?_ (by positivity)
  exact_mod_cast hhigh

/-- Greater numbers are rounded to greater exponents. -/
theorem targetOf_le_targetOf {m m' : ℕ} {e e' : ℤ} (hm : 0 < m)
    (h : (m : ℚ) * 2 ^ e ≤ m' * 2 ^ e') : targetOf m e ≤ targetOf m' e' := by
  have hlt : (2 : ℚ) ^ (m.log2 + e) < 2 ^ (m'.log2 + 1 + e') :=
    (two_zpow_le_magnitude hm e).trans_lt (h.trans_lt (magnitude_lt_two_zpow m' e'))
  have hexp := (zpow_lt_zpow_iff_right₀ one_lt_two).mp hlt
  unfold targetOf
  omega

/-- The target depends on what is rounded alone, not on how it is written. -/
theorem targetOf_congr {m m' : ℕ} {e e' : ℤ} (hm : 0 < m) (hm' : 0 < m')
    (h : (m : ℚ) * 2 ^ e = m' * 2 ^ e') : targetOf m e = targetOf m' e' :=
  (targetOf_le_targetOf hm h.le).antisymm (targetOf_le_targetOf hm' h.ge)

/-- A mantissa can be widened at the expense of the exponent. -/
theorem widened_value (m : ℕ) (e : ℤ) (n : ℕ) :
    ((m <<< n : ℕ) : ℚ) * 2 ^ (e - n) = m * 2 ^ e := by
  rw [Nat.shiftLeft_eq, zpow_sub₀ two_ne_zero, zpow_natCast]
  push_cast
  field_simp

/-! ### The mantissa that is rounded to -/

/-- The mantissa of a number once it is rounded, which may have one bit too many. -/
def mantissaOf (m : ℕ) (e : ℤ) : ℕ := roundScaled 1 m (e - targetOf m e)

theorem scaled_le_scaled {m m' : ℕ} {e e' : ℤ} (t : ℤ) (h : (m : ℚ) * 2 ^ e ≤ m' * 2 ^ e') :
    (m : ℚ) * 2 ^ (e - t) ≤ m' * 2 ^ (e' - t) := by
  rw [zpow_sub₀ two_ne_zero, zpow_sub₀ two_ne_zero, ← mul_div_assoc, ← mul_div_assoc]
  gcongr

theorem mantissaOf_congr {m m' : ℕ} {e e' : ℤ} (hm : 0 < m) (hm' : 0 < m')
    (h : (m : ℚ) * 2 ^ e = m' * 2 ^ e') : mantissaOf m e = mantissaOf m' e' := by
  rw [mantissaOf, mantissaOf, targetOf_congr hm hm' h]
  exact roundScaled_congr 1 ((scaled_le_scaled _ h.le).antisymm (scaled_le_scaled _ h.ge))

/-- A rounded mantissa has 53 bits, or it is the least that has more. -/
theorem mantissaOf_le (m : ℕ) (e : ℤ) : mantissaOf m e ≤ 2 ^ 53 := by
  have hle : (m : ℚ) * 2 ^ (e - targetOf m e) ≤ (2 ^ 53 : ℕ) * 2 ^ (0 : ℤ) := by
    refine (magnitude_lt_two_zpow m _).le.trans ?_
    have hexp : (2 : ℚ) ^ ((m.log2 : ℤ) + 1 + (e - targetOf m e)) ≤ 2 ^ (53 : ℤ) :=
      zpow_le_zpow_right₀ one_le_two (by unfold targetOf; omega)
    refine hexp.trans_eq ?_
    norm_num
  exact (roundScaled_le_roundScaled 1 hle).trans_eq (roundScaled_zero _)

/-- A rounded mantissa has no fewer than 53 bits, unless the exponent is the least. -/
theorem le_mantissaOf {m : ℕ} {e : ℤ} (hm : 0 < m) (h : targetOf m e ≠ -1074) :
    2 ^ 52 ≤ mantissaOf m e := by
  have hle : (2 ^ 52 : ℕ) * (2 : ℚ) ^ (0 : ℤ) ≤ m * 2 ^ (e - targetOf m e) := by
    refine le_trans ?_ (two_zpow_le_magnitude hm _)
    have hexp : (2 : ℚ) ^ (52 : ℤ) ≤ 2 ^ ((m.log2 : ℤ) + (e - targetOf m e)) :=
      zpow_le_zpow_right₀ one_le_two (by unfold targetOf at *; omega)
    refine le_trans (Eq.le ?_) hexp
    norm_num
  exact (roundScaled_zero _).symm.trans_le (roundScaled_le_roundScaled 1 hle)

/-! ### Rounding -/

/-- What a positive number stands for once it is rounded. -/
def roundedValue (m : ℕ) (e : ℤ) : ℚ := mantissaOf m e * 2 ^ targetOf m e

theorem roundedValue_nonneg (m : ℕ) (e : ℤ) : 0 ≤ roundedValue m e := by
  unfold roundedValue
  positivity

@[simp] theorem roundedValue_zero (e : ℤ) : roundedValue 0 e = 0 := by
  have hzero : mantissaOf 0 e = 0 :=
    (roundScaled_congr 1 (by rw [Nat.cast_zero, zero_mul, zero_mul])).trans (roundScaled_zero 0)
  rw [roundedValue, hzero, Nat.cast_zero, zero_mul]

/-- **Rounding keeps positive numbers in order.** -/
theorem roundedValue_le_roundedValue {m m' : ℕ} {e e' : ℤ}
    (h : (m : ℚ) * 2 ^ e ≤ m' * 2 ^ e') : roundedValue m e ≤ roundedValue m' e' := by
  rcases Nat.eq_zero_or_pos m with rfl | hm
  · rw [roundedValue_zero]
    exact roundedValue_nonneg m' e'
  have hm' : 0 < m' := by
    by_contra hzero
    obtain rfl : m' = 0 := by omega
    rw [Nat.cast_zero, zero_mul] at h
    exact h.not_gt (magnitude_pos hm e)
  unfold roundedValue
  rcases (targetOf_le_targetOf hm h).lt_or_eq with hlt | heq
  · -- the smaller number has 53 bits at the most, and the greater has that many one place up
    have hne : targetOf m' e' ≠ -1074 := by
      have hmin : -1074 ≤ targetOf m e := le_max_right _ _
      omega
    have hle : (mantissaOf m e : ℚ) ≤ 2 ^ 53 := by exact_mod_cast mantissaOf_le m e
    have hge : (2 : ℚ) ^ 52 ≤ mantissaOf m' e' := by exact_mod_cast le_mantissaOf hm' hne
    have hstep : (2 : ℚ) ^ (targetOf m e + 1) ≤ 2 ^ targetOf m' e' :=
      zpow_le_zpow_right₀ one_le_two (by omega)
    calc (mantissaOf m e : ℚ) * 2 ^ targetOf m e ≤ 2 ^ 53 * 2 ^ targetOf m e := by gcongr
      _ = 2 ^ 52 * 2 ^ (targetOf m e + 1) := by rw [zpow_add_one₀ two_ne_zero]; ring
      _ ≤ mantissaOf m' e' * 2 ^ targetOf m' e' := by gcongr
  · -- both count the same units
    have hscaled := roundScaled_le_roundScaled 1 (scaled_le_scaled (targetOf m e) h)
    have hmant : (mantissaOf m e : ℚ) ≤ mantissaOf m' e' := by
      rw [mantissaOf, mantissaOf, ← heq]
      exact_mod_cast hscaled
    rw [← heq]
    gcongr

theorem roundedValue_nonpos {m : ℕ} {e : ℤ} (h : (m : ℚ) * 2 ^ e ≤ 0) : roundedValue m e ≤ 0 := by
  have hzero : (m : ℚ) * 2 ^ e ≤ (0 : ℕ) * 2 ^ (0 : ℤ) := by rwa [Nat.cast_zero, zero_mul]
  exact (roundedValue_le_roundedValue hzero).trans_eq (roundedValue_zero 0)

/-- A number in canonical form is where it is rounded to. -/
theorem Canonical.roundedValue_eq {m : ℕ} {e : ℤ} (hm : 0 < m) (h : Canonical m e) :
    roundedValue m e = m * 2 ^ e := by
  have htarget : targetOf m e = e := by
    have hlt : m.log2 < 53 := (Nat.log2_lt hm.ne').mpr h.lt
    have hle := h.le
    unfold targetOf
    rcases h.full with hfull | rfl
    · have hge : 52 ≤ m.log2 := (Nat.le_log2 hm.ne').mpr hfull
      omega
    · omega
  rw [roundedValue, mantissaOf, htarget, sub_self, roundScaled_zero]

/-! ### Shifting to the target -/

/-- A rounded mantissa as a number.  If it has one bit too many then it is the least that has, and
the bit goes into the exponent. -/
def carried (s : Sign) (k : ℕ) (t : ℤ) : UnpackedFloat :=
  if h : k = 0 then .zero s
  else if k < 2 ^ 53 then .finite s k t (Nat.pos_of_ne_zero h)
  else .finite s (2 ^ 52) (t + 1) (by decide)

/-- A rounded mantissa is nothing, or it fits, or it is carried. -/
theorem carried_cases (s : Sign) {k : ℕ} (hk : k ≤ 2 ^ 53) (t : ℤ) :
    k = 0 ∧ carried s k t = .zero s ∨
      (∃ hpos, k < 2 ^ 53 ∧ carried s k t = .finite s k t hpos) ∨
      k = 2 ^ 53 ∧ carried s k t = .finite s (2 ^ 52) (t + 1) (by decide) := by
  rcases Nat.eq_zero_or_pos k with rfl | hpos
  · exact .inl ⟨rfl, rfl⟩
  rcases hk.lt_or_eq with hlt | rfl
  · refine .inr (.inl ⟨hpos, hlt, ?_⟩)
    rw [carried, dif_neg hpos.ne', if_pos hlt]
  · exact .inr (.inr ⟨rfl, rfl⟩)

theorem shiftToTargetExponent_exact (m : ℕ) (e : ℤ) :
    shiftToTargetExponent Format.binary64 m e .exact =
      (ExtendedMantissa.ofMantissaAndAccuracy m .exact >>> (targetOf m e - e).toNat,
        e + ((targetOf m e - e).toNat : ℤ)) := rfl

theorem shiftToTargetExponent_of_le {m : ℕ} {e : ℤ} (he : e ≤ targetOf m e) :
    shiftToTargetExponent Format.binary64 m e .exact =
      (ExtendedMantissa.ofMantissaAndAccuracy m .exact >>> (targetOf m e - e).toNat,
        targetOf m e) := by
  rw [shiftToTargetExponent_exact]
  congr 1
  omega

/-- A mantissa that fits is left where it is. -/
theorem shiftToTargetExponent_of_lt {k : ℕ} {t : ℤ} (hk : k < 2 ^ 53) (ht : -1074 ≤ t) :
    shiftToTargetExponent Format.binary64 k t .exact = (⟨k, false, false⟩, t) := by
  have hlog : k.log2 < 53 := by
    rcases Nat.eq_zero_or_pos k with rfl | hpos
    · decide
    · exact (Nat.log2_lt hpos.ne').mpr hk
  have hzero : (targetOf k t - t).toNat = 0 := by
    unfold targetOf
    omega
  rw [shiftToTargetExponent_exact, hzero, Nat.cast_zero, add_zero]
  rfl

/-- The least mantissa that does not fit loses its last bit, which is zero. -/
theorem shiftToTargetExponent_carry {t : ℤ} (ht : -1074 ≤ t) :
    shiftToTargetExponent Format.binary64 (2 ^ 53) t .exact = (⟨2 ^ 52, false, false⟩, t + 1) := by
  have hone : (targetOf (2 ^ 53) t - t).toNat = 1 := by
    unfold targetOf
    rw [Nat.log2_two_pow]
    omega
  rw [shiftToTargetExponent_exact, hone]
  rfl

theorem roundWithAccuracy_eq (s : Sign) {m : ℕ} {e : ℤ} (he : e ≤ targetOf m e) :
    roundWithAccuracy Format.binary64 s m e .exact = carried s (mantissaOf m e) (targetOf m e) := by
  have hmin : -1074 ≤ targetOf m e := le_max_right _ _
  have hk : (ExtendedMantissa.ofMantissaAndAccuracy m .exact >>>
      (targetOf m e - e).toNat).roundedMantissa = mantissaOf m e := by
    have hleft : (e - targetOf m e).toNat = 0 := by omega
    rw [roundedMantissa_shiftRight, mantissaOf, roundScaled, hleft, neg_sub, Nat.shiftLeft_zero,
      mul_one, Nat.one_shiftLeft]
  -- the first shift is the one that rounds, and all that is left for the second is the carry
  unfold roundWithAccuracy carried
  rw [shiftToTargetExponent_of_le he]
  dsimp only
  rw [hk]
  rcases (mantissaOf_le m e).lt_or_eq with hlt | heq
  · rw [shiftToTargetExponent_of_lt hlt hmin]
    dsimp only
    by_cases hzero : mantissaOf m e = 0
    · rw [dif_pos hzero, dif_pos hzero]
    · rw [dif_neg hzero, dif_neg hzero, if_pos hlt]
  · rw [heq, shiftToTargetExponent_carry hmin]
    rfl

/-- **Rounding brings a number to the mantissa and the exponent that its size asks for.** -/
theorem round_eq (s : Sign) {m : ℕ} (hm : 0 < m) (e : ℤ) :
    UnpackedFloat.round Format.binary64 s m e = carried s (mantissaOf m e) (targetOf m e) := by
  -- a number with too few bits is widened first, which does not change what it stands for
  have hvalue := widened_value m e (e - targetOf m e).toNat
  have hpos : 0 < m <<< (e - targetOf m e).toNat := by
    rw [Nat.shiftLeft_eq]
    positivity
  have htarget := targetOf_congr hpos hm hvalue
  show roundWithAccuracy Format.binary64 s (m <<< (e - targetOf m e).toNat)
    (e - (e - targetOf m e).toNat) .exact = _
  rw [roundWithAccuracy_eq s (by rw [htarget]; omega), htarget, mantissaOf_congr hpos hm hvalue]

theorem carried_value (s : Sign) {k : ℕ} (hk : k ≤ 2 ^ 53) (t : ℤ) :
    unpackedValue (carried s k t) = signed s (k * 2 ^ t) := by
  obtain ⟨rfl, h⟩ | ⟨hpos, hlt, h⟩ | ⟨rfl, h⟩ := carried_cases s hk t
  · rw [h, Nat.cast_zero, zero_mul]
    cases s with
    | positive => rfl
    | negative => exact neg_zero.symm
  · rw [h]
    rfl
  · have hcarry : ((2 ^ 52 : ℕ) : ℚ) * 2 ^ (t + 1) = (2 ^ 53 : ℕ) * 2 ^ t := by
      rw [zpow_add_one₀ two_ne_zero]
      push_cast
      ring
    rw [h, ← hcarry]
    rfl

theorem carried_canonical (s : Sign) {k : ℕ} {t : ℤ} (hk : k ≤ 2 ^ 53) (ht : -1074 ≤ t)
    (hfull : 2 ^ 52 ≤ k ∨ t = -1074) : CanonicalFloat (carried s k t) := by
  obtain ⟨-, h⟩ | ⟨hpos, hlt, h⟩ | ⟨-, h⟩ := carried_cases s hk t
  · rw [h]
    trivial
  · rw [h]
    exact ⟨hlt, ht, hfull⟩
  · rw [h]
    exact ⟨by decide, by omega, .inl le_rfl⟩

theorem carried_isFinite (s : Sign) {k : ℕ} (hk : k ≤ 2 ^ 53) (t : ℤ) :
    (carried s k t).isFinite = true := by
  obtain ⟨-, h⟩ | ⟨hpos, -, h⟩ | ⟨-, h⟩ := carried_cases s hk t <;> rw [h] <;> rfl

/-- A number is rounded to another: its size is rounded, its sign stays. -/
def RoundsTo (v q : ℚ) : Prop :=
  ∃ s m e, v = signed s ((m : ℕ) * 2 ^ (e : ℤ)) ∧ q = signed s (roundedValue m e)

/-- **What is greater is not rounded to less.** -/
theorem RoundsTo.mono {v v' q q' : ℚ} (h : RoundsTo v q) (h' : RoundsTo v' q') (hv : v ≤ v') :
    q ≤ q' := by
  obtain ⟨s, m, e, rfl, rfl⟩ := h
  obtain ⟨s', m', e', rfl, rfl⟩ := h'
  have hnonneg : (0 : ℚ) ≤ m * 2 ^ e := by positivity
  have hnonneg' : (0 : ℚ) ≤ m' * 2 ^ e' := by positivity
  cases s with
  | positive =>
    cases s' with
    | positive => exact roundedValue_le_roundedValue hv
    | negative =>
      -- a number from zero up is below another from zero down only if both are zero
      have hle : (m : ℚ) * 2 ^ e ≤ 0 := hv.trans (neg_nonpos.mpr hnonneg')
      have hle' : (m' : ℚ) * 2 ^ e' ≤ 0 := neg_nonneg.mp (hnonneg.trans hv)
      exact (roundedValue_nonpos hle).trans (neg_nonneg.mpr (roundedValue_nonpos hle'))
  | negative =>
    cases s' with
    | positive =>
      exact (neg_nonpos.mpr (roundedValue_nonneg m e)).trans (roundedValue_nonneg m' e')
    | negative => exact neg_le_neg (roundedValue_le_roundedValue (neg_le_neg_iff.mp hv))

/-! ### Rounded numbers -/

/-- A number in canonical form is what an exact value is rounded to. -/
structure IsRounded (v : ℚ) (x : UnpackedFloat) : Prop where
  canonical : CanonicalFloat x
  isFinite : x.isFinite = true
  value : RoundsTo v (unpackedValue x)

theorem isRounded_round (s : Sign) {m : ℕ} (hm : 0 < m) (e : ℤ) :
    IsRounded (signed s (m * 2 ^ e)) (UnpackedFloat.round Format.binary64 s m e) where
  canonical := by
    rw [round_eq s hm]
    refine carried_canonical s (mantissaOf_le m e) (le_max_right _ _) ?_
    by_cases hmin : targetOf m e = -1074
    · exact .inr hmin
    · exact .inl (le_mantissaOf hm hmin)
  isFinite := by
    rw [round_eq s hm]
    exact carried_isFinite s (mantissaOf_le m e) _
  value := by
    rw [round_eq s hm, carried_value s (mantissaOf_le m e)]
    exact ⟨s, m, e, rfl, rfl⟩

theorem isRounded_zero (s : Sign) : IsRounded 0 (.zero s) where
  canonical := trivial
  isFinite := rfl
  value := ⟨.positive, 0, 0, by rw [Nat.cast_zero, zero_mul]; rfl, (roundedValue_zero 0).symm⟩

/-- A number in canonical form is rounded to itself. -/
theorem isRounded_self {x : UnpackedFloat} (hx : CanonicalFloat x) (hf : x.isFinite = true) :
    IsRounded (unpackedValue x) x := by
  cases x with
  | zero s => exact isRounded_zero s
  | finite s m e hm =>
    exact ⟨hx, hf, ⟨s, m, e, rfl, congrArg (signed s) (hx.roundedValue_eq hm).symm⟩⟩
  | _ => exact absurd hf nofun

/-- A whole number of powers of two is rounded. -/
theorem isRounded_normalize (k e : ℤ) (z : Sign) :
    IsRounded (k * 2 ^ e) (UnpackedFloat.normalize Format.binary64 k e z) := by
  unfold UnpackedFloat.normalize
  rcases lt_trichotomy k 0 with hk | rfl | hk
  · have hcast : (((-k).toNat : ℕ) : ℚ) = -k := by
      exact_mod_cast Int.toNat_of_nonneg (by omega : 0 ≤ -k)
    have hround := isRounded_round .negative (by omega : 0 < (-k).toNat) e
    rw [hcast, signed, neg_mul, neg_neg] at hround
    rwa [Int.compare_eq_lt.mpr hk]
  · rw [Int.cast_zero, zero_mul]
    exact isRounded_zero z
  · have hcast : ((k.toNat : ℕ) : ℚ) = k := by exact_mod_cast Int.toNat_of_nonneg hk.le
    have hround := isRounded_round .positive (by omega : 0 < k.toNat) e
    rw [hcast, signed] at hround
    rwa [Int.compare_eq_gt.mpr hk]

end Lightshow
