import Lightshow.Duration
import Mathlib.Algebra.Order.Field.Power
import Mathlib.Algebra.Order.Field.Rat
import Mathlib.Tactic.Linarith
import Mathlib.Tactic.Positivity
import Mathlib.Tactic.Ring

/-!
# Division to the nearest whole number

`roundDiv` divides and rounds.  Two things about it carry everything that is said of rounded
numbers: what it gives is as near to the quotient as a whole number can be, and a larger quotient
never gives a smaller number.  The second does not follow from the first, since of two quotients
half way between the same neighbours one might go up and the other down; it is that a half always
goes to the even neighbour that excludes this.

## Main definitions

* `NearestNat` — a whole number to which no other is nearer.

## Main results

* `roundDiv_nearest` — **no whole number is nearer to the quotient.**
* `roundDiv_le_roundDiv` — **rounding keeps quotients in order.**
* `roundScaled_nearest`, `roundScaled_le_roundScaled` — the same for multiples of powers of two.
* `roundedMantissa_shiftRight` — bits that are shifted out are rounded as by a division.
-/

namespace Lightshow

open Float.Model.UnpackedFloat (Accuracy ExtendedMantissa)

/-- No whole number is nearer to `x` than `n` is. -/
def NearestNat (x : ℚ) (n : ℕ) : Prop := ∀ k : ℕ, |(n : ℚ) - x| ≤ |(k : ℚ) - x|

/-- Within a half of a number, nothing whole is nearer. -/
theorem NearestNat.of_abs_le {x : ℚ} {n : ℕ} (h : |(n : ℚ) - x| ≤ 1 / 2) : NearestNat x n := by
  intro k
  rcases eq_or_ne n k with rfl | hne
  · exact le_rfl
  -- two whole numbers are at least one apart, and `n` takes at most half of that
  have hgap : (1 : ℚ) ≤ |(n : ℚ) - k| := by
    have hint : (1 : ℤ) ≤ |(n : ℤ) - k| := Int.one_le_abs (by omega)
    exact_mod_cast hint
  have htri : |(n : ℚ) - k| ≤ |(n : ℚ) - x| + |(k : ℚ) - x| := by
    rw [abs_sub_comm (k : ℚ) x]
    exact abs_sub_le _ _ _
  linarith

/-! ### Rounding a quotient -/

/-- Rounding takes the quotient or the next number: the next past a half, and at a half the even
one of the two. -/
theorem roundDiv_cases (a d : ℕ) :
    2 * (a % d) < d ∧ roundDiv a d = a / d ∨
      d < 2 * (a % d) ∧ roundDiv a d = a / d + 1 ∨
      2 * (a % d) = d ∧ roundDiv a d = a / d + a / d % 2 := by
  unfold roundDiv
  by_cases hlow : 2 * (a % d) < d
  · exact .inl ⟨hlow, if_pos hlow⟩
  · by_cases hhigh : d < 2 * (a % d)
    · exact .inr (.inl ⟨hhigh, by simp only [if_neg hlow, if_pos hhigh]⟩)
    · exact .inr (.inr ⟨by omega, by simp only [if_neg hlow, if_neg hhigh]⟩)

theorem div_le_roundDiv (a d : ℕ) : a / d ≤ roundDiv a d := by
  obtain ⟨-, h⟩ | ⟨-, h⟩ | ⟨-, h⟩ := roundDiv_cases a d <;> omega

theorem roundDiv_le_div_add_one (a d : ℕ) : roundDiv a d ≤ a / d + 1 := by
  obtain ⟨-, h⟩ | ⟨-, h⟩ | ⟨-, h⟩ := roundDiv_cases a d <;> omega

@[simp] theorem roundDiv_one (a : ℕ) : roundDiv a 1 = a := by
  simp [roundDiv, Nat.mod_one]

/-- Rounding moves a quotient by at most a half. -/
theorem abs_roundDiv_sub_le (a : ℕ) {d : ℕ} (hd : 0 < d) :
    |(roundDiv a d : ℚ) - a / d| ≤ 1 / 2 := by
  have hpos : (0 : ℚ) < d := by exact_mod_cast hd
  -- the whole part cancels, and how large the rest is tells which way it was rounded
  have hsplit : (a : ℚ) / d = (a / d : ℕ) + (a % d : ℕ) / d := by
    rw [div_eq_iff hpos.ne', add_mul, div_mul_cancel₀ _ hpos.ne']
    exact_mod_cast (Nat.div_add_mod' a d).symm
  rw [hsplit, abs_le]
  obtain ⟨hr, hk⟩ | ⟨hr, hk⟩ | ⟨hr, hk⟩ := roundDiv_cases a d
  · have hrest : ((a % d : ℕ) : ℚ) / d ≤ 1 / 2 := by
      rw [div_le_iff₀ hpos]
      have : (2 : ℚ) * (a % d : ℕ) < d := by exact_mod_cast hr
      linarith
    have hnonneg : (0 : ℚ) ≤ (a % d : ℕ) / d := by positivity
    rw [hk]
    constructor <;> linarith
  · have hrest : (1 : ℚ) / 2 ≤ (a % d : ℕ) / d := by
      rw [le_div_iff₀ hpos]
      have : (d : ℚ) < 2 * (a % d : ℕ) := by exact_mod_cast hr
      linarith
    have hone : ((a % d : ℕ) : ℚ) / d ≤ 1 := by
      rw [div_le_one hpos]
      exact_mod_cast (Nat.mod_lt a hd).le
    rw [hk]
    push_cast
    constructor <;> linarith
  · have hrest : ((a % d : ℕ) : ℚ) / d = 1 / 2 := by
      rw [div_eq_iff hpos.ne']
      have : (2 : ℚ) * (a % d : ℕ) = d := by exact_mod_cast hr
      linarith
    have hparity : ((a / d % 2 : ℕ) : ℚ) ≤ 1 := by
      exact_mod_cast Nat.le_of_lt_succ (Nat.mod_lt _ two_pos)
    have hnonneg : (0 : ℚ) ≤ (a / d % 2 : ℕ) := by positivity
    rw [hk, hrest]
    push_cast at *
    constructor <;> linarith

/-- **No whole number is nearer to a quotient than what it is rounded to.** -/
theorem roundDiv_nearest (a : ℕ) {d : ℕ} (hd : 0 < d) : NearestNat (a / d) (roundDiv a d) :=
  .of_abs_le (abs_roundDiv_sub_le a hd)

/-- **Rounding keeps quotients in order.** -/
theorem roundDiv_le_roundDiv {a d a' d' : ℕ} (hd : 0 < d) (hd' : 0 < d') (h : a * d' ≤ a' * d) :
    roundDiv a d ≤ roundDiv a' d' := by
  have hquot : a / d ≤ a' / d' := by
    rw [Nat.le_div_iff_mul_le hd']
    refine Nat.le_of_mul_le_mul_right ?_ hd
    calc a / d * d' * d = a / d * d * d' := Nat.mul_right_comm _ _ _
      _ ≤ a * d' := Nat.mul_le_mul_right _ (Nat.div_mul_le_self a d)
      _ ≤ a' * d := h
  rcases hquot.lt_or_eq with hlt | heq
  · exact (roundDiv_le_div_add_one a d).trans (hlt.trans_le (div_le_roundDiv a' d'))
  -- with the same whole part the rests decide, and a half is rounded alike on both sides
  have hrest : a % d * d' ≤ a' % d' * d := by
    have hsplit : a * d' = a / d * (d * d') + a % d * d' := by
      conv_lhs => rw [← Nat.div_add_mod a d]
      ring
    have hsplit' : a' * d = a / d * (d * d') + a' % d' * d := by
      conv_lhs => rw [← Nat.div_add_mod a' d', ← heq]
      ring
    omega
  obtain ⟨hr, hk⟩ | ⟨hr, hk⟩ | ⟨hr, hk⟩ := roundDiv_cases a d
  · exact hk.trans_le (heq.trans_le (div_le_roundDiv a' d'))
  · have hpast : d' < 2 * (a' % d') := by nlinarith
    obtain ⟨hr', -⟩ | ⟨-, hk'⟩ | ⟨hr', -⟩ := roundDiv_cases a' d'
    · omega
    · omega
    · omega
  · have hhalf : d' ≤ 2 * (a' % d') := by nlinarith
    obtain ⟨hr', -⟩ | ⟨-, hk'⟩ | ⟨-, hk'⟩ := roundDiv_cases a' d'
    · omega
    · omega
    · rw [hk, hk', heq]

/-! ### Powers of two -/

/-- Shifting to the left by what is positive in an exponent and to the right by what is negative
is multiplying by its power of two. -/
theorem shift_div_shift (m : ℕ) (e : ℤ) :
    ((m <<< e.toNat : ℕ) : ℚ) / (1 <<< (-e).toNat : ℕ) = m * 2 ^ e := by
  rw [Nat.shiftLeft_eq, Nat.shiftLeft_eq, one_mul]
  push_cast
  rw [← zpow_natCast, ← zpow_natCast, mul_div_assoc, ← zpow_sub₀ two_ne_zero]
  congr 2
  omega

theorem one_shiftLeft_pos (n : ℕ) : 0 < 1 <<< n := by
  rw [Nat.shiftLeft_eq]
  positivity

/-- **No whole number of units is nearer.** -/
theorem roundScaled_nearest (scale m : ℕ) (e : ℤ) :
    NearestNat (scale * (m * 2 ^ e)) (roundScaled scale m e) := by
  have h := roundDiv_nearest ((m <<< e.toNat) * scale) (one_shiftLeft_pos (-e).toNat)
  rwa [Nat.cast_mul, mul_comm, mul_div_assoc, shift_div_shift] at h

/-- **A greater number has no fewer units.** -/
theorem roundScaled_le_roundScaled (scale : ℕ) {m m' : ℕ} {e e' : ℤ}
    (h : (m : ℚ) * 2 ^ e ≤ m' * 2 ^ e') : roundScaled scale m e ≤ roundScaled scale m' e' := by
  refine roundDiv_le_roundDiv (one_shiftLeft_pos _) (one_shiftLeft_pos _) ?_
  have hpos (n : ℕ) : (0 : ℚ) < (1 <<< n : ℕ) := by exact_mod_cast one_shiftLeft_pos n
  rw [← shift_div_shift, ← shift_div_shift, div_le_div_iff₀ (hpos _) (hpos _)] at h
  have hnat : (m <<< e.toNat) * 1 <<< (-e').toNat ≤ (m' <<< e'.toNat) * 1 <<< (-e).toNat := by
    exact_mod_cast h
  calc (m <<< e.toNat) * scale * 1 <<< (-e').toNat
      = (m <<< e.toNat) * 1 <<< (-e').toNat * scale := Nat.mul_right_comm _ _ _
    _ ≤ (m' <<< e'.toNat) * 1 <<< (-e).toNat * scale := Nat.mul_le_mul_right _ hnat
    _ = (m' <<< e'.toNat) * scale * 1 <<< (-e).toNat := Nat.mul_right_comm _ _ _

/-- How many units a number has depends on the number alone, not on how it is written. -/
theorem roundScaled_congr (scale : ℕ) {m m' : ℕ} {e e' : ℤ}
    (h : (m : ℚ) * 2 ^ e = m' * 2 ^ e') : roundScaled scale m e = roundScaled scale m' e' :=
  (roundScaled_le_roundScaled scale h.le).antisymm (roundScaled_le_roundScaled scale h.ge)

@[simp] theorem roundScaled_zero (m : ℕ) : roundScaled 1 m 0 = m := by
  show roundDiv (m <<< 0 * 1) (1 <<< 0) = m
  simp

/-! ### Bits shifted out -/

/-- After `n` bits are shifted out of a number, the round bit says that they are a half or more
of what they stand for, and the sticky bit that they are neither nothing nor just a half. -/
theorem exact_shiftRight (m n : ℕ) :
    ExtendedMantissa.ofMantissaAndAccuracy m .exact >>> n =
      ⟨m / 2 ^ n, decide (2 ^ n ≤ 2 * (m % 2 ^ n)),
        decide (m % 2 ^ n ≠ 0 ∧ 2 * (m % 2 ^ n) ≠ 2 ^ n)⟩ := by
  induction n with
  | zero =>
    show ExtendedMantissa.mk m false false = _
    simp [Nat.mod_one]
  | succ n ih =>
    -- the bit that goes out next stands above those that are out already
    have hrest : m % 2 ^ (n + 1) = m % 2 ^ n + 2 ^ n * (m / 2 ^ n % 2) := Nat.mod_pow_succ
    have hlt : m % 2 ^ n < 2 ^ n := Nat.mod_lt _ (by positivity)
    have hbit : m / 2 ^ n % 2 = 0 ∨ m / 2 ^ n % 2 = 1 := Nat.mod_two_eq_zero_or_one _
    show (ExtendedMantissa.ofMantissaAndAccuracy m .exact >>> n).shiftRightOne = _
    rw [ih, ExtendedMantissa.shiftRightOne, ExtendedMantissa.mk.injEq]
    refine ⟨by rw [Nat.div_div_eq_div_mul, pow_succ], ?_, ?_⟩
    · rw [hrest, pow_succ]
      rcases hbit with hbit | hbit <;> rw [hbit]
      · simp
        omega
      · simp
        omega
    · rw [hrest, pow_succ, ← Bool.decide_or]
      rcases hbit with hbit | hbit <;> rw [hbit, decide_eq_decide] <;> omega

/-- Bits that are shifted out are rounded as by a division. -/
theorem roundedMantissa_shiftRight (m n : ℕ) :
    (ExtendedMantissa.ofMantissaAndAccuracy m .exact >>> n).roundedMantissa =
      roundDiv m (2 ^ n) := by
  rw [exact_shiftRight]
  obtain ⟨hr, hk⟩ | ⟨hr, hk⟩ | ⟨hr, hk⟩ := roundDiv_cases m (2 ^ n)
  · by_cases hzero : m % 2 ^ n = 0
    · simp [hzero, hk, ExtendedMantissa.roundedMantissa, ExtendedMantissa.accuracy,
        Accuracy.roundToNearestEven]
    · have hround : ¬2 ^ n ≤ 2 * (m % 2 ^ n) := by omega
      have hsticky : m % 2 ^ n ≠ 0 ∧ 2 * (m % 2 ^ n) ≠ 2 ^ n := by omega
      rw [hk, decide_eq_false hround, decide_eq_true hsticky]
      rfl
  · have hround : 2 ^ n ≤ 2 * (m % 2 ^ n) := by omega
    have hsticky : m % 2 ^ n ≠ 0 ∧ 2 * (m % 2 ^ n) ≠ 2 ^ n := by omega
    rw [hk, decide_eq_true hround, decide_eq_true hsticky]
    rfl
  · have hround : 2 ^ n ≤ 2 * (m % 2 ^ n) := by omega
    have hsticky : ¬(m % 2 ^ n ≠ 0 ∧ 2 * (m % 2 ^ n) ≠ 2 ^ n) := by omega
    rw [hk, decide_eq_true hround, decide_eq_false hsticky]
    rfl

end Lightshow
