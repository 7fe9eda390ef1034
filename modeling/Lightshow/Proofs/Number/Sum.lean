import Lightshow.Proofs.Number.Rounding

/-!
# Sums of floats

The sum of two floats is their exact sum, rounded.  Since rounding keeps numbers in order, so does
adding: a sum does not shrink when one of its parts grows.  A sum that is too large for a float is
infinite, and that is the one case that is set apart here.

## Main results

* `isRounded_float_add` — **a finite sum is what the exact sum is rounded to.**
* `floatValue_add_le` — **adding keeps floats in order.**
-/

namespace Lightshow

open Float.Model (UnpackedFloat Format)
open Float.Model.UnpackedFloat

theorem cast_apply_mul (s : Sign) (n : ℕ) (q : ℚ) :
    ((s.apply n : ℤ) : ℚ) * q = signed s (n * q) := by
  cases s with
  | positive => rfl
  | negative =>
    show ((-(n : ℤ) : ℤ) : ℚ) * q = -(n * q)
    rw [Int.cast_neg, neg_mul, Int.cast_natCast]

/-- A number brought to a smaller exponent is the same. -/
theorem apply_decreased (s : Sign) (m : ℕ) {e t : ℤ} (ht : t ≤ e) :
    ((s.apply (m <<< (e - t).toNat : ℕ) : ℤ) : ℚ) * 2 ^ t = signed s (m * 2 ^ e) := by
  have hwide := widened_value m e (e - t).toNat
  rw [show e - ((e - t).toNat : ℤ) = t by omega] at hwide
  rw [cast_apply_mul, hwide]

/-- **The sum of two numbers is what their exact sum is rounded to.** -/
theorem isRounded_add {a b : UnpackedFloat} (ha : CanonicalFloat a) (hb : CanonicalFloat b)
    (hfa : a.isFinite = true) (hfb : b.isFinite = true) :
    IsRounded (unpackedValue a + unpackedValue b) (UnpackedFloat.add Format.binary64 a b) := by
  cases a with
  | zero s =>
    rw [show unpackedValue (.zero s) = 0 from rfl, zero_add]
    cases b with
    | zero s' => cases s <;> cases s' <;> exact isRounded_zero _
    | finite s' m' e' hm' => exact isRounded_self hb hfb
    | _ => exact absurd hfb nofun
  | finite s m e hm =>
    cases b with
    | zero s' =>
      rw [show unpackedValue (.zero s') = 0 from rfl, add_zero]
      exact isRounded_self ha hfa
    | finite s' m' e' hm' =>
      -- both are brought to the smaller exponent, where their mantissas are added
      have hsum := isRounded_normalize
        (s.apply (m <<< (e - min e e').toNat : ℕ) + s'.apply (m' <<< (e' - min e e').toNat : ℕ))
        (min e e') .positive
      rw [Int.cast_add, add_mul, apply_decreased s m (min_le_left e e'),
        apply_decreased s' m' (min_le_right e e')] at hsum
      exact hsum
    | _ => exact absurd hfb nofun
  | _ => exact absurd hfa nofun

/-- **A finite sum of floats is what their exact sum is rounded to.** -/
theorem isRounded_float_add {x y : Float} (hx : x.isFinite = true) (hy : y.isFinite = true)
    (hs : (x + y).isFinite = true) :
    IsRounded (floatValue x + floatValue y) (x + y).toModel.unpack := by
  have hsum := isRounded_add (canonicalFloat_toModel x) (canonicalFloat_toModel y) hx hy
  have hread : (x + y).toModel.unpack = unpack Format.binary64 (pack Format.binary64
      (UnpackedFloat.add Format.binary64 x.toModel.unpack y.toModel.unpack)) := rfl
  rcases unpack_pack hsum.canonical with hsame | ⟨s, m, e, hm, -, -, hinf⟩
  · rw [hread, hsame]
    exact hsum
  · have hfinite : (x + y).toModel.unpack.isFinite = true := hs
    rw [hread, hinf] at hfinite
    exact absurd hfinite nofun

/-- **Adding keeps floats in order, as long as the sums are finite.** -/
theorem floatValue_add_le {x x' y y' : Float} (hx : x.isFinite = true) (hx' : x'.isFinite = true)
    (hy : y.isFinite = true) (hy' : y'.isFinite = true) (hxx : x ≤ x') (hyy : y ≤ y')
    (hs : (x + y).isFinite = true) (hs' : (x' + y').isFinite = true) :
    floatValue (x + y) ≤ floatValue (x' + y') :=
  (isRounded_float_add hx hy hs).value.mono (isRounded_float_add hx' hy' hs').value
    (add_le_add (floatValue_le hx hx' hxx) (floatValue_le hy hy' hyy))

end Lightshow
