import Lightshow.Proofs.Number.Nearest
import Lightshow.Proofs.Validity.Step

/-!
# What floats stand for

A float that is neither infinite nor no number at all stands for a whole number times a power of
two.  The comparison of floats looks at the exponents before it looks at the mantissas, and that
it orders floats by what they stand for is due to their canonical form: the mantissa has 53 bits,
or fewer and then the exponent is the least there is.

## Main definitions

* `unpackedValue`, `floatValue` — what a number stands for.
* `Canonical`, `CanonicalFloat` — the canonical form.

## Main results

* `canonicalFloat_unpack` — what is read from bits is in canonical form.
* `unpack_pack` — **what is in canonical form is written and read back as it is, or as infinite.**
* `floatValue_le` — **floats that are in order stand for numbers in the same order.**
-/

namespace Lightshow

open Float.Model (UnpackedFloat Format)
open Float.Model.UnpackedFloat

/-- A rational number with a sign put before it. -/
def signed : Sign → ℚ → ℚ
  | .positive, q => q
  | .negative, q => -q

/-- What a number stands for.  What is infinite or no number counts as nothing. -/
def unpackedValue : UnpackedFloat → ℚ
  | .finite s m e _ => signed s (m * 2 ^ e)
  | _ => 0

/-- What a float stands for. -/
def floatValue (x : Float) : ℚ := unpackedValue x.toModel.unpack

/-- A mantissa has 53 bits, or fewer with the least exponent. -/
structure Canonical (m : ℕ) (e : ℤ) : Prop where
  lt : m < 2 ^ 53
  le : -1074 ≤ e
  full : 2 ^ 52 ≤ m ∨ e = -1074

/-- A number is in canonical form. -/
def CanonicalFloat : UnpackedFloat → Prop
  | .finite _ m e _ => Canonical m e
  | _ => True

/-! ### Bits -/

/-- The bit that is not written stands before those that are. -/
theorem toNat_implicit (m : BitVec 52) : (1#1 ++ m).toNat = 2 ^ 52 + m.toNat := by
  rw [BitVec.toNat_append, ← Nat.shiftLeft_add_eq_or_of_lt m.isLt]
  rfl

@[simp] theorem unpackSign_packComponents {spec : Format} {s : Sign}
    {e : BitVec spec.exponentBits} {m : BitVec spec.mantissaBitsWithoutImplicit} :
    unpackSign (packComponents spec s e m) = s.toBitVec := by
  apply BitVec.eq_of_getLsbD_eq
  intro i hi
  obtain rfl : i = 0 := by omega
  delta unpackSign packComponents
  simp [BitVec.getLsbD_append, BitVec.getElem_append]

@[simp] theorem Sign.ofBitVec_toBitVec (s : Sign) : Sign.ofBitVec s.toBitVec = s := by
  cases s <;> rfl

/-- With nothing for an exponent the mantissa is read as it is. -/
theorem unpack_of_exponent_zero {b : BitVec Format.binary64.numBits} {s : Sign} {m : ℕ}
    (hs : Sign.ofBitVec (unpackSign b) = s) (hm : (unpackMantissa b).toNat = m)
    (he : unpackExponent b = 0#11) (hpos : 0 < m) :
    unpack Format.binary64 b = .finite s m (-1074) hpos := by
  have hne : unpackMantissa b ≠ 0#52 := by
    intro h
    rw [h] at hm
    exact hpos.ne hm
  have hinf : unpackExponent b ≠ -1#11 := by
    rw [he]
    decide
  unfold unpack
  rw [if_neg hinf, if_pos he, dif_neg hne, UnpackedFloat.finite.injEq, he]
  exact ⟨hs, hm, rfl⟩

/-- With any other exponent one more bit stands before the mantissa. -/
theorem unpack_of_exponent_pos {b : BitVec Format.binary64.numBits} {s : Sign} {m e : ℕ}
    (hs : Sign.ofBitVec (unpackSign b) = s) (hm : 2 ^ 52 + (unpackMantissa b).toNat = m)
    (he : (unpackExponent b).toNat = e) (hpos : 0 < e) (hlt : e < 2047) :
    unpack Format.binary64 b = .finite s m (e - 1075) (by omega) := by
  have hne (k : BitVec 11) (hk : k.toNat ≠ e) : unpackExponent b ≠ k := by
    rintro rfl
    exact hk he
  have hinf : unpackExponent b ≠ -1#11 := hne _ (show 2047 ≠ e from hlt.ne')
  have hzero : unpackExponent b ≠ 0#11 := hne _ (show 0 ≠ e from hpos.ne)
  unfold unpack
  rw [if_neg hinf, if_neg hzero, UnpackedFloat.finite.injEq, he]
  exact ⟨hs, (toNat_implicit _).trans hm, rfl⟩

/-- What is read from bits is in canonical form. -/
theorem canonicalFloat_unpack (b : BitVec Format.binary64.numBits) :
    CanonicalFloat (unpack Format.binary64 b) := by
  have hm : (unpackMantissa b).toNat < 2 ^ 52 := (unpackMantissa b).isLt
  have he : (unpackExponent b).toNat < 2 ^ 11 := (unpackExponent b).isLt
  by_cases hinf : unpackExponent b = -1#11
  · unfold unpack
    rw [if_pos hinf]
    by_cases hzero : unpackMantissa b = 0#52
    · rw [if_pos hzero]
      trivial
    · rw [if_neg hzero]
      trivial
  by_cases hexp : unpackExponent b = 0#11
  · by_cases hzero : unpackMantissa b = 0#52
    · unfold unpack
      rw [if_neg hinf, if_pos hexp, dif_pos hzero]
      trivial
    · have hpos : 0 < (unpackMantissa b).toNat :=
        Nat.pos_of_ne_zero fun h => hzero (BitVec.eq_of_toNat_eq h)
      rw [unpack_of_exponent_zero rfl rfl hexp hpos]
      exact ⟨by omega, le_rfl, .inr rfl⟩
  · have hpos : (unpackExponent b).toNat ≠ 0 := fun h => hexp (BitVec.eq_of_toNat_eq h)
    have hlt : (unpackExponent b).toNat ≠ 2047 := fun h => hinf (BitVec.eq_of_toNat_eq h)
    rw [unpack_of_exponent_pos rfl rfl rfl (by omega) (by omega)]
    exact ⟨by omega, by omega, .inl (by omega)⟩

theorem canonicalFloat_toModel (x : Float) : CanonicalFloat x.toModel.unpack :=
  canonicalFloat_unpack _

/-- Numbers with fewer than 53 bits are written with nothing for an exponent. -/
theorem unpack_subnormal (s : Sign) {m : ℕ} (hpos : 0 < m) (hm : m < 2 ^ 52) :
    unpack Format.binary64 (packComponents Format.binary64 s 0#11 (BitVec.ofNat 52 m)) =
      .finite s m (-1074) hpos := by
  refine unpack_of_exponent_zero ?_ ?_ unpackExponent_packComponents hpos
  · rw [unpackSign_packComponents, Sign.ofBitVec_toBitVec]
  · rw [unpackMantissa_packComponents, BitVec.toNat_ofNat, Nat.mod_eq_of_lt hm]

/-- Numbers with 53 bits are written without the first of them. -/
theorem unpack_normal (s : Sign) {m e : ℕ} (hm : 2 ^ 52 ≤ m) (hm' : m < 2 ^ 53) (he : 0 < e)
    (he' : e < 2047) :
    unpack Format.binary64
        (packComponents Format.binary64 s (BitVec.ofNat 11 e) (BitVec.ofNat 52 m)) =
      .finite s m (e - 1075) (by omega) := by
  refine unpack_of_exponent_pos ?_ ?_ ?_ he he'
  · rw [unpackSign_packComponents, Sign.ofBitVec_toBitVec]
  · rw [unpackMantissa_packComponents, BitVec.toNat_ofNat]
    show 2 ^ 52 + m % 2 ^ 52 = m
    omega
  · rw [unpackExponent_packComponents, BitVec.toNat_ofNat]
    exact Nat.mod_eq_of_lt (show e < 2 ^ 11 by omega)

/-- **What is in canonical form is written and read back as it is, or as infinite if it is too
large.** -/
theorem unpack_pack {x : UnpackedFloat} (hx : CanonicalFloat x) :
    unpack Format.binary64 (pack Format.binary64 x) = x ∨
      ∃ s m e h, x = .finite s m e h ∧ 971 < e ∧
        unpack Format.binary64 (pack Format.binary64 x) = .infinity s := by
  cases x with
  | notANumber => exact .inl (by rfl)
  | infinity s => cases s <;> exact .inl (by rfl)
  | zero s => cases s <;> exact .inl (by rfl)
  | finite s m e hpos =>
    have hlow : -1074 ≤ e := hx.le
    by_cases hlarge : 971 < e
    · have hinf : pack Format.binary64 (.finite s m e hpos) = packedInfinity Format.binary64 s :=
        if_pos (show 2 ^ 11 ≤ (e + (1023 : ℕ) + (52 : ℕ)).toNat + 1 by omega)
      refine .inr ⟨s, m, e, hpos, rfl, hlarge, ?_⟩
      rw [hinf]
      cases s <;> rfl
    left
    -- the exponent can be written, and whether it is depends on the first bit of the mantissa
    have hfits : ¬2 ^ 11 ≤ (e + (1023 : ℕ) + (52 : ℕ)).toNat + 1 := by omega
    by_cases hfull : 2 ^ 52 ≤ m
    · have hlog : m.log2 = 52 := (Nat.log2_eq_iff hpos.ne').mpr ⟨hfull, hx.lt⟩
      have hpack : pack Format.binary64 (.finite s m e hpos) =
          packComponents Format.binary64 s (BitVec.ofNat 11 (e + (1023 : ℕ) + (52 : ℕ)).toNat)
            (BitVec.ofNat 52 m) :=
        (if_neg hfits).trans (if_pos (show m.log2 + 1 = 53 by omega))
      rw [hpack, unpack_normal s hfull hx.lt (by omega) (by omega), UnpackedFloat.finite.injEq]
      exact ⟨rfl, rfl, by omega⟩
    · have hlog : m.log2 < 52 := (Nat.log2_lt hpos.ne').mpr (by omega)
      have hpack : pack Format.binary64 (.finite s m e hpos) =
          packComponents Format.binary64 s 0#11 (BitVec.ofNat 52 m) :=
        (if_neg hfits).trans (if_neg (show ¬m.log2 + 1 = 53 by omega))
      obtain rfl : e = -1074 := hx.full.resolve_left hfull
      rw [hpack, unpack_subnormal s hpos (by omega)]

/-! ### Order -/

theorem magnitude_pos {m : ℕ} (hm : 0 < m) (e : ℤ) : (0 : ℚ) < m * 2 ^ e := by
  have hmq : (0 : ℚ) < m := by exact_mod_cast hm
  positivity

/-- A number with a greater exponent is greater, whatever the mantissas are. -/
theorem Canonical.lt_of_exponent_lt {m m' : ℕ} {e e' : ℤ} (h : Canonical m e)
    (h' : Canonical m' e') (he : e < e') : (m : ℚ) * 2 ^ e < m' * 2 ^ e' := by
  -- only the least exponent is used with fewer bits, and `e'` is not the least
  have hfull : 2 ^ 52 ≤ m' := h'.full.resolve_right (by have := h.le; omega)
  have hlt : (m : ℚ) < 2 ^ 53 := by exact_mod_cast h.lt
  have hle : (2 : ℚ) ^ 52 ≤ m' := by exact_mod_cast hfull
  have hstep : (2 : ℚ) ^ (e + 1) ≤ 2 ^ e' := zpow_le_zpow_right₀ one_le_two (by omega)
  calc (m : ℚ) * 2 ^ e < 2 ^ 53 * 2 ^ e := mul_lt_mul_of_pos_right hlt (by positivity)
    _ = 2 ^ 52 * 2 ^ (e + 1) := by rw [zpow_add_one₀ two_ne_zero]; ring
    _ ≤ m' * 2 ^ e' := by gcongr

/-- Exponents first and mantissas second is the order of what numbers stand for. -/
theorem Canonical.le_of_compare {m m' : ℕ} {e e' : ℤ} (h : Canonical m e)
    (h' : Canonical m' e') (hle : ((compare e e').then (compare m m')).isLE = true) :
    (m : ℚ) * 2 ^ e ≤ m' * 2 ^ e' := by
  rcases lt_trichotomy e e' with hlt | rfl | hgt
  · exact (h.lt_of_exponent_lt h' hlt).le
  · rw [Std.compare_self, Ordering.eq_then, Nat.isLE_compare] at hle
    have hmq : (m : ℚ) ≤ m' := by exact_mod_cast hle
    gcongr
  · rw [Int.compare_eq_gt.mpr hgt] at hle
    exact absurd hle nofun

/-- **Finite numbers that are in order stand for rational numbers in the same order.** -/
theorem unpackedValue_le {a b : UnpackedFloat} (ha : CanonicalFloat a) (hb : CanonicalFloat b)
    (hfa : a.isFinite = true) (hfb : b.isFinite = true)
    (h : (a.compare b).any (·.isLE) = true) : unpackedValue a ≤ unpackedValue b := by
  cases a with
  | zero s =>
    cases b with
    | zero s' => exact le_rfl
    | finite s' m' e' hm' =>
      cases s' with
      | positive => exact (magnitude_pos hm' e').le
      | negative => exact absurd h nofun
    | _ => exact absurd hfb nofun
  | finite s m e hm =>
    cases b with
    | zero s' =>
      cases s with
      | positive => exact absurd h nofun
      | negative => exact neg_nonpos.mpr (magnitude_pos hm e).le
    | finite s' m' e' hm' =>
      cases s with
      | positive =>
        cases s' with
        | positive => exact ha.le_of_compare hb h
        | negative => exact absurd h nofun
      | negative =>
        cases s' with
        | positive =>
          exact (neg_nonpos.mpr (magnitude_pos hm e).le).trans (magnitude_pos hm' e').le
        | negative =>
          -- below zero the order of the sizes is reversed
          have hswap := Option.some.inj
            (unpacked_compare_swap (.finite .positive m e hm) (.finite .positive m' e' hm'))
          exact neg_le_neg (hb.le_of_compare ha ((congrArg Ordering.isLE hswap).trans h))
    | _ => exact absurd hfb nofun
  | _ => exact absurd hfa nofun

/-- Finite floats that are in order stand for rational numbers in the same order. -/
theorem floatValue_le {x y : Float} (hx : x.isFinite = true) (hy : y.isFinite = true)
    (h : x ≤ y) : floatValue x ≤ floatValue y :=
  unpackedValue_le (canonicalFloat_toModel x) (canonicalFloat_toModel y) hx hy (float_le_iff.mp h)

/-- What lies between finite numbers is finite. -/
theorem isFinite_of_le_of_le {x y z : Float} (hx : x.isFinite = true) (hz : z.isFinite = true)
    (hxy : x ≤ y) (hyz : y ≤ z) : y.isFinite = true := by
  rw [float_le_iff] at hxy hyz
  have hfx : x.toModel.unpack.isFinite = true := hx
  have hfz : z.toModel.unpack.isFinite = true := hz
  show y.toModel.unpack.isFinite = true
  generalize x.toModel.unpack = a at *
  generalize y.toModel.unpack = b at *
  generalize z.toModel.unpack = c at *
  cases b with
  | infinity s =>
    cases s with
    | positive =>
      cases c with
      | finite s' => cases s' <;> exact absurd hyz nofun
      | zero s' => exact absurd hyz nofun
      | _ => exact absurd hfz nofun
    | negative =>
      cases a with
      | finite s' => cases s' <;> exact absurd hxy nofun
      | zero s' => exact absurd hxy nofun
      | _ => exact absurd hfx nofun
  | notANumber => cases c <;> exact absurd hyz nofun
  | _ => rfl

end Lightshow
