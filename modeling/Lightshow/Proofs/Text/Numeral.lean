import Mathlib.Data.List.Induction
import Lightshow.Proofs.Written.Text

/-!
# What is a numeral

A numeral of a number is its digits after any number of zeros.  Readers of whole numbers add up
digits and know of no zeros, so that they take numerals and nothing else is an induction on the
text from its end: one more digit is one more digit of the number, unless all before it are zeros.

## Main definitions

* `Numeral` — a text is a numeral of a number.
* `PlusNumeral` — the same, a plus sign being allowed.
* `SignedNumeral` — a sign and a numeral, with the number that they stand for.

## Main results

* `natural?_eq_some_iff` — **the numerals of a number are what is read as it.**
* `word?_eq_some_iff` — the same for numbers of so many bits, which may have a plus sign.
-/

namespace Lightshow.Text

/-- A numeral of a number: its digits, after as many zeros as one likes. -/
def Numeral (s : List Char) (n : ℕ) : Prop :=
  ∃ zeros, s = List.replicate zeros '0' ++ Nat.toDigits 10 n

/-- A numeral that a plus sign may precede. -/
def PlusNumeral (s : List Char) (n : ℕ) : Prop :=
  Numeral s n ∨ ∃ t, s = '+' :: t ∧ Numeral t n

/-- A sign and a numeral after it, with the number that they stand for. -/
inductive SignedNumeral : List Char → ℤ → Prop
  | plus {t : List Char} {n : ℕ} (h : Numeral t n) : SignedNumeral ('+' :: t) n
  | minus {t : List Char} {n : ℕ} (h : Numeral t n) : SignedNumeral ('-' :: t) (-n)

/-! ### Digits -/

theorem isDigit_of_digitValue? {c : Char} {d : ℕ} (h : digitValue? c = some d) : c.isDigit := by
  rw [digitValue?] at h
  split at h
  · next hrange => exact Char.isDigit_iff_toNat.mpr hrange
  · cases h

theorem isDigit_of_digits? {s : List Char} {ds : List ℕ} (h : digits? s = some ds) :
    ∀ c ∈ s, c.isDigit := by
  induction s generalizing ds with
  | nil => exact fun c hc => absurd hc List.not_mem_nil
  | cons c s ih =>
    rw [digits?, List.mapM_cons] at h
    obtain ⟨d, hd, h⟩ := Option.bind_eq_some_iff.mp h
    obtain ⟨ds', hds, -⟩ := Option.bind_eq_some_iff.mp h
    exact List.forall_mem_cons.mpr ⟨isDigit_of_digitValue? hd, ih hds⟩

/-- A text is read as a number if it holds digits and nothing else, and as the number that they
stand for. -/
theorem natural?_eq_some_iff_digits {s : List Char} {n : ℕ} :
    natural? s = some n ↔ s ≠ [] ∧ (∀ c ∈ s, c.isDigit) ∧ Nat.ofDigitChars 10 s 0 = n := by
  have hvalue : ∀ s : List Char,
      ofDigits 10 (s.map fun c => c.toNat - '0'.toNat) = Nat.ofDigitChars 10 s 0 := by
    intro s
    rw [ofDigits, List.foldl_map, Nat.ofDigitChars_eq_foldl]
  rw [natural?]
  cases s with
  | nil => simp
  | cons c s =>
    rw [List.isEmpty_cons, if_neg Bool.false_ne_true, Option.map_eq_some_iff]
    constructor
    · rintro ⟨ds, hds, rfl⟩
      have hdigits := isDigit_of_digits? hds
      rw [digits?_of_isDigit hdigits] at hds
      obtain rfl := Option.some.inj hds
      exact ⟨List.cons_ne_nil _ _, hdigits, (hvalue _).symm⟩
    · rintro ⟨-, hdigits, rfl⟩
      exact ⟨_, digits?_of_isDigit hdigits, hvalue _⟩

/-- A digit is the digit of its value. -/
theorem toDigits_of_isDigit {c : Char} (h : c.isDigit) : Nat.toDigits 10 (c.toNat - 48) = [c] := by
  obtain ⟨hge, hle⟩ := Char.isDigit_iff_toNat.mp h
  have h0 : '0'.toNat = 48 := rfl
  have h9 : '9'.toNat = 57 := rfl
  have hlt : c.toNat - 48 < 10 := by omega
  rw [Nat.toDigits_of_lt_base hlt]
  congr 1
  refine Char.toNat_inj.mp ?_
  rw [Nat.toNat_digitChar_of_lt_ten hlt]
  omega

/-! ### Numerals -/

/-- Digits are a numeral of the number that they stand for. -/
theorem numeral_of_isDigit {s : List Char} (hne : s ≠ []) (hdigits : ∀ c ∈ s, c.isDigit) :
    Numeral s (Nat.ofDigitChars 10 s 0) := by
  induction s using List.reverseRecOn with
  | nil => exact absurd rfl hne
  | append_singleton s c ih =>
    have hc : Nat.toDigits 10 (c.toNat - 48) = [c] := toDigits_of_isDigit (hdigits c (by simp))
    have hlt : c.toNat - 48 < 10 := by
      have hle := (Char.isDigit_iff_toNat.mp (hdigits c (by simp))).2
      have h9 : '9'.toNat = 57 := rfl
      omega
    have hvalue : Nat.ofDigitChars 10 (s ++ [c]) 0
        = 10 * Nat.ofDigitChars 10 s 0 + (c.toNat - 48) := by
      rw [Nat.ofDigitChars_append]
      rfl
    rw [hvalue]
    cases s with
    | nil =>
      refine ⟨0, ?_⟩
      rw [Nat.ofDigitChars_nil, Nat.mul_zero, Nat.zero_add, hc]
      rfl
    | cons d s =>
      obtain ⟨zeros, hs⟩ := ih (List.cons_ne_nil d s) fun e he =>
        hdigits e (List.mem_append_left _ he)
      rcases Nat.eq_zero_or_pos (Nat.ofDigitChars 10 (d :: s) 0) with hzero | hpos
      · -- all digits so far are zeros, and what is new is the number
        refine ⟨zeros + 1, ?_⟩
        rw [hzero] at hs ⊢
        rw [Nat.mul_zero, Nat.zero_add, hc, hs, Nat.toDigits_zero, ← List.replicate_succ']
      · refine ⟨zeros, ?_⟩
        rw [← Nat.toDigits_append_toDigits (by decide) hpos hlt, hc, ← List.append_assoc, ← hs]

/-- A numeral holds digits only, and they stand for the number. -/
theorem Numeral.digits {s : List Char} {n : ℕ} (h : Numeral s n) :
    s ≠ [] ∧ (∀ c ∈ s, c.isDigit) ∧ Nat.ofDigitChars 10 s 0 = n := by
  obtain ⟨zeros, rfl⟩ := h
  refine ⟨?_, fun c hc => ?_, ?_⟩
  · exact List.append_ne_nil_of_right_ne_nil _ Nat.toDigits_ne_nil
  · rcases List.mem_append.mp hc with hc | hc
    · rw [List.eq_of_mem_replicate hc]
      rfl
    · exact isDigit_of_mem_digits hc
  · rw [Nat.ofDigitChars_append, Nat.ofDigitChars_replicate_zero, Nat.mul_zero,
      Nat.ofDigitChars_toDigits (by decide) le_rfl]

/-- A numeral begins with a digit, and so it has no sign. -/
theorem not_numeral_cons {c : Char} {t : List Char} {n : ℕ} (hc : c.isDigit = false) :
    ¬Numeral (c :: t) n := by
  intro h
  have hdigit := h.digits.2.1 c List.mem_cons_self
  rw [hc] at hdigit
  exact Bool.false_ne_true hdigit

/-- **The numerals of a number are what is read as it.** -/
theorem natural?_eq_some_iff {s : List Char} {n : ℕ} : natural? s = some n ↔ Numeral s n := by
  rw [natural?_eq_some_iff_digits]
  constructor
  · rintro ⟨hne, hdigits, rfl⟩
    exact numeral_of_isDigit hne hdigits
  · exact Numeral.digits

theorem unsigned?_eq_some_iff {s : List Char} {n : ℕ} :
    unsigned? s = some n ↔ PlusNumeral s n := by
  unfold unsigned?
  split
  · next t =>
    have hsign : ¬Numeral ('+' :: t) n := fun h =>
      absurd (h.digits.2.1 '+' List.mem_cons_self) (by decide)
    rw [natural?_eq_some_iff, PlusNumeral]
    simp [hsign]
  · next hs =>
    rw [natural?_eq_some_iff]
    exact ⟨Or.inl, fun h => h.resolve_right fun ⟨t, ht, _⟩ => hs t ht⟩

/-- **Numerals of numbers of so many bits**, with or without a plus sign, are what is read. -/
theorem word?_eq_some_iff {bits : ℕ} {s : List Char} {n : ℕ} :
    word? bits s = some n ↔ n < 2 ^ bits ∧ PlusNumeral s n := by
  rw [word?, Option.filter_eq_some_iff, unsigned?_eq_some_iff, Nat.one_shiftLeft, decide_eq_true_iff]
  exact and_comm

end Lightshow.Text
