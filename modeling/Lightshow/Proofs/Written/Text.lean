import Mathlib.Data.List.DropRight
import Mathlib.Tactic.IntervalCases
import Lightshow.State.Brightness

/-!
# Texts that are read back

Numbers are written as texts, and steps of brightness as numbers with a sign.  Here we see that
each is read back as what it was.  The decimal digits of a number are a numeral that stands for
it; they hold no sign and no blank, and only zero has a leading zero.

## Main results

* `natural?_toDigits` — the digits of a number stand for it.
* `trim_eq_self_iff` — which texts have no outer blanks.
* `Brightness.read_text` — a step of brightness is read back.
-/

namespace Lightshow

namespace Text

/-! ### Digits -/

theorem digitValue?_of_isDigit {c : Char} (h : c.isDigit) :
    digitValue? c = some (c.toNat - '0'.toNat) := by
  have hrange : '0' ≤ c ∧ c ≤ '9' := Char.isDigit_iff_toNat.mp h
  exact if_pos hrange

/-- A text of digits is read digit by digit. -/
theorem digits?_of_isDigit {s : List Char} (h : ∀ c ∈ s, c.isDigit) :
    digits? s = some (s.map fun c => c.toNat - '0'.toNat) := by
  unfold digits?
  induction s with
  | nil => rfl
  | cons c s ih =>
    rw [List.mapM_cons, digitValue?_of_isDigit (h c List.mem_cons_self),
      ih fun d hd => h d (List.mem_cons_of_mem c hd)]
    rfl

theorem isDigit_of_mem_digits {n : Nat} {c : Char} (h : c ∈ Nat.toDigits 10 n) : c.isDigit :=
  Nat.isDigit_of_mem_toDigits (by decide) le_rfl h

/-- The digits of a number stand for it. -/
theorem natural?_toDigits (n : Nat) : natural? (Nat.toDigits 10 n) = some n := by
  have hne : (Nat.toDigits 10 n).isEmpty = false := by
    simp [List.isEmpty_eq_false_iff, Nat.toDigits_ne_nil]
  have hvalue : ofDigits 10 ((Nat.toDigits 10 n).map fun c => c.toNat - '0'.toNat) = n := by
    rw [ofDigits, List.foldl_map, ← Nat.ofDigitChars_eq_foldl,
      Nat.ofDigitChars_toDigits (by decide) le_rfl]
  rw [natural?, hne, digits?_of_isDigit fun c hc => isDigit_of_mem_digits hc]
  simp only [Bool.false_eq_true, if_false, Option.map_some, hvalue]

/-- Only the digits of zero begin with a zero. -/
theorem head?_toDigits_ne_zero {n : Nat} (h : 0 < n) : (Nat.toDigits 10 n).head? ≠ some '0' := by
  induction n using Nat.strongRecOn with
  | ind n ih =>
    rcases Nat.lt_or_ge n 10 with hlt | hge
    · rw [Nat.toDigits_of_lt_base hlt]
      interval_cases n <;> decide
    · rw [Nat.toDigits_of_base_le (by decide) hge,
        List.head?_append_of_ne_nil _ Nat.toDigits_ne_nil]
      exact ih (n / 10) (by omega) (by omega)

/-- Digits begin with no sign. -/
theorem head?_toDigits_isDigit {n : Nat} {c : Char} (h : (Nat.toDigits 10 n).head? = some c) :
    c.isDigit :=
  isDigit_of_mem_digits (List.mem_of_mem_head? h)

theorem unsigned?_toDigits (n : Nat) : unsigned? (Nat.toDigits 10 n) = some n := by
  unfold unsigned?
  split
  · next s hs =>
    have hplus : '+'.isDigit := head?_toDigits_isDigit (n := n) (by rw [hs]; rfl)
    exact absurd hplus (by decide)
  · exact natural?_toDigits n

theorem signed?_plus (n : Nat) : signed? ('+' :: Nat.toDigits 10 n) = some (n : Int) := by
  show (natural? (Nat.toDigits 10 n)).map Int.ofNat = some (n : Int)
  rw [natural?_toDigits]
  rfl

theorem signed?_minus (n : Nat) : signed? ('-' :: Nat.toDigits 10 n) = some (-(n : Int)) := by
  show (natural? (Nat.toDigits 10 n)).map (fun n => -(n : Int)) = some (-(n : Int))
  rw [natural?_toDigits]
  rfl

/-- A number that is small enough either way fits. -/
theorem fitsSigned_of_lt {bits : Nat} {k : Int} (h : k.natAbs < 2 ^ (bits - 1)) :
    fitsSigned bits k = true := by
  cases k with
  | ofNat n =>
    simp only [Int.ofNat_eq_natCast, Int.natAbs_natCast] at h
    simp only [fitsSigned, Nat.one_shiftLeft, h, decide_true]
  | negSucc n =>
    simp only [Int.natAbs_negSucc] at h
    simp only [fitsSigned, Nat.one_shiftLeft, decide_eq_true_eq]
    omega

/-- What is read as a number of any size is read as one of so many bits, if it fits. -/
theorem integer?_of_signed? {bits : Nat} {s : List Char} {k : Int} (hs : signed? s = some k)
    (h : k.natAbs < 2 ^ (bits - 1)) : integer? bits s = some k := by
  rw [integer?, hs]
  exact Option.filter_some_pos (fitsSigned_of_lt h)

theorem toList_toString (n : Nat) : (toString n).toList = Nat.toDigits 10 n := by
  rw [Nat.toString_eq_ofList_toDigits, String.toList_ofList]

/-! ### Blanks -/

theorem not_isBlank_of_isDigit {c : Char} (h : c.isDigit) : isBlank c = false := by
  have hrange := Char.isDigit_iff_toNat.mp h
  have h0 : '0'.toNat = 48 := rfl
  have h9 : '9'.toNat = 57 := rfl
  rw [h0, h9] at hrange
  obtain ⟨hge, hle⟩ := hrange
  -- the blanks of ASCII stand below the digits, all others far above
  simp only [isBlank, Bool.or_eq_false_iff, Bool.and_eq_false_iff, beq_eq_false_iff_ne,
    decide_eq_false_iff_not]
  omega

/-- A text that begins and ends with no blank is its own trimmed text. -/
theorem trim_eq_self {s : List Char} (hhead : ∀ c ∈ s.head?, isBlank c = false)
    (hlast : ∀ c ∈ s.getLast?, isBlank c = false) : trim s = s := by
  have hstart : trimStart s = s := by
    cases s with
    | nil => rfl
    | cons c s => exact List.dropWhile_cons_of_neg (by simp [hhead c rfl])
  have hend : trimEnd s = s := by
    rw [← List.head?_reverse] at hlast
    rw [trimEnd]
    cases hs : s.reverse with
    | nil => rw [List.reverse_eq_nil_iff.mp hs]; rfl
    | cons c r =>
      rw [hs] at hlast
      rw [List.dropWhile_cons_of_neg (by simp [hlast c rfl]), ← hs, List.reverse_reverse]
  rw [trim, hstart, hend]

theorem trimEnd_prefix (s : List Char) : trimEnd s <+: s := List.rdropWhile_prefix isBlank s

/-- A trimmed text begins with no blank. -/
theorem head?_trim (s : List Char) : ∀ c ∈ (trim s).head?, isBlank c = false := by
  intro c hc
  obtain ⟨t, ht⟩ := trimEnd_prefix (trimStart s)
  have hhead : (s.dropWhile isBlank).head? = some c := by
    rw [← trimStart, ← ht]
    exact List.mem_head?_append_of_mem_head? hc
  have hnot := List.head?_dropWhile_not isBlank s
  rw [hhead] at hnot
  exact hnot

/-- A trimmed text ends with no blank. -/
theorem getLast?_trim (s : List Char) : ∀ c ∈ (trim s).getLast?, isBlank c = false := by
  intro c hc
  rw [trim, trimEnd, List.getLast?_reverse] at hc
  have hnot := List.head?_dropWhile_not isBlank (trimStart s).reverse
  rw [Option.mem_def.mp hc] at hnot
  exact hnot

/-- A text is its own trimmed text just when it begins and ends with no blank. -/
theorem trim_eq_self_iff {s : List Char} :
    trim s = s ↔ (∀ c ∈ s.head?, isBlank c = false) ∧ ∀ c ∈ s.getLast?, isBlank c = false := by
  constructor
  · intro h
    have hhead := head?_trim s
    have hlast := getLast?_trim s
    rw [h] at hhead hlast
    exact ⟨hhead, hlast⟩
  · exact fun h => trim_eq_self h.1 h.2

theorem trim_trim (s : List Char) : trim (trim s) = trim s :=
  trim_eq_self (head?_trim s) (getLast?_trim s)

/-- A sign or a mark before digits makes a text without outer blanks. -/
theorem trim_cons_toDigits {c : Char} (hc : isBlank c = false) (n : Nat) :
    trim (c :: Nat.toDigits 10 n) = c :: Nat.toDigits 10 n := by
  refine trim_eq_self (fun d hd => ?_) fun d hd => ?_
  · obtain rfl := Option.some.inj hd
    exact hc
  · rw [List.getLast?_cons_of_ne_nil Nat.toDigits_ne_nil] at hd
    exact not_isBlank_of_isDigit (isDigit_of_mem_digits (List.mem_of_getLast? hd))

end Text

open Text

/-! ### Brightness -/

namespace Brightness

/-- A step shows its sign, and then its size. -/
theorem toList_text_step (n : Int) :
    (Brightness.step n).text.toList
      = (if n < 0 then '-' else '+') :: Nat.toDigits 10 n.natAbs := by
  rw [text, String.toList_append, toList_toString]
  split <;> rfl

theorem signed?_text_step (n : Int) : signed? (Brightness.step n).text.toList = some n := by
  rw [toList_text_step]
  split
  · rw [signed?_minus]
    congr 1
    omega
  · rw [signed?_plus]
    congr 1
    omega

/-- A step that is not too great fits the word that it is read as. -/
theorem lt_of_le_top {n : Int} (h : n.natAbs ≤ top) : n.natAbs < 2 ^ (16 - 1) :=
  Nat.lt_of_le_of_lt h (by decide)

/-- A step is read back. -/
theorem read_text {n : Int} (h : n.natAbs ≤ top) :
    Brightness.read (Brightness.step n).text = .ok (.step n) := by
  have hstep : step? n = some (.step n) := if_pos h
  have hsigned := integer?_of_signed? (signed?_text_step n) (lt_of_le_top h)
  have hof : ofTrimmed? (trim (Brightness.step n).text.toList) = some (.step n) := by
    rw [toList_text_step] at hsigned ⊢
    -- the sign makes it a step, whichever sign it is
    by_cases hn : n < 0
    · rw [if_pos hn] at hsigned ⊢
      rw [trim_cons_toDigits rfl]
      show (integer? 16 _).bind step? = _
      rw [hsigned, Option.bind_some, hstep]
    · rw [if_neg hn] at hsigned ⊢
      rw [trim_cons_toDigits rfl]
      show (integer? 16 _).bind step? = _
      rw [hsigned, Option.bind_some, hstep]
  rw [Brightness.read, hof]

end Brightness

end Lightshow
