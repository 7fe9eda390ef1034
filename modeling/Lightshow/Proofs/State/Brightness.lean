import Lightshow.Proofs.Text.Numeral

/-!
# Which texts are a brightness

A text without a sign is a level, and a text with one is a step.  Either is first read as a number
of so many bits and then compared with the greatest brightness, so a number can be too great in two
ways.  The two are not told apart: every brightness fits its word with room to spare, and what does
not fit the word is refused like what is no numeral at all.

So the widths are never seen.  A text is a brightness just if, without its outer blanks, it is a
numeral of at most 254, or a sign and such a numeral.  A numeral may have any number of digits; it
is read as the number that it stands for, or not at all.

## Main definitions

* `Brightness.Spelled` — a text without outer blanks is a level or a step.

## Main results

* `signed?_eq_some_iff` — which texts are read as signed numbers.
* `Brightness.read_exactly` — **which texts are levels, which are steps, and what the others are
  refused with.**
-/

namespace Lightshow

open Text

/-! ### Signed numerals -/

namespace Text

/-- **What is read as a signed number** is a numeral, with a sign or without. -/
theorem signed?_eq_some_iff {s : List Char} {k : ℤ} :
    signed? s = some k ↔ SignedNumeral s k ∨ ∃ n : ℕ, k = n ∧ Numeral s n := by
  unfold signed?
  split
  · next t =>
    constructor
    · intro h
      cases hn : natural? t with
      | none =>
        rw [hn] at h
        cases h
      | some n =>
        rw [hn] at h
        obtain rfl := Option.some.inj h
        exact .inl (.minus (natural?_eq_some_iff.mp hn))
    · rintro (h | ⟨n, -, hn⟩)
      · cases h with
        | minus hn =>
          rw [natural?_eq_some_iff.mpr hn]
          rfl
      · exact absurd hn (not_numeral_cons rfl)
  · next hminus =>
    simp only [Option.map_eq_some_iff, unsigned?_eq_some_iff]
    constructor
    · rintro ⟨n, hn | ⟨t, rfl, hn⟩, rfl⟩
      · exact .inr ⟨n, rfl, hn⟩
      · exact .inl (.plus hn)
    · rintro (h | ⟨n, rfl, hn⟩)
      · cases h with
        | plus hn => exact ⟨_, .inr ⟨_, rfl, hn⟩, rfl⟩
        | minus hn => exact absurd rfl (hminus _)
      · exact ⟨n, .inl hn, rfl⟩

/-- A text with a sign in front stands for a number only with its sign. -/
theorem signed?_cons_eq_some_iff {c : Char} {t : List Char} {k : ℤ} (hc : c.isDigit = false) :
    signed? (c :: t) = some k ↔ SignedNumeral (c :: t) k := by
  rw [signed?_eq_some_iff]
  exact or_iff_left fun ⟨n, _, hn⟩ => not_numeral_cons hc hn

end Text

/-! ### Numbers as brightness -/

namespace Brightness

theorem step?_eq_some_iff {k : ℤ} {b : Brightness} :
    step? k = some b ↔ k.natAbs ≤ top ∧ b = .step k := by
  unfold step?
  split
  · next h => simp [h, eq_comm]
  · next h => simp [h]

theorem level?_eq_some_iff {k : ℤ} {b : Brightness} :
    level? k = some b ↔ ∃ n : UInt8, k = n.toNat ∧ n.toNat ≤ top ∧ b = .level n := by
  unfold level?
  constructor
  · intro h
    split at h
    · next hk =>
      obtain rfl := Option.some.inj h
      have hlt : k.toNat < 2 ^ 8 := by
        have htop : top = 254 := rfl
        omega
      have hn : (UInt8.ofNat k.toNat).toNat = k.toNat := UInt8.toNat_ofNat_of_lt' hlt
      refine ⟨_, ?_, ?_, rfl⟩
      · omega
      · omega
    · cases h
  · rintro ⟨n, rfl, hn, rfl⟩
    rw [if_pos ⟨Int.natCast_nonneg _, Int.ofNat_le.mpr hn⟩, Int.toNat_natCast, UInt8.ofNat_toNat]

/-- The width of the word that a step is read as is not seen. -/
theorem integer?_bind_step? {t : List Char} {b : Brightness} :
    (integer? 16 t).bind step? = some b ↔
      ∃ k, signed? t = some k ∧ k.natAbs ≤ top ∧ b = .step k := by
  simp only [Option.bind_eq_some_iff, step?_eq_some_iff, integer?, Option.filter_eq_some_iff]
  constructor
  · rintro ⟨k, ⟨hk, -⟩, htop, rfl⟩
    exact ⟨k, hk, htop, rfl⟩
  · rintro ⟨k, hk, htop, rfl⟩
    exact ⟨k, ⟨hk, fitsSigned_of_lt (lt_of_le_top htop)⟩, htop, rfl⟩

/-- Nor is that of the word that a level is read as. -/
theorem integer?_bind_level? {t : List Char} {b : Brightness} :
    (integer? 64 t).bind level? = some b ↔
      ∃ n : UInt8, signed? t = some (n.toNat : ℤ) ∧ n.toNat ≤ top ∧ b = .level n := by
  simp only [Option.bind_eq_some_iff, level?_eq_some_iff, integer?, Option.filter_eq_some_iff]
  constructor
  · rintro ⟨k, ⟨hk, -⟩, n, rfl, htop, rfl⟩
    exact ⟨n, hk, htop, rfl⟩
  · rintro ⟨n, hn, htop, rfl⟩
    have hlt : (n.toNat : ℤ).natAbs < 2 ^ (64 - 1) :=
      Nat.lt_of_le_of_lt (Nat.le_of_lt n.toNat_lt) (by decide)
    exact ⟨_, ⟨hn, fitsSigned_of_lt hlt⟩, n, rfl, htop, rfl⟩

/-! ### Texts as brightness -/

/-- A text without outer blanks is a level or a step. -/
inductive Spelled (t : List Char) : Brightness → Prop
  | level {n : UInt8} (hn : n.toNat ≤ top) (h : Numeral t n.toNat) : Spelled t (.level n)
  | step {k : ℤ} (hk : k.natAbs ≤ top) (h : SignedNumeral t k) : Spelled t (.step k)

/-- A text that begins with a sign is a step or nothing. -/
theorem ofTrimmed?_cons_eq_some_iff {c : Char} {t : List Char} {b : Brightness}
    (hc : c.isDigit = false) :
    (integer? 16 (c :: t)).bind step? = some b ↔ Spelled (c :: t) b := by
  rw [integer?_bind_step?]
  constructor
  · rintro ⟨k, hk, htop, rfl⟩
    exact .step htop ((signed?_cons_eq_some_iff hc).mp hk)
  · intro h
    cases h with
    | level _ hn => exact absurd hn (not_numeral_cons hc)
    | step htop hk => exact ⟨_, (signed?_cons_eq_some_iff hc).mpr hk, htop, rfl⟩

theorem ofTrimmed?_eq_some_iff {t : List Char} {b : Brightness} :
    ofTrimmed? t = some b ↔ Spelled t b := by
  unfold ofTrimmed?
  split
  · exact ofTrimmed?_cons_eq_some_iff rfl
  · exact ofTrimmed?_cons_eq_some_iff rfl
  · next hplus hminus =>
    have hunsigned : ∀ k, ¬SignedNumeral t k := by
      rintro k (⟨_⟩ | ⟨_⟩)
      · exact hplus _ rfl
      · exact hminus _ rfl
    rw [integer?_bind_level?]
    constructor
    · rintro ⟨n, hn, htop, rfl⟩
      rcases signed?_eq_some_iff.mp hn with h | ⟨m, hm, h⟩
      · exact absurd h (hunsigned _)
      · exact .level htop (Int.ofNat_inj.mp hm ▸ h)
    · intro h
      cases h with
      | level htop hn => exact ⟨_, signed?_eq_some_iff.mpr (.inr ⟨_, rfl, hn⟩), htop, rfl⟩
      | step _ hk => exact absurd hk (hunsigned _)

theorem read_eq_ok_iff {s : String} {b : Brightness} :
    read s = .ok b ↔ Spelled (trim s.toList) b := by
  rw [read, ← ofTrimmed?_eq_some_iff]
  cases ofTrimmed? (trim s.toList) <;> simp

theorem read_eq_error_iff {s : String} {e : ReadError} :
    read s = .error e ↔ e = .brightness s ∧ ∀ b, ¬Spelled (trim s.toList) b := by
  simp only [← read_eq_ok_iff]
  rw [read]
  cases ofTrimmed? (trim s.toList) <;> simp [eq_comm]

/-- **The texts that are a brightness.**  Whatever its length, a text is read as a level just if
without its outer blanks it is a numeral of that level, and as a step just if it is a sign and a
numeral of that step; neither may be greater than 254.  Every other text is refused, and it is the
text as it stands that is quoted then, with its blanks. -/
theorem read_exactly (s : String) :
    (∀ n : UInt8, read s = .ok (.level n) ↔
      n.toNat ≤ 254 ∧ Numeral (trim s.toList) n.toNat) ∧
    (∀ k : ℤ, read s = .ok (.step k) ↔ k.natAbs ≤ 254 ∧ SignedNumeral (trim s.toList) k) ∧
    ∀ e, read s = .error e ↔ e = .brightness s ∧
      (∀ n ≤ 254, ¬Numeral (trim s.toList) n) ∧
      ∀ k : ℤ, k.natAbs ≤ 254 → ¬SignedNumeral (trim s.toList) k := by
  refine ⟨fun n => ?_, fun k => ?_, fun e => ?_⟩
  · rw [read_eq_ok_iff]
    constructor
    · rintro ⟨htop, h⟩
      exact ⟨htop, h⟩
    · rintro ⟨htop, h⟩
      exact .level htop h
  · rw [read_eq_ok_iff]
    constructor
    · rintro ⟨⟩
      exact ⟨‹_›, ‹_›⟩
    · rintro ⟨htop, h⟩
      exact .step htop h
  · rw [read_eq_error_iff]
    refine and_congr_right fun _ => ?_
    constructor
    · intro h
      refine ⟨fun n htop hn => ?_, fun k htop hk => h _ (.step htop hk)⟩
      have hword : (UInt8.ofNat n).toNat = n :=
        UInt8.toNat_ofNat_of_lt' (Nat.lt_of_le_of_lt htop (by decide))
      exact h (.level (UInt8.ofNat n)) (.level (by rwa [hword]) (by rwa [hword]))
    · rintro ⟨hlevel, hstep⟩ b (⟨htop, hn⟩ | ⟨htop, hk⟩)
      · exact hlevel _ htop hn
      · exact hstep _ htop hk

/-- A numeral that comes to 44 when it is cut to eight bits is no level. -/
example : read " 00300 " = .error (.brightness " 00300 ") := by rfl

end Brightness

end Lightshow
