import Lightshow.Program.Loop
import Lightshow.Proofs.Text.Numeral

/-!
# Dates and times read back

A date or a time may be written in many ways: numbers may lack zeros or, behind a sign, have too
many, blanks may stand before them, and a time may lack its seconds.  It is written in one way
only, with as many digits as there is room for, and with a sign before years that have more than
four digits or lie before the year zero.

A reader takes the numbers one by one, each as far as its digits and its room go.  What it takes can
be told without it: a date is *spelled* by a year, a month and a day with hyphens between them, and
a time by two or three numbers with colons between them.  Each of them is followed by a separator or
by nothing, and so by no digit; that is why a number that is taken ends where it is spelled to end.

What is written spells what it was written for, and so it is read back.

## Main definitions

* `Calendar.Year`, `Calendar.Pair` — a text is a year, or a number of one or two digits.
* `Date.Spelled`, `TimeOfDay.Spelled` — a text spells a date, or a time of day.
* `Moment.Exists` — the moments of the calendar.

## Main results

* `Calendar.takeYear_eq_some_iff`, `Calendar.takePair_eq_some_iff` — which numbers are taken.
* `Date.ofTrimmed?_eq_some_iff`, `TimeOfDay.ofTrimmed?_eq_some_iff` — what texts are read as.
* `Date.spelled_text`, `TimeOfDay.spelled_text` — what is written is a spelling.
* `Deadline.read_parts_of_text` — **what two texts denote, and that it is read back from the two
  parts of its text.**
-/

namespace Lightshow

open Text

/-! ### Texts without blanks -/

namespace Text

theorem trim_eq_self_of_forall {s : List Char} (h : ∀ c ∈ s, isBlank c = false) : trim s = s :=
  trim_eq_self (fun c hc => h c (List.mem_of_mem_head? hc)) fun c hc => h c (List.mem_of_getLast? hc)

/-- A text is cut at a separator that does not stand before it. -/
theorem splitFirst_append {sep : Char} {a : List Char} (ha : sep ∉ a) (b : List Char) :
    splitFirst sep (a ++ sep :: b) = some (a, b) := by
  have hbefore : ∀ c ∈ a, (c != sep) = true := fun c hc => bne_iff_ne.mpr fun h => ha (h ▸ hc)
  rw [splitFirst, List.dropWhile_append_of_pos hbefore, List.takeWhile_append_of_pos hbefore]
  simp

end Text

/-! ### Padded numbers -/

theorem toList_paddedTo (width n : ℕ) : (paddedTo width n).toList
    = List.replicate (width - (Nat.toDigits 10 n).length) '0' ++ Nat.toDigits 10 n :=
  String.toList_ofList

theorem numeral_paddedTo (width n : ℕ) : Numeral (paddedTo width n).toList n :=
  ⟨_, toList_paddedTo width n⟩

/-- A number that fits the width has just as many digits. -/
theorem length_paddedTo {width n : ℕ} (hwidth : 0 < width) (h : n < 10 ^ width) :
    (paddedTo width n).toList.length = width := by
  have hle : (Nat.toDigits 10 n).length ≤ width :=
    (Nat.length_toDigits_le_iff (by decide) hwidth).mpr h
  rw [toList_paddedTo, List.length_append, List.length_replicate, Nat.sub_add_cancel hle]

theorem not_isBlank_of_mem_paddedTo {width n : ℕ} {c : Char} (h : c ∈ (paddedTo width n).toList) :
    isBlank c = false :=
  not_isBlank_of_isDigit ((numeral_paddedTo width n).digits.2.1 c h)

theorem Date.toList_yearText (year : ℤ) : (yearText year).toList =
    if year < 0 then '-' :: (paddedTo 4 year.natAbs).toList
    else if 9999 < year then '+' :: (paddedTo 4 year.natAbs).toList
    else (paddedTo 4 year.natAbs).toList := by
  simp only [yearText, apply_ite String.toList, String.toList_append]
  rfl

/-! ### Taking numbers -/

namespace Calendar

/-- A numeral of one or two digits, which blanks may precede. -/
def Pair (s : List Char) (n : ℕ) : Prop :=
  ∃ blanks t, s = blanks ++ t ∧ (∀ c ∈ blanks, isBlank c = true) ∧ t.length ≤ 2 ∧ Numeral t n

/-- A year, which blanks may precede: a sign and a numeral, or a numeral of at most four digits. -/
def Year (s : List Char) (year : ℤ) : Prop :=
  ∃ blanks t, s = blanks ++ t ∧ (∀ c ∈ blanks, isBlank c = true) ∧
    (SignedNumeral t year ∨ ∃ n : ℕ, year = n ∧ t.length ≤ 4 ∧ Numeral t n)

/-- A digit is what has a value. -/
theorem isSome_digitValue?_iff {c : Char} : (digitValue? c).isSome = true ↔ c.isDigit = true := by
  constructor
  · intro h
    obtain ⟨d, hd⟩ := Option.isSome_iff_exists.mp h
    exact isDigit_of_digitValue? hd
  · intro h
    rw [digitValue?_of_isDigit h]
    rfl

theorem not_isBlank_of_mem_numeral {s : List Char} {n : ℕ} (h : Numeral s n) :
    ∀ c ∈ s, isBlank c = false :=
  fun c hc => not_isBlank_of_isDigit (h.digits.2.1 c hc)

/-- Blanks are skipped up to what is none. -/
theorem trimStart_blanks {blanks s : List Char} (hblanks : ∀ c ∈ blanks, isBlank c = true)
    (hs : ∀ c ∈ s.head?, isBlank c = false) : trimStart (blanks ++ s) = s := by
  rw [trimStart, List.dropWhile_append_of_pos hblanks]
  cases s with
  | nil => rfl
  | cons c s => exact List.dropWhile_cons_of_neg (Bool.eq_false_iff.mp (hs c rfl))

/-- A text is its first blanks and what is left without them. -/
theorem exists_blanks (s : List Char) :
    ∃ blanks, s = blanks ++ trimStart s ∧ ∀ c ∈ blanks, isBlank c = true :=
  ⟨s.takeWhile isBlank, (List.takeWhile_append_dropWhile ..).symm, fun _ => List.mem_takeWhile_imp⟩

/-- **What is taken is a numeral that fits its room**, and it stands before the rest. -/
theorem numeral_of_takeNumber {most n : ℕ} {s rest : List Char}
    (h : takeNumber most s = some (n, rest)) :
    ∃ t, s = t ++ rest ∧ t.length ≤ most ∧ Numeral t n := by
  obtain ⟨k, hk, heq⟩ := Option.map_eq_some_iff.mp h
  obtain ⟨rfl, rfl⟩ := Prod.mk.inj heq
  have hprefix : (s.take most).takeWhile (fun c => (digitValue? c).isSome) <+: s :=
    (List.takeWhile_prefix _).trans (List.take_prefix most s)
  refine ⟨_, (List.prefix_iff_eq_append.mp hprefix).symm, ?_, natural?_eq_some_iff.mp hk⟩
  exact (List.takeWhile_prefix _).length_le.trans (List.length_take_le most s)

/-- **A numeral that fits its room is taken**, if no digit follows. -/
theorem takeNumber_append {most n : ℕ} {t rest : List Char} (ht : Numeral t n)
    (hroom : t.length ≤ most) (hend : ∀ c ∈ rest.head?, c.isDigit = false) :
    takeNumber most (t ++ rest) = some (n, rest) := by
  obtain ⟨-, hdigits, -⟩ := ht.digits
  have hnone : (rest.take (most - t.length)).takeWhile (fun c => (digitValue? c).isSome) = [] := by
    cases hrest : rest.take (most - t.length) with
    | nil => rfl
    | cons c r =>
      have hc : rest.head? = some c := by
        rw [← List.take_append_drop (most - t.length) rest, hrest]
        rfl
      refine List.takeWhile_cons_of_neg fun hdigit => ?_
      rw [isSome_digitValue?_iff, hend c hc] at hdigit
      exact Bool.false_ne_true hdigit
  have htaken : ((t ++ rest).take most).takeWhile (fun c => (digitValue? c).isSome) = t := by
    rw [List.take_append, List.take_of_length_le hroom,
      List.takeWhile_append_of_pos fun c hc => isSome_digitValue?_iff.mpr (hdigits c hc), hnone,
      List.append_nil]
  rw [takeNumber, htaken, natural?_eq_some_iff.mpr ht, Option.map_some, List.drop_left]

/-- A number of any length ends with its digits. -/
theorem takeAnyNumber_append {n : ℕ} {t rest : List Char} (ht : Numeral t n)
    (hend : ∀ c ∈ rest.head?, c.isDigit = false) : takeAnyNumber (t ++ rest) = some (n, rest) :=
  takeNumber_append ht (by rw [List.length_append]; exact Nat.le_add_right _ _) hend

/-- A text that begins with a numeral begins with no blank. -/
theorem head?_numeral {t : List Char} {n : ℕ} (ht : Numeral t n) (rest : List Char) :
    ∀ c ∈ (t ++ rest).head?, isBlank c = false := by
  cases t with
  | nil => exact absurd rfl ht.digits.1
  | cons d t =>
    intro c hc
    obtain rfl := Option.some.inj hc
    exact not_isBlank_of_mem_numeral ht d List.mem_cons_self

/-- **Which pairs of digits are taken** of a text, if what is left of it begins with no digit. -/
theorem takePair_eq_some_iff {s rest : List Char} {n : ℕ}
    (hend : ∀ c ∈ rest.head?, c.isDigit = false) :
    takePair s = some (n, rest) ↔ ∃ t, s = t ++ rest ∧ Pair t n := by
  constructor
  · intro h
    obtain ⟨t, ht, hlength, hn⟩ := numeral_of_takeNumber h
    obtain ⟨blanks, hs, hblanks⟩ := exists_blanks s
    refine ⟨blanks ++ t, ?_, blanks, t, rfl, hblanks, hlength, hn⟩
    rw [List.append_assoc, ← ht]
    exact hs
  · rintro ⟨_, rfl, blanks, t, rfl, hblanks, hlength, hn⟩
    rw [List.append_assoc, takePair, trimStart_blanks hblanks (head?_numeral hn rest)]
    exact takeNumber_append hn hlength hend

/-- **Which years are taken** of a text, if what is left of it begins with no digit. -/
theorem takeYear_eq_some_iff {s rest : List Char} {year : ℤ}
    (hend : ∀ c ∈ rest.head?, c.isDigit = false) :
    takeYear s = some (year, rest) ↔ ∃ t, s = t ++ rest ∧ Year t year := by
  constructor
  · intro h
    obtain ⟨blanks, hs, hblanks⟩ := exists_blanks s
    suffices hyear : ∃ t, trimStart s = t ++ rest ∧
        (SignedNumeral t year ∨ ∃ n : ℕ, year = n ∧ t.length ≤ 4 ∧ Numeral t n) by
      obtain ⟨t, ht, hyear⟩ := hyear
      refine ⟨blanks ++ t, ?_, blanks, t, rfl, hblanks, hyear⟩
      rw [List.append_assoc, ← ht]
      exact hs
    unfold takeYear at h
    split at h
    · next r hr =>
      obtain ⟨⟨n, r'⟩, htaken, heq⟩ := Option.map_eq_some_iff.mp h
      obtain ⟨rfl, rfl⟩ := Prod.mk.inj heq
      obtain ⟨t, rfl, -, hn⟩ := numeral_of_takeNumber htaken
      exact ⟨'-' :: t, hr, .inl (.minus hn)⟩
    · next r hr =>
      obtain ⟨⟨n, r'⟩, htaken, heq⟩ := Option.map_eq_some_iff.mp h
      obtain ⟨rfl, rfl⟩ := Prod.mk.inj heq
      obtain ⟨t, rfl, -, hn⟩ := numeral_of_takeNumber htaken
      exact ⟨'+' :: t, hr, .inl (.plus hn)⟩
    · obtain ⟨⟨n, r'⟩, htaken, heq⟩ := Option.map_eq_some_iff.mp h
      obtain ⟨rfl, rfl⟩ := Prod.mk.inj heq
      obtain ⟨t, ht, hlength, hn⟩ := numeral_of_takeNumber htaken
      exact ⟨t, ht, .inr ⟨n, rfl, hlength, hn⟩⟩
  · rintro ⟨_, rfl, blanks, t, rfl, hblanks, hyear⟩
    have hhead : ∀ c ∈ (t ++ rest).head?, isBlank c = false := by
      rcases hyear with hn | ⟨n, -, -, hn⟩
      · cases hn <;>
        · intro c hc
          obtain rfl := Option.some.inj hc
          rfl
      · exact head?_numeral hn rest
    rw [List.append_assoc, takeYear, trimStart_blanks hblanks hhead]
    rcases hyear with hn | ⟨n, rfl, hlength, hn⟩
    · cases hn with
      | plus hn =>
        simp only [List.cons_append, takeAnyNumber_append hn hend, Option.map_some]
      | minus hn =>
        simp only [List.cons_append, takeAnyNumber_append hn hend, Option.map_some]
    · -- a numeral begins with a digit, and so with no sign
      cases t with
      | nil => exact absurd rfl hn.digits.1
      | cons c t =>
        split
        · next heq =>
          rw [(List.cons.inj heq).1] at hn
          exact absurd hn (not_numeral_cons rfl)
        · next heq =>
          rw [(List.cons.inj heq).1] at hn
          exact absurd hn (not_numeral_cons rfl)
        · rw [takeNumber_append hn hlength hend]
          rfl

/-- What is written for a number below a hundred is a pair of digits. -/
theorem pair_paddedTo {n : ℕ} (h : n < 100) : Pair (paddedTo 2 n).toList n :=
  ⟨[], _, rfl, fun _ hc => absurd hc List.not_mem_nil, (length_paddedTo (by decide) h).le,
    numeral_paddedTo 2 n⟩

/-- **What is written for a year is one**: with a sign if it needs one, and else as four digits. -/
theorem year_yearText (year : ℤ) : Year (Date.yearText year).toList year := by
  have hnumeral := numeral_paddedTo 4 year.natAbs
  refine ⟨[], (Date.yearText year).toList, rfl, fun _ hc => absurd hc List.not_mem_nil, ?_⟩
  rw [Date.toList_yearText]
  by_cases hbefore : year < 0
  · have hvalue : -(year.natAbs : ℤ) = year := by omega
    rw [if_pos hbefore, ← hvalue]
    exact .inl (.minus (by rwa [hvalue]))
  · have hvalue : (year.natAbs : ℤ) = year := by omega
    rw [if_neg hbefore]
    by_cases hlong : 9999 < year
    · rw [if_pos hlong]
      exact .inl (hvalue ▸ .plus hnumeral)
    · rw [if_neg hlong]
      exact .inr ⟨_, hvalue.symm, (length_paddedTo (by decide) (by omega)).le, hnumeral⟩

theorem takeMark_self (mark : Char) (rest : List Char) :
    takeMark mark (mark :: rest) = some rest := if_pos rfl

theorem takeMark_eq_some_iff {mark : Char} {s rest : List Char} :
    takeMark mark s = some rest ↔ s = mark :: rest := by
  cases s with
  | nil => exact ⟨nofun, nofun⟩
  | cons c s =>
    rw [takeMark]
    split
    · next h => simp [h]
    · next h => simp [h]

theorem atEnd_eq_some_iff {α : Type} {x y : α} {s : List Char} :
    atEnd x s = some y ↔ s = [] ∧ x = y := by
  cases s with
  | nil => simp [atEnd]
  | cons c s => exact ⟨nofun, nofun⟩

end Calendar

open Calendar

/-! ### Dates -/

/-- No mark is a digit. -/
theorem head?_mark (mark : Char) (hmark : mark.isDigit = false) (s : List Char) :
    ∀ c ∈ (mark :: s).head?, c.isDigit = false := by
  intro c hc
  obtain rfl := Option.some.inj hc
  exact hmark

/-- At the end of a text there is no digit. -/
theorem head?_nil : ∀ c ∈ ([] : List Char).head?, c.isDigit = false :=
  fun _ hc => absurd hc (Option.not_mem_none _)

namespace Date

/-- A text without outer blanks spells a date: its year, its month and its day stand there with
hyphens between them. -/
def Spelled (s : List Char) (d : Date) : Prop :=
  ∃ year month day, s = year ++ '-' :: (month ++ '-' :: day) ∧
    Year year d.year ∧ Pair month d.month ∧ Pair day d.day

/-- **What is read as a date** spells it, if there is such a date. -/
theorem ofTrimmed?_eq_some_iff {s : List Char} {d : Date} :
    ofTrimmed? s = some d ↔ Spelled s d ∧ d.Exists := by
  constructor
  · intro h
    simp only [ofTrimmed?, Option.bind_eq_bind, Option.bind_eq_some_iff, takeMark_eq_some_iff,
      atEnd_eq_some_iff] at h
    obtain ⟨⟨y, r⟩, hy, r₁, rfl, ⟨m, r₂⟩, hm, r₃, rfl, ⟨k, r₄⟩, hk, d', ⟨rfl, rfl⟩, h⟩ := h
    obtain ⟨year, rfl, hyear⟩ := (takeYear_eq_some_iff (head?_mark _ rfl r₁)).mp hy
    obtain ⟨month, rfl, hmonth⟩ := (takePair_eq_some_iff (head?_mark _ rfl r₃)).mp hm
    obtain ⟨day, rfl, hday⟩ := (takePair_eq_some_iff head?_nil).mp hk
    split at h
    · next hexists =>
      cases h
      rw [List.append_nil]
      exact ⟨⟨year, month, day, rfl, hyear, hmonth, hday⟩, hexists⟩
    · cases h
  · rintro ⟨⟨year, month, day, rfl, hyear, hmonth, hday⟩, hexists⟩
    have hy (r : List Char) : takeYear (year ++ '-' :: r) = some (d.year, '-' :: r) :=
      (takeYear_eq_some_iff (head?_mark '-' rfl r)).mpr ⟨year, rfl, hyear⟩
    have hm (r : List Char) : takePair (month ++ '-' :: r) = some (d.month, '-' :: r) :=
      (takePair_eq_some_iff (head?_mark '-' rfl r)).mpr ⟨month, rfl, hmonth⟩
    have hk : takePair day = some (d.day, []) :=
      (takePair_eq_some_iff head?_nil).mpr ⟨day, (List.append_nil day).symm, hday⟩
    simp only [ofTrimmed?, hy, hm, hk, takeMark_self, atEnd, Option.bind_eq_bind, Option.bind_some,
      if_pos hexists]

theorem toList_text (d : Date) : d.text.toList = (yearText d.year).toList ++
    '-' :: ((paddedTo 2 d.month).toList ++ '-' :: (paddedTo 2 d.day).toList) := by
  simp only [text, String.toList_append, List.append_assoc]
  rfl

theorem not_isBlank_of_mem_text {d : Date} : ∀ c ∈ d.text.toList, isBlank c = false := by
  have hyear : ∀ c ∈ (yearText d.year).toList, isBlank c = false := by
    rw [toList_yearText]
    split
    · exact List.forall_mem_cons.mpr ⟨rfl, fun c => not_isBlank_of_mem_paddedTo⟩
    · split
      · exact List.forall_mem_cons.mpr ⟨rfl, fun c => not_isBlank_of_mem_paddedTo⟩
      · exact fun c => not_isBlank_of_mem_paddedTo
  rw [toList_text, List.forall_mem_append, List.forall_mem_cons, List.forall_mem_append,
    List.forall_mem_cons]
  exact ⟨hyear, rfl, fun c => not_isBlank_of_mem_paddedTo, rfl, fun c => not_isBlank_of_mem_paddedTo⟩

theorem monthLength_le (year : ℤ) (month : ℕ) : monthLength year month ≤ 31 := by
  have hfebruary : (if isLeap year then 29 else 28) ≤ 31 := by split <;> decide
  unfold monthLength
  split <;> first | exact hfebruary | decide

/-- There are twelve months. -/
theorem Exists.month_le {d : Date} (h : d.Exists) : d.month ≤ 12 := by
  obtain ⟨-, -, hfirst, hlast⟩ := h
  by_contra hlt
  have hnone : monthLength d.year d.month = 0 := by
    unfold monthLength
    split <;> omega
  omega

/-- **What is written for a date spells it.** -/
theorem spelled_text {d : Date} (h : d.Exists) : Spelled d.text.toList d := by
  have hmonth : d.month < 100 := by
    have hle := h.month_le
    omega
  have hday : d.day < 100 := by
    have hle := h.2.2.2.trans (monthLength_le d.year d.month)
    omega
  exact ⟨_, _, _, toList_text d, year_yearText d.year, pair_paddedTo hmonth, pair_paddedTo hday⟩

end Date

/-! ### Times of day -/

namespace TimeOfDay

/-- A text without outer blanks spells a time of day: its hour, its minute and its second stand
there with colons between them, or the second is zero and is left out. -/
def Spelled (s : List Char) (t : TimeOfDay) : Prop :=
  (∃ hour minute second, s = hour ++ ':' :: (minute ++ ':' :: second) ∧
    Pair hour t.hour ∧ Pair minute t.minute ∧ Pair second t.second) ∨
  ∃ hour minute, s = hour ++ ':' :: minute ∧
    Pair hour t.hour ∧ Pair minute t.minute ∧ t.second = 0

theorem withSecond?_eq_some_iff {s : List Char} {t : TimeOfDay} : withSecond? s = some t ↔
    (∃ hour minute second, s = hour ++ ':' :: (minute ++ ':' :: second) ∧
      Pair hour t.hour ∧ Pair minute t.minute ∧ Pair second t.second) ∧ t.Exists := by
  constructor
  · intro h
    simp only [withSecond?, Option.bind_eq_bind, Option.bind_eq_some_iff, takeMark_eq_some_iff,
      atEnd_eq_some_iff] at h
    obtain ⟨⟨i, r⟩, hi, r₁, rfl, ⟨j, r₂⟩, hj, r₃, rfl, ⟨k, r₄⟩, hk, t', ⟨rfl, rfl⟩, h⟩ := h
    obtain ⟨hour, rfl, hhour⟩ := (takePair_eq_some_iff (head?_mark _ rfl r₁)).mp hi
    obtain ⟨minute, rfl, hminute⟩ := (takePair_eq_some_iff (head?_mark _ rfl r₃)).mp hj
    obtain ⟨second, rfl, hsecond⟩ := (takePair_eq_some_iff head?_nil).mp hk
    split at h
    · next hexists =>
      cases h
      rw [List.append_nil]
      exact ⟨⟨hour, minute, second, rfl, hhour, hminute, hsecond⟩, hexists⟩
    · cases h
  · rintro ⟨⟨hour, minute, second, rfl, hhour, hminute, hsecond⟩, hexists⟩
    have hi (r : List Char) : takePair (hour ++ ':' :: r) = some (t.hour, ':' :: r) :=
      (takePair_eq_some_iff (head?_mark ':' rfl r)).mpr ⟨hour, rfl, hhour⟩
    have hj (r : List Char) : takePair (minute ++ ':' :: r) = some (t.minute, ':' :: r) :=
      (takePair_eq_some_iff (head?_mark ':' rfl r)).mpr ⟨minute, rfl, hminute⟩
    have hk : takePair second = some (t.second, []) :=
      (takePair_eq_some_iff head?_nil).mpr ⟨second, (List.append_nil second).symm, hsecond⟩
    simp only [withSecond?, hi, hj, hk, takeMark_self, atEnd, Option.bind_eq_bind,
      Option.bind_some, if_pos hexists]

theorem withoutSecond?_eq_some_iff {s : List Char} {t : TimeOfDay} : withoutSecond? s = some t ↔
    (∃ hour minute, s = hour ++ ':' :: minute ∧
      Pair hour t.hour ∧ Pair minute t.minute ∧ t.second = 0) ∧ t.Exists := by
  constructor
  · intro h
    simp only [withoutSecond?, Option.bind_eq_bind, Option.bind_eq_some_iff, takeMark_eq_some_iff,
      atEnd_eq_some_iff] at h
    obtain ⟨⟨i, r⟩, hi, r₁, rfl, ⟨j, r₂⟩, hj, t', ⟨rfl, rfl⟩, h⟩ := h
    obtain ⟨hour, rfl, hhour⟩ := (takePair_eq_some_iff (head?_mark _ rfl r₁)).mp hi
    obtain ⟨minute, rfl, hminute⟩ := (takePair_eq_some_iff head?_nil).mp hj
    split at h
    · next hexists =>
      cases h
      rw [List.append_nil]
      exact ⟨⟨hour, minute, rfl, hhour, hminute, rfl⟩, hexists⟩
    · cases h
  · rintro ⟨⟨hour, minute, rfl, hhour, hminute, hsecond⟩, hexists⟩
    obtain ⟨i, j, k⟩ := t
    obtain rfl : k = 0 := hsecond
    have hi (r : List Char) : takePair (hour ++ ':' :: r) = some (i, ':' :: r) :=
      (takePair_eq_some_iff (head?_mark ':' rfl r)).mpr ⟨hour, rfl, hhour⟩
    have hj : takePair minute = some (j, []) :=
      (takePair_eq_some_iff head?_nil).mpr ⟨minute, (List.append_nil minute).symm, hminute⟩
    simp only [withoutSecond?, hi, hj, takeMark_self, atEnd, Option.bind_eq_bind, Option.bind_some,
      if_pos hexists]

/-- A time that is spelled with its second has two colons, and one that is not has one. -/
theorem colons_ne {hour minute hour' minute' second' : List Char} {i j i' j' k' : ℕ}
    (hhour : Pair hour i) (hminute : Pair minute j) (hhour' : Pair hour' i')
    (hminute' : Pair minute' j') (hsecond' : Pair second' k') :
    hour ++ ':' :: minute ≠ hour' ++ ':' :: (minute' ++ ':' :: second') := by
  have hnone : ∀ {s : List Char} {n : ℕ}, Pair s n → s.count ':' = 0 := by
    rintro s n ⟨blanks, t, rfl, hblanks, -, hn⟩
    refine List.count_eq_zero.mpr fun hmem => ?_
    rcases List.mem_append.mp hmem with hmem | hmem
    · exact absurd (hblanks _ hmem) (by decide)
    · exact absurd (hn.digits.2.1 _ hmem) (by decide)
  intro h
  have hcount := congrArg (List.count ':') h
  simp [hnone hhour, hnone hminute, hnone hhour', hnone hminute', hnone hsecond'] at hcount

/-- **What is read as a time of day** spells it, if there is such a time. -/
theorem ofTrimmed?_eq_some_iff {s : List Char} {t : TimeOfDay} :
    ofTrimmed? s = some t ↔ Spelled s t ∧ t.Exists := by
  rw [ofTrimmed?, Option.or_eq_some_iff, withSecond?_eq_some_iff, withoutSecond?_eq_some_iff,
    Spelled, or_and_right]
  refine or_congr_right (and_iff_right_of_imp ?_)
  rintro ⟨⟨hour, minute, rfl, hhour, hminute, -⟩, -⟩
  rw [Option.eq_none_iff_forall_ne_some]
  intro t' h
  obtain ⟨⟨hour', minute', second', heq, hhour', hminute', hsecond'⟩, -⟩ :=
    withSecond?_eq_some_iff.mp h
  exact colons_ne hhour hminute hhour' hminute' hsecond' heq

theorem toList_text (t : TimeOfDay) : t.text.toList = (paddedTo 2 t.hour).toList ++
    ':' :: ((paddedTo 2 t.minute).toList ++ ':' :: (paddedTo 2 t.second).toList) := by
  simp only [text, String.toList_append, List.append_assoc]
  rfl

theorem not_isBlank_of_mem_text {t : TimeOfDay} : ∀ c ∈ t.text.toList, isBlank c = false := by
  rw [toList_text, List.forall_mem_append, List.forall_mem_cons, List.forall_mem_append,
    List.forall_mem_cons]
  exact ⟨fun c => not_isBlank_of_mem_paddedTo, rfl, fun c => not_isBlank_of_mem_paddedTo, rfl,
    fun c => not_isBlank_of_mem_paddedTo⟩

/-- **What is written for a time of day spells it**, always with its second. -/
theorem spelled_text {t : TimeOfDay} (h : t.Exists) : Spelled t.text.toList t := by
  obtain ⟨hhour, hminute, hsecond⟩ := h
  exact .inl ⟨_, _, _, toList_text t, pair_paddedTo (by omega), pair_paddedTo (by omega),
    pair_paddedTo (by omega)⟩

end TimeOfDay

/-! ### Deadlines -/

/-- The moments of the calendar: an existing date and an existing time of day. -/
def Moment.Exists (m : Moment) : Prop := m.date.Exists ∧ m.time.Exists

namespace Deadline

theorem read_eq_ok_iff {date time : String} {m : Deadline} : read date time = .ok m ↔
    Date.Spelled (trim date.toList) m.date ∧ TimeOfDay.Spelled (trim time.toList) m.time ∧
      m.Exists := by
  have hread : read date time = .ok m ↔ Date.ofTrimmed? (trim date.toList) = some m.date ∧
      TimeOfDay.ofTrimmed? (trim time.toList) = some m.time := by
    rw [read]
    cases Date.ofTrimmed? (trim date.toList) with
    | none => simp
    | some d =>
      cases TimeOfDay.ofTrimmed? (trim time.toList) with
      | none => simp
      | some t =>
        obtain ⟨d', t'⟩ := m
        simp
  rw [hread, Date.ofTrimmed?_eq_some_iff, TimeOfDay.ofTrimmed?_eq_some_iff, Moment.Exists]
  exact ⟨fun ⟨⟨hd, he⟩, ht, he'⟩ => ⟨hd, ht, he, he'⟩, fun ⟨hd, ht, he, he'⟩ => ⟨⟨hd, he⟩, ht, he'⟩⟩

/-- A moment of the calendar is read back from the texts of its date and its time. -/
theorem read_text {m : Deadline} (h : m.Exists) : read m.date.text m.time.text = .ok m := by
  rw [read_eq_ok_iff, trim_eq_self_of_forall Date.not_isBlank_of_mem_text,
    trim_eq_self_of_forall TimeOfDay.not_isBlank_of_mem_text]
  exact ⟨Date.spelled_text h.1, TimeOfDay.spelled_text h.2, h⟩

/-- The text of a moment is cut at its space into the texts of the date and the time. -/
theorem splitFirst_text (m : Moment) :
    splitFirst ' ' m.text.toList = some (m.date.text.toList, m.time.text.toList) := by
  have htext : m.text.toList = m.date.text.toList ++ ' ' :: m.time.text.toList := by
    simp only [Moment.text, String.toList_append, List.append_assoc]
    rfl
  rw [htext]
  exact splitFirst_append (fun h => absurd (Date.not_isBlank_of_mem_text _ h) (by decide)) _

/-- **Deadlines are read as they are spelled, and read back as they are written.**  Two texts denote
a moment just if without their outer blanks they spell its date and its time and there is such a
moment; and every moment of the calendar is denoted by some texts.  The text of a moment that is
denoted has one space, and what stands before and after it denotes the same moment.  So two pairs of
texts denote the same moment if what they denote is written alike, and only then. -/
theorem read_parts_of_text :
    (∀ (date time : String) (m : Deadline), read date time = .ok m ↔
      Date.Spelled (trim date.toList) m.date ∧ TimeOfDay.Spelled (trim time.toList) m.time ∧
        m.Exists) ∧
    (∀ m : Deadline, (∃ date time, read date time = .ok m) ↔ m.Exists) ∧
    ∀ (date time : String) (m : Deadline), read date time = .ok m →
      (∃ date' time', splitFirst ' ' m.text.toList = some (date', time') ∧ ' ' ∉ time' ∧
        read (String.ofList date') (String.ofList time') = .ok m) ∧
      ∀ date' time' m', read date' time' = .ok m' → (m.text = m'.text ↔ m = m') := by
  have hexists : ∀ {date time : String} {m : Deadline}, read date time = .ok m → m.Exists :=
    fun h => (read_eq_ok_iff.mp h).2.2
  refine ⟨fun _ _ _ => read_eq_ok_iff, fun m => ⟨fun ⟨_, _, h⟩ => hexists h, fun h => ?_⟩, ?_⟩
  · exact ⟨_, _, read_text h⟩
  · intro date time m h
    refine ⟨⟨_, _, splitFirst_text m, ?_, ?_⟩, fun date' time' m' h' => ⟨fun htext => ?_, ?_⟩⟩
    · exact fun hspace => absurd (TimeOfDay.not_isBlank_of_mem_text _ hspace) (by decide)
    · rw [String.ofList_toList, String.ofList_toList]
      exact read_text (hexists h)
    · -- both are read of the parts of the one text
      have hparts := (splitFirst_text m).symm.trans (htext ▸ splitFirst_text m')
      obtain ⟨hdate, htime⟩ := Prod.mk.inj (Option.some.inj hparts)
      have hread := read_text (hexists h)
      rw [String.toList_inj.mp hdate, String.toList_inj.mp htime, read_text (hexists h')] at hread
      exact (Except.ok.inj hread).symm
    · rintro rfl
      rfl

/-- A leap second at the end of a leap day, in a year of five digits. -/
def lateLeapSecond : Deadline := ⟨⟨12024, 2, 29⟩, ⟨23, 59, 60⟩⟩

theorem lateLeapSecond_read_back :
    read " +0012024- 2-29" "23: 59:60\t" = .ok lateLeapSecond ∧
      lateLeapSecond.Exists ∧
      (∃ date time, splitFirst ' ' lateLeapSecond.text.toList = some (date, time) ∧ ' ' ∉ time ∧
        read (String.ofList date) (String.ofList time) = .ok lateLeapSecond) ∧
      lateLeapSecond.text ≠ (⟨⟨-12024, 2, 29⟩, ⟨0, 0, 0⟩⟩ : Deadline).text := by
  have hread : read " +0012024- 2-29" "23: 59:60\t" = .ok lateLeapSecond := by rfl
  have hother : read "-12024-2-29" "0:0" = .ok ⟨⟨-12024, 2, 29⟩, ⟨0, 0, 0⟩⟩ := by rfl
  obtain ⟨hspelled, hall, hback⟩ := read_parts_of_text
  obtain ⟨hparts, halike⟩ := hback _ _ _ hread
  refine ⟨hread, (hall _).mp ⟨_, _, hread⟩, hparts, fun htext => ?_⟩
  exact absurd ((halike _ _ _ hother).mp htext) (by decide)

end Deadline

end Lightshow
