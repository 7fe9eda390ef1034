import Mathlib.Data.Set.Function
import Lightshow.Device.Basic
import Lightshow.Device.Reference
import Lightshow.Proofs.Text.Numeral

/-!
# Which references have a text

Not every reference can be told by a text.  A reader drops the blanks around a name and refuses a
name of nothing else, and positions are counted from one.  So what a reference is written as is
read as that reference or as another, or not at all, and here we see which it is.  The references
that are read back are those whose names are *bare* and whose positions are from one to what a
word holds.

Whatever a reader finds is such a reference, since it has trimmed the name and read the position
itself, with one exception.  A position must not begin with a zero, but a plus sign may stand
before it, and then nobody looks for a zero any more: **`$+0` is read as the input at position
zero**, whose text is refused.

## Main definitions

* `Text.Bare` — a name without outer blanks that is not empty.
* `DeviceRef.ofKind` — the reference to what has a kind and a name.
* `DeviceRef.Legible`, `DeviceRef.tidy` — references whose texts are read, and as which.
* `DeviceRef.Writable` — references that are read back.

## Main results

* `DeviceRef.read_text_ofKind`, `DeviceRef.read_text_input` — what the text of a reference is
  read as.
* `DeviceRef.writable_of_read` — what is read can be written, unless it is the input at zero.
* `DeviceRef.text_denotes` — **which references are read back, and that no two of them have one
  text.**
* `DeviceRef.read_twice` — **what is read is read back, unless it is a spelling of `$+0`.**
-/

namespace Lightshow

open Text

/-! ### Blanks around names -/

namespace Text

/-- A name that is not empty and neither begins nor ends with a blank. -/
def Bare (name : String) : Prop :=
  name ≠ "" ∧ (∀ c ∈ name.toList.head?, isBlank c = false) ∧
    ∀ c ∈ name.toList.getLast?, isBlank c = false

/-- A text that stands between blanks, and has no outer blanks itself, is what trimming leaves. -/
theorem trim_append {a s b : List Char} (ha : ∀ c ∈ a, isBlank c) (hs : trim s = s)
    (hb : ∀ c ∈ b, isBlank c) : trim (a ++ s ++ b) = s := by
  obtain ⟨hhead, -⟩ := trim_eq_self_iff.mp hs
  have hstart : trimStart (a ++ s ++ b) = trimStart (s ++ b) := by
    rw [trimStart, List.append_assoc, List.dropWhile_append_of_pos ha]
    rfl
  rw [trim, hstart]
  cases s with
  | nil =>
    have hnil : trimStart b = [] := List.dropWhile_eq_nil_iff.mpr hb
    rw [List.nil_append, hnil]
    rfl
  | cons c s =>
    have hkept : ∀ t, trimStart (c :: t) = c :: t := fun t =>
      List.dropWhile_cons_of_neg (by simp [hhead c rfl])
    rw [trim, hkept] at hs
    rw [List.cons_append, hkept, ← List.cons_append, trimEnd, List.reverse_append,
      List.dropWhile_append_of_pos fun d hd => hb d (List.mem_reverse.mp hd)]
    exact hs

/-- What trimming takes off are blanks on either side. -/
theorem exists_blanks (s : List Char) :
    ∃ a b, s = a ++ trim s ++ b ∧ (∀ c ∈ a, isBlank c) ∧ ∀ c ∈ b, isBlank c := by
  refine ⟨s.takeWhile isBlank, ((trimStart s).reverse.takeWhile isBlank).reverse, ?_,
    fun c hc => List.mem_takeWhile_imp hc,
    fun c hc => List.mem_takeWhile_imp (List.mem_reverse.mp hc)⟩
  have hend : trim s ++ ((trimStart s).reverse.takeWhile isBlank).reverse = trimStart s := by
    rw [trim, trimEnd, ← List.reverse_append, List.takeWhile_append_dropWhile, List.reverse_reverse]
  rw [List.append_assoc, hend, trimStart, List.takeWhile_append_dropWhile]

theorem trimmed_eq_self_iff {name : String} :
    trimmed name = name ↔ trim name.toList = name.toList := by
  rw [trimmed, ← String.toList_inj, String.toList_ofList]

theorem trimmed_eq_empty_iff {name : String} : trimmed name = "" ↔ trim name.toList = [] := by
  rw [trimmed, ← String.toList_inj, String.toList_ofList]
  rfl

/-- A bare name is something, and trimming leaves it as it is. -/
theorem bare_iff {name : String} : Bare name ↔ name ≠ "" ∧ trimmed name = name := by
  rw [Bare, trimmed_eq_self_iff, trim_eq_self_iff]

end Text

namespace DeviceRef

/-! ### Texts of references -/

/-- The reference to what has a kind and a name. -/
def ofKind : DeviceKind → String → DeviceRef
  | .light => .light
  | .group => .group

theorem text_ofKind (kind : DeviceKind) (name : String) :
    (ofKind kind name).text = kind.word ++ ":" ++ name := by
  cases kind <;> rfl

/-- The name behind the word for a kind is all that is still to be looked at. -/
theorem ofTrimmed?_word (kind : DeviceKind) (name : List Char) :
    ofTrimmed? (kind.word.toList ++ ':' :: name) = named? kind.word.toList name := by
  cases kind <;> rfl

theorem named?_word (kind : DeviceKind) (name : List Char) :
    named? kind.word.toList name
      = if trim name = [] then none else some (ofKind kind (String.ofList (trim name))) := by
  have hempty : (trim name).isEmpty = decide (trim name = []) := by cases trim name <;> rfl
  rw [named?, hempty]
  by_cases h : trim name = []
  · simp only [h, decide_true, if_true]
  · simp only [h, decide_false, Bool.false_eq_true, if_false]
    cases kind
    · exact if_pos rfl
    · exact (if_neg (by decide)).trans (if_pos rfl)

/-- The word for a kind begins with no blank, and the colon behind it is none, so trimming only
takes the blanks at the end of the name. -/
theorem trim_word (kind : DeviceKind) (name : List Char) : ∃ rest,
    trim (kind.word.toList ++ ':' :: name) = kind.word.toList ++ ':' :: rest ∧
      trim rest = trim name := by
  obtain ⟨a, b, hname, ha, hb⟩ := exists_blanks name
  have hword : ∀ t, (∀ c ∈ (':' :: t).getLast?, isBlank c = false) →
      trim (kind.word.toList ++ ':' :: t) = kind.word.toList ++ ':' :: t := by
    intro t ht
    refine trim_eq_self (fun c hc => ?_) fun c hc => ?_
    · cases kind <;> (obtain rfl := Option.some.inj hc; rfl)
    · rw [List.getLast?_append_of_ne_nil _ (List.cons_ne_nil _ _)] at hc
      exact ht c hc
  by_cases hempty : trim name = []
  · -- a name of blanks is taken off as a whole
    have hblank : ∀ c ∈ name, isBlank c := by
      intro c hc
      rw [hname, hempty, List.append_nil] at hc
      exact (List.mem_append.mp hc).elim (ha c) (hb c)
    refine ⟨[], ?_, hempty.symm⟩
    have h := trim_append (a := []) (fun c hc => absurd hc List.not_mem_nil)
      (hword [] fun c hc => by obtain rfl := Option.some.inj hc; rfl) hblank
    rwa [List.nil_append, List.append_assoc] at h
  · refine ⟨a ++ trim name, ?_, ?_⟩
    · have hlast : ∀ c ∈ (':' :: (a ++ trim name)).getLast?, isBlank c = false := by
        intro c hc
        rw [← List.cons_append, List.getLast?_append_of_ne_nil _ hempty] at hc
        exact getLast?_trim name c hc
      have h := trim_append (a := []) (fun c hc => absurd hc List.not_mem_nil) (hword _ hlast) hb
      rw [List.nil_append, List.append_assoc, List.cons_append, ← hname] at h
      exact h
    · have h := trim_append ha (trim_trim name) (b := []) fun c hc => absurd hc List.not_mem_nil
      rwa [List.append_nil] at h

/-- **The text of a light or a group is read as the one with the trimmed name.** -/
theorem read_text_ofKind (kind : DeviceKind) {name : String} {r : DeviceRef} :
    read (ofKind kind name).text = .ok r ↔
      trimmed name ≠ "" ∧ r = ofKind kind (trimmed name) := by
  have htext : (ofKind kind name).text.toList = kind.word.toList ++ ':' :: name.toList := by
    rw [text_ofKind, String.toList_append, String.toList_append, List.append_assoc]
    rfl
  obtain ⟨rest, htrim, hrest⟩ := trim_word kind name.toList
  have hof : ofTrimmed? (trim (ofKind kind name).text.toList)
      = if trimmed name = "" then none else some (ofKind kind (trimmed name)) := by
    rw [htext, htrim, ofTrimmed?_word, named?_word, hrest]
    simp only [trimmed_eq_empty_iff]
    rfl
  rw [read, hof]
  by_cases h : trimmed name = "" <;> simp [h, eq_comm]

/-! ### Inputs -/

/-- The digits of a number are read as a position if it is one. -/
theorem position?_toDigits (n : ℕ) : position? (Nat.toDigits 10 n)
    = if 1 ≤ n ∧ n < UInt64.size then some n else none := by
  rcases Nat.eq_zero_or_pos n with rfl | hpos
  · rfl
  · have hsize : UInt64.size = 1 <<< 64 := rfl
    rw [position?, if_neg (head?_toDigits_ne_zero hpos), word?, unsigned?_toDigits,
      Option.filter_some, hsize]
    simp only [decide_eq_true_iff, Nat.succ_le_of_lt hpos, true_and]

theorem toList_text_input (n : ℕ) :
    (DeviceRef.input n).text.toList = '$' :: Nat.toDigits 10 n := by
  rw [text, String.toList_append, toList_toString]
  rfl

/-- The dollar sign is followed by no word. -/
theorem ofTrimmed?_toDigits (n : ℕ) : ofTrimmed? ('$' :: Nat.toDigits 10 n)
    = (position? (Nat.toDigits 10 n)).map .input := by
  refine if_neg fun heq => ?_
  have hdigits : Nat.toDigits 10 n = ['a', 'l', 'l'] := (List.cons.inj heq).2
  have ha : 'a'.isDigit := isDigit_of_mem_digits (n := n) (by rw [hdigits]; decide)
  exact absurd ha (by decide)

/-- **The text of an input is read as that input**, if its position is from one to what a word
holds. -/
theorem read_text_input {n : ℕ} {r : DeviceRef} :
    read (DeviceRef.input n).text = .ok r ↔ (1 ≤ n ∧ n < UInt64.size) ∧ r = .input n := by
  have hof : ofTrimmed? (trim (DeviceRef.input n).text.toList)
      = if 1 ≤ n ∧ n < UInt64.size then some (.input n) else none := by
    rw [toList_text_input, trim_cons_toDigits rfl, ofTrimmed?_toDigits, position?_toDigits]
    split <;> rfl
  rw [read, hof]
  by_cases h : 1 ≤ n ∧ n < UInt64.size
  · rw [if_pos h]
    simp [h, eq_comm]
  · rw [if_neg h]
    simp [h]

/-! ### References that are read back -/

/-- A reference whose text is read: a name is not all blank, and inputs are counted from one. -/
def Legible : DeviceRef → Prop
  | .light name | .group name => trimmed name ≠ ""
  | .input n => 1 ≤ n ∧ n < UInt64.size
  | .allInputs => True

/-- A reference without the blanks around its name. -/
def tidy : DeviceRef → DeviceRef
  | .light name => .light (trimmed name)
  | .group name => .group (trimmed name)
  | .input n => .input n
  | .allInputs => .allInputs

/-- **The text of a reference is read as the tidy reference**, or not at all. -/
theorem read_text_iff {r r' : DeviceRef} : read r.text = .ok r' ↔ r.Legible ∧ r' = r.tidy := by
  cases r with
  | light name => exact read_text_ofKind .light
  | group name => exact read_text_ofKind .group
  | input n => exact read_text_input
  | allInputs =>
    have hread : read (DeviceRef.allInputs).text = .ok .allInputs := rfl
    rw [hread, Except.ok.injEq]
    exact ⟨fun h => ⟨trivial, h.symm⟩, fun h => h.2.symm⟩

/-- A reference that a text can stand for: names are not empty and have no outer blanks, and
inputs are counted from one. -/
def Writable : DeviceRef → Prop
  | .light name | .group name => name ≠ "" ∧ trimmed name = name
  | .input n => 1 ≤ n ∧ n < UInt64.size
  | .allInputs => True

instance : DecidablePred Writable
  | .light name | .group name => inferInstanceAs (Decidable (name ≠ "" ∧ trimmed name = name))
  | .input n => inferInstanceAs (Decidable (1 ≤ n ∧ n < UInt64.size))
  | .allInputs => inferInstanceAs (Decidable True)

/-- A reference can be written if its text is read and it is tidy. -/
theorem writable_iff {r : DeviceRef} : r.Writable ↔ r.Legible ∧ r.tidy = r := by
  have hname : ∀ name, name ≠ "" ∧ trimmed name = name ↔
      trimmed name ≠ "" ∧ trimmed name = name := fun name =>
    and_congr_left fun htrim => by rw [htrim]
  cases r with
  | light name => simpa [Writable, Legible, tidy] using hname name
  | group name => simpa [Writable, Legible, tidy] using hname name
  | input n => simp [Writable, Legible, tidy]
  | allInputs => simp [Writable, Legible, tidy]

/-- A reference is read back if it is writable. -/
theorem read_text_self_iff {r : DeviceRef} : read r.text = .ok r ↔ r.Writable := by
  rw [read_text_iff, writable_iff, eq_comm (a := r)]

/-- A reference is read back. -/
theorem read_text {r : DeviceRef} (h : r.Writable) : read r.text = .ok r :=
  read_text_self_iff.mpr h

/-- **A reference can be told from its text.**  What is read back are all inputs at once, an input
whose position is from one to what a word holds, and a light or a group whose name is bare,
whatever else stands in it. -/
theorem text_denotes :
    (∀ r : DeviceRef, read r.text = .ok r ↔
      r = .allInputs ∨ (∃ n, r = .input n ∧ 1 ≤ n ∧ n < 2 ^ 64) ∨
        ∃ name, (r = .light name ∨ r = .group name) ∧ Bare name) ∧
      Set.InjOn text {r | read r.text = .ok r} := by
  constructor
  · intro r
    rw [read_text_self_iff]
    cases r with
    | light name => simp [Writable, bare_iff]
    | group name => simp [Writable, bare_iff]
    | input n => simp [Writable, UInt64.size]
    | allInputs => simp [Writable]
  · intro r hr r' hr' htext
    have hread : read r'.text = .ok r := htext ▸ hr
    exact Except.ok.inj (hread.symm.trans hr')

/-- Colons, dollar signs and blanks within a name do no harm. -/
theorem crowded_name_denotes :
    read "group:$1: a\u3000b" = .ok (.group "$1: a\u3000b") ∧
      (DeviceRef.group "$1: a\u3000b").text ≠ (DeviceRef.light "$1: a\u3000b").text := by
  have hbare : Bare "$1: a\u3000b" := bare_iff.mpr (by decide)
  have hgroup := (text_denotes.1 (.group _)).mpr (.inr (.inr ⟨_, .inr rfl, hbare⟩))
  have hlight := (text_denotes.1 (.light _)).mpr (.inr (.inr ⟨_, .inl rfl, hbare⟩))
  exact ⟨hgroup, fun htext => nomatch text_denotes.2 hgroup hlight htext⟩

/-! ### What is read -/

theorem read_eq_ok_iff {s : String} {r : DeviceRef} :
    read s = .ok r ↔ ofTrimmed? (trim s.toList) = some r := by
  rw [read]
  cases ofTrimmed? (trim s.toList) <;> simp

/-- A position is a numeral that does not begin with a zero. -/
theorem position?_eq_some_iff {s : List Char} {n : ℕ} :
    position? s = some n ↔ s.head? ≠ some '0' ∧ n < 2 ^ 64 ∧ PlusNumeral s n := by
  rw [position?]
  by_cases h : s.head? = some '0'
  · simp [h]
  · rw [if_neg h, word?_eq_some_iff]
    simp [h]

/-- The plus sign hides the zeros behind it. -/
theorem position?_eq_zero_iff {s : List Char} :
    position? s = some 0 ↔ ∃ zeros, s = '+' :: List.replicate (zeros + 1) '0' := by
  have hzero : ∀ t : List Char, Numeral t 0 ↔ ∃ zeros, t = List.replicate (zeros + 1) '0' := by
    intro t
    simp only [Numeral, Nat.toDigits_zero, ← List.replicate_succ']
  rw [position?_eq_some_iff]
  constructor
  · rintro ⟨hhead, -, hs | ⟨t, rfl, ht⟩⟩
    · obtain ⟨zeros, rfl⟩ := (hzero s).mp hs
      exact absurd rfl hhead
    · obtain ⟨zeros, rfl⟩ := (hzero t).mp ht
      exact ⟨zeros, rfl⟩
  · rintro ⟨zeros, rfl⟩
    exact ⟨by simp, by decide, .inr ⟨_, rfl, (hzero _).mpr ⟨zeros, rfl⟩⟩⟩

/-- What is read of a kind and a name is of one of the two kinds and has the trimmed name. -/
theorem named?_inv {kind name : List Char} {r : DeviceRef} (h : named? kind name = some r) :
    ∃ k, trim name ≠ [] ∧ r = ofKind k (String.ofList (trim name)) := by
  rw [named?] at h
  by_cases hempty : (trim name).isEmpty
  · simp [hempty] at h
  · have hne : trim name ≠ [] := by simpa using hempty
    simp only [hempty, Bool.false_eq_true, if_false] at h
    split at h
    · exact ⟨.light, hne, (Option.some.inj h).symm⟩
    · split at h
      · exact ⟨.group, hne, (Option.some.inj h).symm⟩
      · cases h

/-- What is read can be written, but for the input at zero. -/
theorem writable_of_read {s : String} {r : DeviceRef} (h : read s = .ok r) :
    r.Writable ∨ r = .input 0 := by
  rw [read_eq_ok_iff] at h
  unfold ofTrimmed? at h
  split at h
  · obtain rfl := Option.some.inj h
    exact .inl trivial
  · split at h
    · obtain ⟨n, hn, rfl⟩ := Option.map_eq_some_iff.mp h
      obtain ⟨-, hlt, -⟩ := position?_eq_some_iff.mp hn
      rcases Nat.eq_zero_or_pos n with rfl | hpos
      · exact .inr rfl
      · exact .inl ⟨hpos, hlt⟩
    · obtain ⟨⟨kind, name⟩, -, hnamed⟩ := Option.bind_eq_some_iff.mp h
      obtain ⟨k, hne, rfl⟩ := named?_inv hnamed
      have hname : String.ofList (trim name) ≠ "" ∧
          trimmed (String.ofList (trim name)) = String.ofList (trim name) := by
        rw [trimmed, String.toList_ofList, trim_trim]
        exact ⟨by simpa using hne, rfl⟩
      cases k <;> exact .inl hname

/-- Only a position behind a dollar sign is read as an input. -/
theorem ofTrimmed?_eq_input_iff {s : List Char} {n : ℕ} :
    ofTrimmed? s = some (.input n) ↔ ∃ t, s = '$' :: t ∧ position? t = some n := by
  unfold ofTrimmed?
  constructor
  · intro h
    split at h
    · cases h
    · split at h
      · next t _ =>
        obtain ⟨m, hm, hinput⟩ := Option.map_eq_some_iff.mp h
        cases hinput
        exact ⟨t, rfl, hm⟩
      · obtain ⟨⟨kind, name⟩, -, hnamed⟩ := Option.bind_eq_some_iff.mp h
        obtain ⟨k, -, hr⟩ := named?_inv hnamed
        cases k <;> cases hr
  · rintro ⟨t, rfl, ht⟩
    have hall : '$' :: t ≠ "$all".toList := by
      intro heq
      obtain rfl : t = ['a', 'l', 'l'] := (List.cons.inj heq).2
      cases ht
    rw [if_neg hall]
    show (position? t).map DeviceRef.input = _
    rw [ht]
    rfl

/-- The texts that are read as the input at zero. -/
theorem read_eq_input_zero_iff {s : String} : read s = .ok (.input 0) ↔
    ∃ zeros, trim s.toList = '$' :: '+' :: List.replicate (zeros + 1) '0' := by
  rw [read_eq_ok_iff, ofTrimmed?_eq_input_iff]
  simp only [position?_eq_zero_iff]
  constructor
  · rintro ⟨t, hs, zeros, rfl⟩
    exact ⟨zeros, hs⟩
  · rintro ⟨zeros, hs⟩
    exact ⟨_, hs, zeros, rfl⟩

/-- **What is read is read back.**  A text that stands for a reference stands for one that can be
written, whose text stands for it again.  Positions that begin with a zero are refused, but a zero
behind a plus sign is not, and the texts with such a position are those for which this fails. -/
theorem read_twice (s : String) :
    (∀ r, read s = .ok r → (read r.text = .ok r ↔ r ≠ .input 0)) ∧
      (read s = .ok (.input 0) ↔
        ∃ zeros, trim s.toList = '$' :: '+' :: List.replicate (zeros + 1) '0') ∧
      ∀ digits, trim s.toList = '$' :: '0' :: digits → read s = .error (.deviceRef (trimmed s)) := by
  refine ⟨fun r hr => ?_, read_eq_input_zero_iff, fun digits hs => ?_⟩
  · rw [read_text_self_iff]
    constructor
    · rintro hwritable rfl
      exact absurd hwritable.1 (by decide)
    · exact fun hne => (writable_of_read hr).resolve_right hne
  · rw [read, hs]
    rfl

theorem seventh_input_read_twice :
    read " $+007 " = .ok (.input 7) ∧ read (DeviceRef.input 7).text = .ok (.input 7) ∧
      read "$01" = .error (.deviceRef "$01") := by
  have hread : read " $+007 " = .ok (.input 7) := by rfl
  exact ⟨hread, ((read_twice _).1 _ hread).mpr (by decide), (read_twice "$01").2.2 ['1'] (by rfl)⟩

/-- The input at zero is read of a text, though there is none and its own text is refused. -/
theorem zeroth_input_not_read_twice :
    ¬∀ s r, read s = .ok r → read r.text = .ok r ∧ ∀ n, r = .input n → 1 ≤ n := by
  intro h
  have hzero := (h "$+0" (.input 0) (by rfl)).2 0 rfl
  exact absurd hzero (by decide)

end DeviceRef

end Lightshow
