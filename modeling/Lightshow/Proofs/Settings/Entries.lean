import Lightshow.Proofs.Settings.Variables

/-!
# Entries whose keys are variables

When variables are replaced, lists keep their items and records their entries, each value under
what becomes of its own key.  But the keys of a record are compared while it is put together again,
and by then variables may have made two of them equal.  A text in which two keys are equal is
refused when it is read.  Keys that only become equal are not: **the value of the later one takes
the place of the earlier one, and nobody is told**.

So entries are lost just where two keys of a record become equal, at some depth.  To see this we
count items and entries at all depths.  An entry that takes over another one brings fewer entries
than it would bring at a place of its own, so the count tells whether this has happened anywhere.

## Main definitions

* `Document.keysBecome` — what becomes of the keys of some entries.
* `Document.KeysApart` — no two keys of a record become equal.
* `Document.Kept` — every item and every entry is in its place.
* `Document.count` — how many items and entries a value holds at all depths.

## Main results

* `Document.gather_eq_append` — entries with different keys stay as they are.
* `Document.Filled.kept` — a value whose keys stay apart keeps all its entries.
* `Document.Filled.count_le` — no other value does.
* `Document.entries_kept` — **which values keep their entries.**
* `Document.twoRooms_lost` — an entry that is lost.
-/

namespace Lightshow

namespace Document

/-! ### What is kept -/

mutual

/-- A value with each tag replaced, and every item and every entry in its place: a value stands
under what has become of its own key. -/
inductive Kept (vars : Variables) : Document → Document → Prop
  | leaf {d : Document} (h : d.IsLeaf) : Kept vars d d
  | replaced {tag : String} {d r : Document} (h : vars.replace tag d = .ok r) :
      Kept vars (tagged tag d) r
  | list (form : Form) {ds ds' : List Document} (h : KeptItems vars ds ds') :
      Kept vars (list form ds) (list form ds')
  | record (form : Form) {es es' : List (Document × Document)} (h : KeptEntries vars es es') :
      Kept vars (record form es) (record form es')

/-- `Kept` for the items of a list, one by one. -/
inductive KeptItems (vars : Variables) : List Document → List Document → Prop
  | nil : KeptItems vars [] []
  | cons {d d' : Document} {ds ds' : List Document} (h : Kept vars d d')
      (hrest : KeptItems vars ds ds') : KeptItems vars (d :: ds) (d' :: ds')

/-- `Kept` for the keys and the values of some entries, one by one. -/
inductive KeptEntries (vars : Variables) :
    List (Document × Document) → List (Document × Document) → Prop
  | nil : KeptEntries vars [] []
  | cons {k k' d d' : Document} {es es' : List (Document × Document)} (hk : Kept vars k k')
      (hd : Kept vars d d') (hrest : KeptEntries vars es es') :
      KeptEntries vars ((k, d) :: es) ((k', d') :: es')

end

/-! ### What keys become -/

/-- What becomes of the keys of some entries. -/
def keysBecome (vars : Variables) (es : List (Document × Document)) : List Document :=
  es.filterMap fun e => (e.1.substitute vars).toOption

mutual

/-- In no record, at any depth, do two keys become equal. -/
def KeysApart (vars : Variables) : Document → Prop
  | list _ ds => KeysApartItems vars ds
  | record _ es => KeysApartEntries vars es ∧
      (keysBecome vars es).Pairwise fun k k' => same k k' = false
  | _ => True

/-- `KeysApart` for the items of a list. -/
def KeysApartItems (vars : Variables) : List Document → Prop
  | [] => True
  | d :: ds => KeysApart vars d ∧ KeysApartItems vars ds

/-- `KeysApart` for the keys and the values of some entries. -/
def KeysApartEntries (vars : Variables) : List (Document × Document) → Prop
  | [] => True
  | (k, d) :: es => KeysApart vars k ∧ KeysApart vars d ∧ KeysApartEntries vars es

end

section

variable {vars : Variables}

theorem keysApart_leaf {d : Document} (h : d.IsLeaf) : d.KeysApart vars := by
  cases d with
  | list | record | tagged => exact h.elim
  | _ => trivial

theorem FilledEntries.keysBecome {es es' : List (Document × Document)}
    (h : FilledEntries vars es es') : keysBecome vars es = es'.map Prod.fst := by
  induction es generalizing es' with
  | nil =>
    cases h
    rfl
  | cons e es ih =>
    cases h with
    | cons hk _ hrest =>
      rw [Document.keysBecome, List.filterMap_cons, (substitute_eq_ok_iff _).mpr hk]
      exact congrArg _ (ih hrest)

/-- The keys that are entered are what becomes of the keys that are given. -/
theorem FilledEntries.keysDiffer_iff {es es' : List (Document × Document)}
    (h : FilledEntries vars es es') :
    KeysDiffer es' ↔ (Document.keysBecome vars es).Pairwise fun k k' => same k k' = false := by
  rw [h.keysBecome, KeysDiffer]

end

/-! ### Putting entries together -/

section Records

variable {k d : Document} {before es : List (Document × Document)}

theorem keysDiffer_nil : KeysDiffer [] := .nil

theorem gather_cons (before es : List (Document × Document)) (e : Document × Document) :
    gather before (e :: es) = gather (putEntry e.1 e.2 before) es := rfl

/-- **Entries with different keys stay as they are.** -/
theorem gather_eq_append (h : KeysDiffer (before ++ es)) : gather before es = before ++ es := by
  induction es generalizing before with
  | nil => exact (List.append_nil before).symm
  | cons e es ih =>
    have hdiffer : KeysDiffer ((before ++ [e]) ++ es) := by
      rwa [List.append_assoc, List.singleton_append]
    have hnew : hasKey before e.1 = false := (keysDiffer_append_singleton.mp hdiffer.left).2
    rw [gather_cons, putEntry_of_new hnew, ih hdiffer, List.append_assoc, List.singleton_append]

mutual

/-- How many items and entries a value holds, at all depths, in keys as well. -/
def count : Document → ℕ
  | list _ ds => countItems ds
  | record _ es => countEntries es
  | _ => 0

/-- `count` for the items of a list. -/
def countItems : List Document → ℕ
  | [] => 0
  | d :: ds => count d + 1 + countItems ds

/-- `count` for the keys and the values of some entries. -/
def countEntries : List (Document × Document) → ℕ
  | [] => 0
  | (k, d) :: es => count k + count d + 1 + countEntries es

end

theorem count_leaf {d : Document} (h : d.IsLeaf) : d.count = 0 := by
  cases d with
  | list | record | tagged => exact h.elim
  | _ => rfl

theorem countEntries_append (es es' : List (Document × Document)) :
    countEntries (es ++ es') = countEntries es + countEntries es' := by
  induction es with
  | nil => exact (Nat.zero_add _).symm
  | cons e es ih =>
    rw [List.cons_append, countEntries, countEntries, ih]
    omega

/-- An entry adds what it holds, or less if it takes over another one. -/
theorem countEntries_putEntry (k d : Document) (before : List (Document × Document)) :
    countEntries (putEntry k d before) ≤ countEntries before + (k.count + d.count + 1) ∧
      (countEntries (putEntry k d before) = countEntries before + (k.count + d.count + 1) →
        hasKey before k = false) := by
  induction before with
  | nil =>
    rw [putEntry, countEntries, Nat.add_comm]
    exact ⟨Nat.le_refl _, fun _ => rfl⟩
  | cons e before ih =>
    rw [putEntry, hasKey, List.any_cons, Bool.or_eq_false_iff]
    split
    · -- the key and the value of the entry that is taken over are gone
      simp only [countEntries]
      exact ⟨by omega, fun heq => absurd heq (by omega)⟩
    · next hnot =>
      simp only [countEntries]
      exact ⟨by omega, fun heq => ⟨Bool.eq_false_iff.mpr hnot, ih.2 (by omega)⟩⟩

/-- **Putting entries together loses some if two keys are equal**, and only then. -/
theorem countEntries_gather (h : KeysDiffer before) (es : List (Document × Document)) :
    countEntries (gather before es) ≤ countEntries before + countEntries es ∧
      (countEntries (gather before es) = countEntries before + countEntries es →
        KeysDiffer (before ++ es)) := by
  induction es generalizing before with
  | nil =>
    rw [List.append_nil]
    exact ⟨Nat.le_refl _, fun _ => h⟩
  | cons e es ih =>
    obtain ⟨hput, hnew⟩ := countEntries_putEntry e.1 e.2 before
    obtain ⟨hle, hdiffer⟩ := ih (h.putEntry (k := e.1) (d := e.2))
    rw [gather_cons, countEntries]
    refine ⟨by omega, fun heq => ?_⟩
    rw [putEntry_of_new (hnew (by omega)), countEntries_append, List.append_assoc,
      List.singleton_append] at hdiffer
    rw [putEntry_of_new (hnew (by omega))] at heq
    refine hdiffer (heq.trans ?_)
    simp only [countEntries]
    omega

end Records

/-! ### Which values keep their entries -/

section Keeping

variable {vars : Variables}

mutual

/-- **A value whose keys stay apart keeps all its entries.** -/
theorem Filled.kept {d r : Document} : Filled vars d r → d.KeysApart vars → Kept vars d r
  | .leaf h, _ => .leaf h
  | .found hs hd, _ => .replaced
      (Variables.replace_eq_ok_iff.mpr ⟨_, _, rfl, rfl, hs, reads_iff.mp hd⟩)
  | .list form h, hapart => .list form (h.kept hapart)
  | .record form h, hapart => by
    -- no entry is taken over, so putting the entries together changes nothing
    have hgather : gather [] _ = _ := gather_eq_append (h.keysDiffer_iff.mpr hapart.2)
    rw [hgather]
    exact .record form (h.kept hapart.1)

theorem FilledItems.kept {ds rs : List Document} :
    FilledItems vars ds rs → KeysApartItems vars ds → KeptItems vars ds rs
  | .nil, _ => .nil
  | .cons h hrest, hapart => .cons (h.kept hapart.1) (hrest.kept hapart.2)

theorem FilledEntries.kept {es rs : List (Document × Document)} :
    FilledEntries vars es rs → KeysApartEntries vars es → KeptEntries vars es rs
  | .nil, _ => .nil
  | .cons hk hd hrest, hapart =>
    .cons (hk.kept hapart.1) (hd.kept hapart.2.1) (hrest.kept hapart.2.2)

end

mutual

/-- What is kept is as much as there was. -/
theorem Kept.count_eq {d r : Document} : Kept vars d r → r.count = d.count
  | .leaf _ => rfl
  | .replaced h => by
    obtain ⟨_, _, -, -, -, rfl⟩ := Variables.replace_eq_ok_iff.mp h
    exact count_leaf (Reads.isLeaf (reads_iff.mpr rfl))
  | .list _ h => h.count_eq
  | .record _ h => h.count_eq

theorem KeptItems.count_eq {ds rs : List Document} :
    KeptItems vars ds rs → countItems rs = countItems ds
  | .nil => rfl
  | .cons h hrest => by rw [countItems, countItems, h.count_eq, hrest.count_eq]

theorem KeptEntries.count_eq {es rs : List (Document × Document)} :
    KeptEntries vars es rs → countEntries rs = countEntries es
  | .nil => rfl
  | .cons hk hd hrest => by
    rw [countEntries, countEntries, hk.count_eq, hd.count_eq, hrest.count_eq]

end

mutual

/-- There is never more than there was, and there is less unless all keys stay apart. -/
theorem Filled.count_le {d r : Document} : Filled vars d r →
    r.count ≤ d.count ∧ (r.count = d.count → d.KeysApart vars)
  | .leaf h => ⟨Nat.le_refl _, fun _ => keysApart_leaf h⟩
  | .found _ hd => ⟨Nat.le_of_eq (count_leaf hd.isLeaf), fun _ => trivial⟩
  | .list _ h => h.count_le
  | @Filled.record _ _ _ es' h => by
    obtain ⟨hle, hapart⟩ := h.count_le
    obtain ⟨hgather, hdiffer⟩ := countEntries_gather keysDiffer_nil es'
    rw [countEntries, Nat.zero_add] at hgather hdiffer
    simp only [count, KeysApart]
    exact ⟨Nat.le_trans hgather hle, fun heq =>
      ⟨hapart (by omega), h.keysDiffer_iff.mp (hdiffer (by omega))⟩⟩

theorem FilledItems.count_le {ds rs : List Document} : FilledItems vars ds rs →
    countItems rs ≤ countItems ds ∧ (countItems rs = countItems ds → KeysApartItems vars ds)
  | .nil => ⟨Nat.le_refl _, fun _ => trivial⟩
  | .cons h hrest => by
    obtain ⟨hle, hapart⟩ := h.count_le
    obtain ⟨hles, haparts⟩ := hrest.count_le
    simp only [countItems, KeysApartItems]
    exact ⟨by omega, fun heq => ⟨hapart (by omega), haparts (by omega)⟩⟩

theorem FilledEntries.count_le {es rs : List (Document × Document)} : FilledEntries vars es rs →
    countEntries rs ≤ countEntries es ∧
      (countEntries rs = countEntries es → KeysApartEntries vars es)
  | .nil => ⟨Nat.le_refl _, fun _ => trivial⟩
  | .cons hk hd hrest => by
    obtain ⟨hlek, hapartk⟩ := hk.count_le
    obtain ⟨hled, hapartd⟩ := hd.count_le
    obtain ⟨hles, haparts⟩ := hrest.count_le
    simp only [countEntries, KeysApartEntries]
    exact ⟨by omega, fun heq => ⟨hapartk (by omega), hapartd (by omega), haparts (by omega)⟩⟩

end

theorem FilledItems.length_eq {ds rs : List Document} :
    FilledItems vars ds rs → rs.length = ds.length
  | .nil => rfl
  | .cons _ hrest => congrArg (· + 1) hrest.length_eq

/-- **Which values keep their entries.**  A list keeps its length in any case.  If no two keys of a
record become equal, every item stays where it is, and every entry too, its value under what has
become of its key.  A value never comes to hold more items and entries than before, and it holds as
many just if its keys stay apart: otherwise some are gone, without an error. -/
theorem entries_kept {d r : Document} (h : d.substitute vars = .ok r) :
    (∀ form ds, d = list form ds → ∃ rs, r = list form rs ∧ rs.length = ds.length) ∧
      (Kept vars d r ↔ d.KeysApart vars) ∧
      r.count ≤ d.count ∧ (r.count = d.count ↔ d.KeysApart vars) := by
  have hfilled : Filled vars d r := (substitute_eq_ok_iff d).mp h
  obtain ⟨hle, hapart⟩ := hfilled.count_le
  refine ⟨?_, ⟨fun hkept => hapart hkept.count_eq, hfilled.kept⟩, hle,
    ⟨hapart, fun h => (hfilled.kept h).count_eq⟩⟩
  rintro form ds rfl
  cases hfilled with
  | leaf hleaf => exact hleaf.elim
  | list _ hitems => exact ⟨_, rfl, hitems.length_eq⟩

end Keeping

/-- Settings of two rooms, the second of which is named by a variable. -/
def twoRooms : Document :=
  record (.yaml none)
    [(text "hall", int 1),
      (tagged variableTag (text "ROOM"),
        list (.yaml none) [tagged variableTag (text "ROOM"), int 3])]

/-- An environment in which a room is called by some name. -/
def room (name : String) : Variables
  | "ROOM" => some name
  | _ => none

theorem twoRooms_kept :
    twoRooms.substitute (room "desk") = .ok (record (.yaml none)
        [(text "hall", int 1), (text "desk", list (.yaml none) [text "desk", int 3])]) ∧
      Kept (room "desk") twoRooms (record (.yaml none)
        [(text "hall", int 1), (text "desk", list (.yaml none) [text "desk", int 3])]) := by
  have heval : twoRooms.substitute (room "desk") = .ok (record (.yaml none)
      [(text "hall", int 1), (text "desk", list (.yaml none) [text "desk", int 3])]) := by rfl
  have hapart : twoRooms.KeysApart (room "desk") :=
    ⟨⟨trivial, trivial, trivial, ⟨trivial, trivial, trivial⟩, trivial⟩, by decide +kernel⟩
  exact ⟨heval, (entries_kept heval).2.1.mpr hapart⟩

/-- If the second room is called like the first one, the settings of the first are gone. -/
theorem twoRooms_lost :
    twoRooms.substitute (room "hall") = .ok (record (.yaml none)
        [(text "hall", list (.yaml none) [text "hall", int 3])]) ∧
      ¬∀ vars form es r, KeysDiffer es → (record form es).substitute vars = .ok r →
        ∃ es', r = record form es' ∧ es'.length = es.length := by
  have heval : twoRooms.substitute (room "hall") = .ok (record (.yaml none)
      [(text "hall", list (.yaml none) [text "hall", int 3])]) := by rfl
  refine ⟨heval, fun h => ?_⟩
  obtain ⟨es', hes', hlength⟩ := h _ _ _ _ (by unfold KeysDiffer; decide +kernel) heval
  cases hes'
  exact absurd hlength (by decide)

end Document

end Lightshow
