import Lightshow.Proofs.Reading.Order
import Lightshow.Settings.Variables

/-!
# Values with their variables replaced

A value is taken apart, what stands under tags is replaced, and the rest is put together again.  So
whether this comes to anything, and to what, depends on the tags alone: each must stand for a
variable that is set or has a default.  What takes the place of a tag is a truth value, a number,
or a text just as it was found, and none of these has tags, lists or records in it.  Hence nothing
is left to replace, and to replace variables again, whatever they are, changes nothing.

Records need care.  They are put together entry by entry, and an entry takes over one before it
that has an equal key.  All keys of what comes out differ, so putting it together again entry by
entry leaves it as it is.

## Main definitions

* `Variables.lookup` — the text that a specification stands for.
* `Document.Reads` — what a text becomes.
* `Document.Filled` — a value with something in place of each tag.
* `Document.tags`, `Document.variableNames` — the tags of a value, and the variables that it names.
* `Document.Finished` — nothing is left to replace, and no two keys are equal.

## Main results

* `Document.substitute_eq_ok_iff` — replacing variables is filling in values.
* `Document.exists_filled_iff` — when it comes to something.
* `Document.Filled.finished`, `Document.Finished.substitute` — nothing is left to replace.
* `Document.substitute_congr` — it depends on the variables that are named.
* `Document.substitute_exactly` — **what becomes of a value.**
-/

namespace Lightshow

/-! ### Variables -/

namespace Variables

variable {vars : Variables} {spec tag : String} {d r : Document}

/-- The text that a specification stands for: that of the variable, or else the default. -/
def lookup (vars : Variables) (spec : String) : Option String :=
  (vars (nameAndDefault spec).1).or (nameAndDefault spec).2

/-- A tag can be replaced: it is the tag of variables, and what stands under it is a text that names
a variable that is set or gives a default. -/
def Answers (vars : Variables) (tag : String) (d : Document) : Prop :=
  tag = variableTag ∧ ∃ spec, d = .text spec ∧
    ((vars (nameAndDefault spec).1).isSome = true ∨ (nameAndDefault spec).2.isSome = true)

/-- The variable that a tag names, if it names one. -/
def named? (tag : String) : Document → Option String
  | .text spec => if tag = variableTag then some (nameAndDefault spec).1 else none
  | _ => none

theorem found_eq : vars.found spec = match vars.lookup spec with
    | some s => .ok (typed s)
    | none => .error (.unsetVariable (nameAndDefault spec).1) :=
  rfl

theorem replace_eq_ok_iff : vars.replace tag d = .ok r ↔ ∃ spec s,
    tag = variableTag ∧ d = .text spec ∧ vars.lookup spec = some s ∧ r = typed s := by
  unfold replace
  by_cases htag : tag = variableTag
  · rw [if_pos htag]
    cases d with
    | text spec =>
      show vars.found spec = .ok r ↔ _
      rw [found_eq]
      cases hs : vars.lookup spec with
      | none => simp [hs]
      | some s => simp [htag, hs, eq_comm]
    | _ => simp
  · rw [if_neg htag]
    simp [htag]

theorem replaces_iff : (∃ r, vars.replace tag d = .ok r) ↔ vars.Answers tag d := by
  simp only [replace_eq_ok_iff, Answers]
  constructor
  · rintro ⟨r, spec, s, htag, hd, hs, -⟩
    refine ⟨htag, spec, hd, ?_⟩
    rw [← Bool.or_eq_true, ← Option.isSome_or]
    exact Option.isSome_iff_exists.mpr ⟨s, hs⟩
  · rintro ⟨htag, spec, hd, hs⟩
    rw [← Bool.or_eq_true, ← Option.isSome_or] at hs
    obtain ⟨s, hs⟩ := Option.isSome_iff_exists.mp hs
    exact ⟨typed s, spec, s, htag, hd, hs, rfl⟩

/-- What stands for a tag depends on the variable that it names. -/
theorem replace_congr {vars' : Variables} (h : ∀ name ∈ named? tag d, vars name = vars' name) :
    vars.replace tag d = vars'.replace tag d := by
  unfold replace
  by_cases htag : tag = variableTag
  · cases d with
    | text spec =>
      have hname : vars (nameAndDefault spec).1 = vars' (nameAndDefault spec).1 :=
        h _ (if_pos htag)
      simp only [htag, found, hname]
    | _ => rfl
  · rw [if_neg htag, if_neg htag]

end Variables

namespace Document

open Variables

/-! ### What takes the place of tags -/

/-- A truth value or a number. -/
def IsTyped : Document → Prop
  | bool _ | int _ | float _ => True
  | _ => False

/-- What a text becomes: a truth value or a number if it reads as one, and else it stays as it is,
whatever it looks like. -/
inductive Reads (s : String) : Document → Prop
  | typed {d : Document} (hread : readYaml value s = .ok d) (hd : d.IsTyped) : Reads s d
  | verbatim (h : ∀ d, readYaml value s = .ok d → ¬d.IsTyped) : Reads s (text s)

theorem reads_iff {s : String} {d : Document} : Reads s d ↔ d = typed s := by
  constructor
  · intro h
    cases h with
    | typed hread hd =>
      cases d with
      | bool | int | float => rw [typed, hread]
      | _ => exact hd.elim
    | verbatim h =>
      unfold typed
      split
      · next hread => exact absurd trivial (h _ hread)
      · next hread => exact absurd trivial (h _ hread)
      · next hread => exact absurd trivial (h _ hread)
      · rfl
  · rintro rfl
    unfold typed
    split
    · next hread => exact .typed hread trivial
    · next hread => exact .typed hread trivial
    · next hread => exact .typed hread trivial
    · next hbool hint hfloat =>
      refine .verbatim fun d hread hd => ?_
      cases d with
      | bool b => exact hbool b hread
      | int n => exact hint n hread
      | float x => exact hfloat x hread
      | _ => exact hd

/-- Entries put together one after the other. -/
def gather (before es : List (Document × Document)) : List (Document × Document) :=
  es.foldl (fun before e => putEntry e.1 e.2 before) before

mutual

/-- A value with something in place of each tag.  Lists keep their items, and records are put
together from their entries. -/
inductive Filled (vars : Variables) : Document → Document → Prop
  | leaf {d : Document} (h : d.IsLeaf) : Filled vars d d
  | found {spec s : String} {d : Document} (hs : vars.lookup spec = some s) (hd : Reads s d) :
      Filled vars (tagged variableTag (text spec)) d
  | list (form : Form) {ds ds' : List Document} (h : FilledItems vars ds ds') :
      Filled vars (list form ds) (list form ds')
  | record (form : Form) {es es' : List (Document × Document)} (h : FilledEntries vars es es') :
      Filled vars (record form es) (record form (gather [] es'))

/-- `Filled` for the items of a list. -/
inductive FilledItems (vars : Variables) : List Document → List Document → Prop
  | nil : FilledItems vars [] []
  | cons {d d' : Document} {ds ds' : List Document} (h : Filled vars d d')
      (hrest : FilledItems vars ds ds') : FilledItems vars (d :: ds) (d' :: ds')

/-- `Filled` for the keys and the values of some entries. -/
inductive FilledEntries (vars : Variables) :
    List (Document × Document) → List (Document × Document) → Prop
  | nil : FilledEntries vars [] []
  | cons {k k' d d' : Document} {es es' : List (Document × Document)} (hk : Filled vars k k')
      (hd : Filled vars d d') (hrest : FilledEntries vars es es') :
      FilledEntries vars ((k, d) :: es) ((k', d') :: es')

end

theorem substitute_leaf {vars : Variables} {d : Document} (h : d.IsLeaf) :
    d.substitute vars = .ok d := by
  cases d with
  | tagged | list | record => exact h.elim
  | _ => rfl

/-- A leaf stays as it is. -/
theorem leaf_eq_ok_iff {vars : Variables} {d r : Document} (h : d.IsLeaf) :
    d.substitute vars = .ok r ↔ Filled vars d r := by
  rw [substitute_leaf h, Except.ok.injEq]
  constructor
  · rintro rfl
    exact .leaf h
  · intro hfilled
    cases hfilled with
    | leaf => rfl
    | found | list | record => exact h.elim

mutual

/-- **Replacing variables is filling in values.** -/
theorem substitute_eq_ok_iff {vars : Variables} : ∀ (d : Document) {r : Document},
    d.substitute vars = .ok r ↔ Filled vars d r
  | .null, _ | .bool _, _ | .int _, _ | .float _, _ | .text _, _ | .scalar _, _ | .absent, _
  | .broken _, _ => leaf_eq_ok_iff trivial
  | .tagged tag d, r => by
    -- what stands under a tag is not taken apart, so there is no induction here
    rw [substitute, replace_eq_ok_iff]
    constructor
    · rintro ⟨spec, s, rfl, rfl, hs, rfl⟩
      exact .found hs (reads_iff.mpr rfl)
    · intro h
      cases h with
      | leaf h => exact h.elim
      | found hs hd => exact ⟨_, _, rfl, rfl, hs, reads_iff.mp hd⟩
  | .list form ds, r => by
    rw [substitute, bind_eq_ok]
    constructor
    · rintro ⟨ds', hds, h⟩
      rw [← Except.ok.inj h]
      exact .list form ((substituteItems_eq_ok_iff ds).mp hds)
    · intro h
      cases h with
      | leaf h => exact h.elim
      | list _ h => exact ⟨_, (substituteItems_eq_ok_iff ds).mpr h, rfl⟩
  | .record form es, r => by
    rw [substitute, bind_eq_ok]
    constructor
    · rintro ⟨rs, hes, h⟩
      obtain ⟨es', hfilled, rfl⟩ := (substituteEntries_eq_ok_iff es).mp hes
      rw [← Except.ok.inj h]
      exact .record form hfilled
    · intro h
      cases h with
      | leaf h => exact h.elim
      | record _ h => exact ⟨_, (substituteEntries_eq_ok_iff es).mpr ⟨_, h, rfl⟩, rfl⟩

theorem substituteItems_eq_ok_iff {vars : Variables} : ∀ (ds : List Document) {rs : List Document},
    substituteItems vars ds = .ok rs ↔ FilledItems vars ds rs
  | [], rs => by
    rw [substituteItems, Except.ok.injEq]
    constructor
    · rintro rfl
      exact .nil
    · intro h
      cases h
      rfl
  | d :: ds, rs => by
    rw [substituteItems, bind_eq_ok]
    simp only [bind_eq_ok, substitute_eq_ok_iff d, substituteItems_eq_ok_iff ds]
    constructor
    · rintro ⟨d', hd, ds', hds, h⟩
      rw [← Except.ok.inj h]
      exact .cons hd hds
    · intro h
      cases h with
      | cons hd hds => exact ⟨_, hd, _, hds, rfl⟩

theorem substituteEntries_eq_ok_iff {vars : Variables} :
    ∀ (es : List (Document × Document)) {before rs : List (Document × Document)},
      substituteEntries vars before es = .ok rs ↔
        ∃ es', FilledEntries vars es es' ∧ rs = gather before es'
  | [], before, rs => by
    rw [substituteEntries, Except.ok.injEq]
    constructor
    · rintro rfl
      exact ⟨[], .nil, rfl⟩
    · rintro ⟨es', h, rfl⟩
      cases h
      rfl
  | (k, d) :: es, before, rs => by
    rw [substituteEntries, bind_eq_ok]
    simp only [bind_eq_ok, substitute_eq_ok_iff k, substitute_eq_ok_iff d,
      substituteEntries_eq_ok_iff es]
    constructor
    · rintro ⟨k', hk, d', hd, es', hes, rfl⟩
      exact ⟨_, .cons hk hd hes, rfl⟩
    · rintro ⟨es', h, rfl⟩
      cases h with
      | cons hk hd hes => exact ⟨_, hk, _, hd, _, hes, rfl⟩

end

/-! ### Tags -/

mutual

/-- The tags of a value with what stands under them, at any depth, in keys as well.  As in every value
that `value` makes of a document, they stand in the tree and not in forms. -/
def tags : Document → List (String × Document)
  | tagged tag d => (tag, d) :: tags d
  | list _ ds => tagsItems ds
  | record _ es => tagsEntries es
  | _ => []

/-- `tags` for the items of a list. -/
def tagsItems : List Document → List (String × Document)
  | [] => []
  | d :: ds => tags d ++ tagsItems ds

/-- `tags` for the keys and the values of some entries. -/
def tagsEntries : List (Document × Document) → List (String × Document)
  | [] => []
  | (k, d) :: es => tags k ++ (tags d ++ tagsEntries es)

end

/-- The variables that a value names. -/
def variableNames (d : Document) : List String :=
  d.tags.filterMap fun t => named? t.1 t.2

theorem tags_leaf {d : Document} (h : d.IsLeaf) : d.tags = [] := by
  cases d with
  | tagged | list | record => exact h.elim
  | _ => rfl

section Fillable

variable {vars : Variables}

mutual

/-- Where something is in place of each tag, each tag could be replaced. -/
theorem Filled.answers {d r : Document} : Filled vars d r → ∀ t ∈ d.tags, vars.Answers t.1 t.2
  | .leaf h => by
    rw [tags_leaf h]
    exact nofun
  | .found hs hd => by
    intro t ht
    rw [List.mem_singleton.mp ht]
    exact replaces_iff.mp ⟨_, replace_eq_ok_iff.mpr ⟨_, _, rfl, rfl, hs, rfl⟩⟩
  | .list _ h => h.answers
  | .record _ h => h.answers

theorem FilledItems.answers {ds rs : List Document} :
    FilledItems vars ds rs → ∀ t ∈ tagsItems ds, vars.Answers t.1 t.2
  | .nil => nofun
  | .cons h hrest => by
    rw [tagsItems, List.forall_mem_append]
    exact ⟨h.answers, hrest.answers⟩

theorem FilledEntries.answers {es rs : List (Document × Document)} :
    FilledEntries vars es rs → ∀ t ∈ tagsEntries es, vars.Answers t.1 t.2
  | .nil => nofun
  | .cons hk hd hrest => by
    rw [tagsEntries, List.forall_mem_append, List.forall_mem_append]
    exact ⟨hk.answers, hd.answers, hrest.answers⟩

end

mutual

/-- Where each tag can be replaced, something can be put in place of each. -/
theorem exists_filled : ∀ d : Document, (∀ t ∈ d.tags, vars.Answers t.1 t.2) →
    ∃ r, Filled vars d r
  | .null, _ | .bool _, _ | .int _, _ | .float _, _ | .text _, _ | .scalar _, _ | .absent, _
  | .broken _, _ => ⟨_, .leaf trivial⟩
  | .tagged tag d, h => by
    obtain ⟨r, hr⟩ := replaces_iff.mpr (h (tag, d) List.mem_cons_self)
    exact ⟨r, (substitute_eq_ok_iff (tagged tag d)).mp hr⟩
  | .list form ds, h =>
    have ⟨rs, hrs⟩ := exists_filledItems ds h
    ⟨list form rs, .list form hrs⟩
  | .record form es, h =>
    have ⟨rs, hrs⟩ := exists_filledEntries es h
    ⟨record form (gather [] rs), .record form hrs⟩

theorem exists_filledItems : ∀ ds : List Document, (∀ t ∈ tagsItems ds, vars.Answers t.1 t.2) →
    ∃ rs, FilledItems vars ds rs
  | [], _ => ⟨[], .nil⟩
  | d :: ds, h => by
    rw [tagsItems, List.forall_mem_append] at h
    obtain ⟨r, hr⟩ := exists_filled d h.1
    obtain ⟨rs, hrs⟩ := exists_filledItems ds h.2
    exact ⟨r :: rs, .cons hr hrs⟩

theorem exists_filledEntries : ∀ es : List (Document × Document),
    (∀ t ∈ tagsEntries es, vars.Answers t.1 t.2) → ∃ rs, FilledEntries vars es rs
  | [], _ => ⟨[], .nil⟩
  | (k, d) :: es, h => by
    rw [tagsEntries, List.forall_mem_append, List.forall_mem_append] at h
    obtain ⟨k', hk⟩ := exists_filled k h.1
    obtain ⟨d', hd⟩ := exists_filled d h.2.1
    obtain ⟨rs, hrs⟩ := exists_filledEntries es h.2.2
    exact ⟨(k', d') :: rs, .cons hk hd hrs⟩

end

theorem exists_filled_iff {d : Document} :
    (∃ r, Filled vars d r) ↔ ∀ t ∈ d.tags, vars.Answers t.1 t.2 :=
  ⟨fun ⟨_, h⟩ => h.answers, exists_filled d⟩

end Fillable

/-! ### Finished values -/

/-- No two entries have equal keys. -/
def KeysDiffer (es : List (Document × Document)) : Prop :=
  (es.map Prod.fst).Pairwise fun k k' => same k k' = false

mutual

/-- Nothing is left to replace, and no two keys of a record are equal. -/
def Finished : Document → Prop
  | tagged .. => False
  | list _ ds => FinishedItems ds
  | record _ es => FinishedEntries es ∧ KeysDiffer es
  | _ => True

/-- `Finished` for the items of a list. -/
def FinishedItems : List Document → Prop
  | [] => True
  | d :: ds => Finished d ∧ FinishedItems ds

/-- `Finished` for the keys and the values of some entries. -/
def FinishedEntries : List (Document × Document) → Prop
  | [] => True
  | (k, d) :: es => Finished k ∧ Finished d ∧ FinishedEntries es

end

theorem finished_leaf {d : Document} (h : d.IsLeaf) : d.Finished := by
  cases d with
  | tagged | list | record => exact h.elim
  | _ => trivial

theorem Reads.isLeaf {s : String} {d : Document} (h : Reads s d) : d.IsLeaf := by
  cases h with
  | typed _ hd => cases d <;> trivial
  | verbatim => trivial

section Records

variable {k d : Document} {before es : List (Document × Document)}

theorem FinishedEntries.putEntry (h : FinishedEntries before) (hk : k.Finished)
    (hd : d.Finished) : FinishedEntries (putEntry k d before) := by
  induction before with
  | nil => exact ⟨hk, hd, trivial⟩
  | cons e before ih =>
    obtain ⟨hk', hd', hbefore⟩ := h
    rw [Lightshow.putEntry]
    split
    · exact ⟨hk', hd, hbefore⟩
    · exact ⟨hk', hd', ih hbefore⟩

theorem FinishedEntries.gather (h : FinishedEntries before) (hes : FinishedEntries es) :
    FinishedEntries (gather before es) := by
  induction es generalizing before with
  | nil => exact h
  | cons e es ih => exact ih (h.putEntry hes.1 hes.2.1) hes.2.2

/-- An entry with a new key comes last. -/
theorem putEntry_of_new (h : hasKey before k = false) :
    putEntry k d before = before ++ [(k, d)] := by
  induction before with
  | nil => rfl
  | cons e before ih =>
    rw [hasKey, List.any_cons, Bool.or_eq_false_iff] at h
    rw [putEntry, if_neg (by rw [h.1]; exact Bool.false_ne_true), ih h.2, List.cons_append]

/-- An entry whose key is there already brings no key of its own. -/
theorem keys_putEntry_of_hasKey (h : hasKey before k = true) :
    (putEntry k d before).map Prod.fst = before.map Prod.fst := by
  induction before with
  | nil => exact absurd h Bool.false_ne_true
  | cons e before ih =>
    rw [hasKey, List.any_cons, Bool.or_eq_true] at h
    rw [putEntry]
    split
    · rfl
    · next hnot => rw [List.map_cons, List.map_cons, ih (h.resolve_left hnot)]

theorem KeysDiffer.left (h : KeysDiffer (before ++ es)) : KeysDiffer before :=
  h.sublist ((List.sublist_append_left before es).map Prod.fst)

theorem keysDiffer_append_singleton :
    KeysDiffer (before ++ [(k, d)]) ↔ KeysDiffer before ∧ hasKey before k = false := by
  rw [KeysDiffer, List.map_append, List.pairwise_append, hasKey, List.any_eq_false]
  simp [KeysDiffer]

theorem KeysDiffer.putEntry (h : KeysDiffer before) : KeysDiffer (putEntry k d before) := by
  -- an entry that is taken over keeps its key
  cases hk : hasKey before k with
  | true => rwa [KeysDiffer, keys_putEntry_of_hasKey hk]
  | false =>
    rw [putEntry_of_new hk]
    exact keysDiffer_append_singleton.mpr ⟨h, hk⟩

theorem KeysDiffer.gather (h : KeysDiffer before) : KeysDiffer (gather before es) := by
  induction es generalizing before with
  | nil => exact h
  | cons e es ih => exact ih h.putEntry

end Records

section Again

variable {vars : Variables}

mutual

/-- **What is put together has nothing left to replace.** -/
theorem Filled.finished {d r : Document} : Filled vars d r → r.Finished
  | .leaf h => finished_leaf h
  | .found _ hd => finished_leaf hd.isLeaf
  | .list _ h => h.finished
  | .record _ h => ⟨FinishedEntries.gather trivial h.finished, KeysDiffer.gather .nil⟩

theorem FilledItems.finished {ds rs : List Document} : FilledItems vars ds rs → FinishedItems rs
  | .nil => trivial
  | .cons h hrest => ⟨h.finished, hrest.finished⟩

theorem FilledEntries.finished {es rs : List (Document × Document)} :
    FilledEntries vars es rs → FinishedEntries rs
  | .nil => trivial
  | .cons hk hd hrest => ⟨hk.finished, hd.finished, hrest.finished⟩

end

mutual

theorem Finished.tags_eq_nil : ∀ {d : Document}, d.Finished → d.tags = []
  | .null, _ | .bool _, _ | .int _, _ | .float _, _ | .text _, _ | .scalar _, _ | .absent, _
  | .broken _, _ => rfl
  | .list _ _, h => FinishedItems.tags_eq_nil h
  | .record _ _, h => FinishedEntries.tags_eq_nil h.1

theorem FinishedItems.tags_eq_nil : ∀ {ds : List Document}, FinishedItems ds → tagsItems ds = []
  | [], _ => rfl
  | d :: ds, h => by rw [tagsItems, h.1.tags_eq_nil, FinishedItems.tags_eq_nil h.2]; rfl

theorem FinishedEntries.tags_eq_nil : ∀ {es : List (Document × Document)}, FinishedEntries es →
    tagsEntries es = []
  | [], _ => rfl
  | (k, d) :: es, h => by
    rw [tagsEntries, h.1.tags_eq_nil, h.2.1.tags_eq_nil, FinishedEntries.tags_eq_nil h.2.2]
    rfl

end

mutual

/-- **A finished value stays as it is.** -/
theorem Finished.substitute : ∀ {d : Document}, d.Finished → d.substitute vars = .ok d
  | .null, _ | .bool _, _ | .int _, _ | .float _, _ | .text _, _ | .scalar _, _ | .absent, _
  | .broken _, _ => rfl
  | .list form ds, h => by
    rw [Document.substitute, FinishedItems.substitute h]
    rfl
  | .record form es, h => by
    rw [Document.substitute, FinishedEntries.substitute h.1 [] h.2]
    rfl

theorem FinishedItems.substitute : ∀ {ds : List Document}, FinishedItems ds →
    substituteItems vars ds = .ok ds
  | [], _ => rfl
  | d :: ds, h => by
    rw [substituteItems, h.1.substitute, FinishedItems.substitute h.2]
    rfl

/-- Entries that are finished come after those before them. -/
theorem FinishedEntries.substitute : ∀ {es : List (Document × Document)}, FinishedEntries es →
    ∀ before, KeysDiffer (before ++ es) → substituteEntries vars before es = .ok (before ++ es)
  | [], _, before, _ => by rw [substituteEntries, List.append_nil]
  | (k, d) :: es, h, before, hdiffer => by
    -- no entry is taken over, since the key is none of those before it
    have hdiffer' : KeysDiffer ((before ++ [(k, d)]) ++ es) := by
      rwa [List.append_assoc, List.singleton_append]
    have hnew : hasKey before k = false :=
      (keysDiffer_append_singleton.mp hdiffer'.left).2
    rw [substituteEntries, h.1.substitute, h.2.1.substitute]
    show substituteEntries vars (putEntry k d before) es = _
    rw [putEntry_of_new hnew, FinishedEntries.substitute h.2.2 _ hdiffer', List.append_assoc,
      List.singleton_append]

end

end Again

/-! ### The variables that matter -/

section Congruence

variable {vars vars' : Variables}

/-- Two environments agree on the variables that some tags name. -/
def Agree (vars vars' : Variables) (ts : List (String × Document)) : Prop :=
  ∀ t ∈ ts, ∀ name ∈ named? t.1 t.2, vars name = vars' name

theorem agree_append {ts ts' : List (String × Document)} :
    Agree vars vars' (ts ++ ts') ↔ Agree vars vars' ts ∧ Agree vars vars' ts' :=
  List.forall_mem_append

theorem agree_tags_iff {d : Document} :
    Agree vars vars' d.tags ↔ ∀ name ∈ d.variableNames, vars name = vars' name := by
  constructor
  · intro h name hname
    obtain ⟨t, ht, hnamed⟩ := List.mem_filterMap.mp hname
    exact h t ht name hnamed
  · intro h t ht name hnamed
    exact h name (List.mem_filterMap.mpr ⟨t, ht, hnamed⟩)

mutual

/-- What becomes of a value depends on the variables that it names. -/
theorem substitute_congr : ∀ d : Document, Agree vars vars' d.tags →
    d.substitute vars = d.substitute vars'
  | .null, _ | .bool _, _ | .int _, _ | .float _, _ | .text _, _ | .scalar _, _ | .absent, _
  | .broken _, _ => rfl
  | .tagged tag d, h => replace_congr (h (tag, d) List.mem_cons_self)
  | .list form ds, h => by rw [substitute, substituteItems_congr ds h, substitute]
  | .record form es, h => by rw [substitute, substituteEntries_congr es h, substitute]

theorem substituteItems_congr : ∀ ds : List Document, Agree vars vars' (tagsItems ds) →
    substituteItems vars ds = substituteItems vars' ds
  | [], _ => rfl
  | d :: ds, h => by
    rw [tagsItems, agree_append] at h
    rw [substituteItems, substitute_congr d h.1, substituteItems_congr ds h.2, substituteItems]

theorem substituteEntries_congr : ∀ es : List (Document × Document),
    Agree vars vars' (tagsEntries es) →
      ∀ {before}, substituteEntries vars before es = substituteEntries vars' before es
  | [], _, _ => rfl
  | (k, d) :: es, h, before => by
    rw [tagsEntries, agree_append, agree_append] at h
    rw [substituteEntries, substitute_congr k h.1, substitute_congr d h.2.1, substituteEntries]
    simp only [substituteEntries_congr es h.2.2]

end

end Congruence

/-- **What becomes of a value.**  It comes to something exactly when each of its tags is one of
variables, over a text that names a variable that is set or gives a default.  Then each tag has
given way to a truth value, to a number or to a text as it was found, there are no tags left, and
to replace variables again changes nothing, whatever they are.  In any case only the variables that
the value names have a say. -/
theorem substitute_exactly (vars : Variables) (d : Document) :
    ((∃ r, d.substitute vars = .ok r) ↔ ∀ t ∈ d.tags, vars.Answers t.1 t.2) ∧
    (∀ r, d.substitute vars = .ok r →
      Filled vars d r ∧ r.tags = [] ∧ ∀ vars', r.substitute vars' = .ok r) ∧
    ∀ vars', (∀ name ∈ d.variableNames, vars name = vars' name) →
      d.substitute vars = d.substitute vars' := by
  refine ⟨?_, ?_, ?_⟩
  · simp only [substitute_eq_ok_iff]
    exact exists_filled_iff
  · intro r hr
    have hfilled : Filled vars d r := (substitute_eq_ok_iff d).mp hr
    have hfinished : r.Finished := hfilled.finished
    exact ⟨hfilled, hfinished.tags_eq_nil, fun vars' => hfinished.substitute⟩
  · intro vars' hagree
    exact substitute_congr d (agree_tags_iff.mpr hagree)

/-- Settings in which a value, a key and an item of a list are variables. -/
def lampSettings : Document :=
  record (.yaml none)
    [(text "user", tagged variableTag (text "USER")),
      (tagged variableTag (text "KEY bulbs"),
        list (.yaml none) [tagged variableTag (text " COUNT  3 ")])]

/-- A user whose name looks like a variable. -/
def lampVariables : Variables
  | "USER" => some "!env_var KEY"
  | _ => none

/-- What becomes of the entries of `lampSettings`: the name of the user stays a text. -/
def lampEntries : List (Document × Document) :=
  [(text "user", text "!env_var KEY"), (text "bulbs", list (.yaml none) [int 3])]

theorem lamp_substituted :
    lampSettings.substitute lampVariables = .ok (record (.yaml none) lampEntries) ∧
      Filled lampVariables lampSettings (record (.yaml none) lampEntries) ∧
      (record (.yaml none) lampEntries).tags = [] ∧
      ∀ vars', (record (.yaml none) lampEntries).substitute vars'
        = .ok (record (.yaml none) lampEntries) := by
  have huser : typed "!env_var KEY" = text "!env_var KEY" := by rfl
  have hkey : typed "bulbs" = text "bulbs" := by rfl
  have hcount : typed "3" = int 3 := by rfl
  have hcounts : FilledItems lampVariables [tagged variableTag (text " COUNT  3 ")] [int 3] :=
    .cons (.found rfl (reads_iff.mpr hcount.symm)) .nil
  have hfilled : Filled lampVariables lampSettings
      (record (.yaml none) (gather [] lampEntries)) :=
    .record _ (.cons (.leaf trivial) (.found rfl (reads_iff.mpr huser.symm))
      (.cons (.found rfl (reads_iff.mpr hkey.symm)) (.list _ hcounts) .nil))
  have hgather : gather [] lampEntries = lampEntries := rfl
  have heval := (substitute_eq_ok_iff lampSettings).mpr (hgather ▸ hfilled)
  exact ⟨heval, (substitute_exactly lampVariables lampSettings).2.1 _ heval⟩

end Document

end Lightshow
