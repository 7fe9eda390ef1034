import Mathlib.Data.List.Nodup
import Mathlib.Data.List.Perm.Basic
import Lightshow.Document.Record
import Lightshow.State.Writing

/-!
# Written documents

The entries of a JSON object have no order.  So what a value is written as is a document up to
the order of the entries of its records, at every depth, and a reader has to find the value in
each of them.  When it does we say that the value is *written* as the document.

Most readers first settle what they read and then try several forms.  A written document is a
plain value, so settling changes nothing, and what is left to see is that the earlier forms
refuse it.

For a record the argument is made once, for every format: a table of fields that is written out
field by field is read back, in whatever order its entries stand, if every field is.

## Main definitions

* `Document.Reordered` — the same document up to the order of entries.
* `Document.Written` — a reader finds a value in every reordering of a document.
* `Document.Refuses` — a reader finds nothing in any of them.
* `RecordFormat.document` — a table written out.

## Main results

* `Document.Written.list`, `Document.Written.optional` — lists, and values that may be left out.
* `Document.Written.firstFit_head`, `Document.Written.firstFit_tail` — choices between forms.
* `RecordFormat.written_table` — a table is read back.
-/

namespace Lightshow

namespace Document

/-! ### The order of entries -/

/-- A document with nothing inside. -/
def IsLeaf : Document → Prop
  | list .. | record .. | tagged .. => False
  | null | bool _ | int _ | float _ | text _ | scalar _ | absent | broken _ => True

mutual

/-- The same document with the entries of its records in another order. -/
inductive Reordered : Document → Document → Prop
  | leaf {d : Document} (h : d.IsLeaf) : Reordered d d
  | tagged (tag : String) {d d' : Document} (h : Reordered d d') :
      Reordered (.tagged tag d) (.tagged tag d')
  | list (form : Form) {ds ds' : List Document} (h : ReorderedItems ds ds') :
      Reordered (.list form ds) (.list form ds')
  | record (form : Form) {es es' es'' : List (Document × Document)} (h : ReorderedEntries es es')
      (hperm : es'.Perm es'') : Reordered (.record form es) (.record form es'')

/-- `Reordered` for the items of a list, which stay in their order. -/
inductive ReorderedItems : List Document → List Document → Prop
  | nil : ReorderedItems [] []
  | cons {d d' : Document} {ds ds' : List Document} (h : Reordered d d')
      (hrest : ReorderedItems ds ds') : ReorderedItems (d :: ds) (d' :: ds')

/-- `Reordered` for the values of some entries, which keep their keys. -/
inductive ReorderedEntries : List (Document × Document) → List (Document × Document) → Prop
  | nil : ReorderedEntries [] []
  | cons (key : Document) {d d' : Document} {es es' : List (Document × Document)}
      (h : Reordered d d') (hrest : ReorderedEntries es es') :
      ReorderedEntries ((key, d) :: es) ((key, d') :: es')

end

mutual

theorem Reordered.refl : ∀ d : Document, Reordered d d
  | .null | .bool _ | .int _ | .float _ | .text _ | .scalar _ | .absent | .broken _ =>
    .leaf trivial
  | .tagged tag d => .tagged tag (Reordered.refl d)
  | .list form ds => .list form (ReorderedItems.refl ds)
  | .record form es => .record form (ReorderedEntries.refl es) (.refl es)

theorem ReorderedItems.refl : ∀ ds : List Document, ReorderedItems ds ds
  | [] => .nil
  | d :: ds => .cons (Reordered.refl d) (ReorderedItems.refl ds)

theorem ReorderedEntries.refl : ∀ es : List (Document × Document), ReorderedEntries es es
  | [] => .nil
  | (key, d) :: es => .cons key (Reordered.refl d) (ReorderedEntries.refl es)

end

theorem depthEntries_perm {es es' : List (Document × Document)} (h : es.Perm es') :
    depthEntries es' = depthEntries es := by
  induction h with
  | nil => rfl
  | cons e _ ih => rw [depthEntries, depthEntries, ih]
  | swap e e' es =>
    rw [depthEntries, depthEntries, depthEntries, depthEntries]
    omega
  | trans _ _ ih ih' => rw [ih', ih]

mutual

/-- The order of entries has no say in how deep a document is. -/
theorem Reordered.depth {d d' : Document} : Reordered d d' → d'.depth = d.depth
  | .leaf _ => rfl
  | .tagged _ h => by rw [Document.depth, Document.depth, h.depth]
  | .list _ h => by rw [Document.depth, Document.depth, h.depth]
  | .record _ h hperm => by rw [Document.depth, Document.depth, depthEntries_perm hperm, h.depth]

theorem ReorderedItems.depth {ds ds' : List Document} :
    ReorderedItems ds ds' → depthItems ds' = depthItems ds
  | .nil => rfl
  | .cons h hrest => by rw [depthItems, depthItems, h.depth, hrest.depth]

theorem ReorderedEntries.depth {es es' : List (Document × Document)} :
    ReorderedEntries es es' → depthEntries es' = depthEntries es
  | .nil => rfl
  | .cons _ h hrest => by rw [depthEntries, depthEntries, h.depth, hrest.depth]

end

theorem Reordered.eq_of_isLeaf {d d' : Document} (h : Reordered d d') (hd : d.IsLeaf) :
    d' = d := by
  cases h with
  | leaf => rfl
  | tagged => exact hd.elim
  | list => exact hd.elim
  | record => exact hd.elim

theorem Reordered.of_list {form : Form} {ds : List Document} {d' : Document}
    (h : Reordered (.list form ds) d') : ∃ ds', d' = .list form ds' ∧ ReorderedItems ds ds' := by
  cases h with
  | leaf h => exact h.elim
  | list _ h => exact ⟨_, rfl, h⟩

theorem Reordered.of_record {form : Form} {es : List (Document × Document)} {d' : Document}
    (h : Reordered (.record form es) d') :
    ∃ es' es'', d' = .record form es'' ∧ ReorderedEntries es es' ∧ es'.Perm es'' := by
  cases h with
  | leaf h => exact h.elim
  | record _ h hperm => exact ⟨_, _, rfl, h, hperm⟩

/-! ### Settled documents -/

theorem settleItems_of_settled {ds : List Document} (h : ∀ d ∈ ds, d.settle = .ok d) :
    settleItems ds = .ok ds := by
  induction ds with
  | nil => rfl
  | cons d ds ih =>
    rw [settleItems, h d List.mem_cons_self, ih fun e he => h e (List.mem_cons_of_mem d he)]
    rfl

theorem settleEntries_of_settled {es : List (Document × Document)}
    (h : ∀ e ∈ es, e.1.settle = .ok e.1 ∧ e.2.settle = .ok e.2) : settleEntries es = .ok es := by
  induction es with
  | nil => rfl
  | cons e es ih =>
    obtain ⟨hkey, hvalue⟩ := h e List.mem_cons_self
    rw [settleEntries, hkey, hvalue, ih fun f hf => h f (List.mem_cons_of_mem e hf)]
    rfl

theorem settle_list {ds : List Document} (h : ∀ d ∈ ds, d.settle = .ok d) :
    (Document.list .settled ds).settle = .ok (.list .settled ds) := by
  rw [settle, settleItems_of_settled h]
  rfl

theorem settle_record {es : List (Document × Document)}
    (h : ∀ e ∈ es, e.1.settle = .ok e.1 ∧ e.2.settle = .ok e.2) :
    (Document.record .settled es).settle = .ok (.record .settled es) := by
  rw [settle, settleEntries_of_settled h]
  rfl

/-! ### Written values -/

variable {α β : Type} {read : Document → Except ReadError α} {x : α} {d : Document}

/-- Every reordering of a document is a plain value in which a reader finds a value. -/
def Written (read : Document → Except ReadError α) (x : α) (d : Document) : Prop :=
  ∀ d', Reordered d d' → d'.settle = .ok d' ∧ read d' = .ok x

/-- A reader finds nothing in any reordering of a document. -/
def Refuses (read : Document → Except ReadError α) (d : Document) : Prop :=
  ∀ d', Reordered d d' → (read d').toOption = none

theorem Written.leaf (hleaf : d.IsLeaf) (hsettle : d.settle = .ok d) (hread : read d = .ok x) :
    Written read x d := by
  intro d' h
  rw [h.eq_of_isLeaf hleaf]
  exact ⟨hsettle, hread⟩

/-- What a reader finds may be passed on. -/
theorem Written.bind {y : β} {next : α → Except ReadError β} (h : Written read x d)
    (hnext : next x = .ok y) : Written (fun d => read d >>= next) y d := by
  intro d' hd'
  obtain ⟨hsettle, hread⟩ := h d' hd'
  refine ⟨hsettle, ?_⟩
  show read d' >>= next = .ok y
  rw [hread]
  exact hnext

theorem Written.map (f : α → β) (h : Written read x d) :
    Written (fun d => f <$> read d) (f x) d := by
  intro d' hd'
  obtain ⟨hsettle, hread⟩ := h d' hd'
  refine ⟨hsettle, ?_⟩
  show f <$> read d' = .ok (f x)
  rw [hread]
  rfl

/-- `Written.map` as `do` blocks have it. -/
theorem Written.returning (f : α → β) (h : Written read x d) :
    Written (fun d => do return f (← read d)) (f x) d :=
  h.bind rfl

theorem Refuses.bind {next : α → Except ReadError β} (h : Refuses read d) :
    Refuses (fun d => read d >>= next) d := by
  intro d' hd'
  have hnone := h d' hd'
  show (read d' >>= next).toOption = none
  cases hread : read d' with
  | ok y =>
    rw [hread] at hnone
    cases hnone
  | error e => rfl

theorem refuses_record {es : List (Document × Document)}
    (h : ∀ es', (read (.record .settled es')).toOption = none) :
    Refuses read (.record .settled es) := by
  intro d' hd'
  obtain ⟨_, es', rfl, -, -⟩ := hd'.of_record
  exact h es'

theorem firstFit_of_settled (readers : List (Document → Except ReadError α))
    (h : d.settle = .ok d) :
    firstFit readers d
      = (readers.findSome? fun r => (r d).toOption).elim (.error .noVariant) .ok := by
  cases hfind : readers.findSome? fun r => (r d).toOption with
  | none => simp [firstFit, h, hfind, bind, Except.bind]
  | some x => simp [firstFit, h, hfind, bind, Except.bind, pure, Except.pure]

/-- A value is written in a choice of forms if the first form finds it. -/
theorem Written.firstFit_head {readers : List (Document → Except ReadError α)}
    (h : Written read x d) : Written (firstFit (read :: readers)) x d := by
  intro d' hd'
  obtain ⟨hsettle, hread⟩ := h d' hd'
  refine ⟨hsettle, ?_⟩
  rw [firstFit_of_settled _ hsettle, List.findSome?_cons, hread]
  rfl

/-- A form that refuses a document is passed over. -/
theorem Written.firstFit_tail {refusing : Document → Except ReadError α}
    {readers : List (Document → Except ReadError α)} (hrefuse : Refuses refusing d)
    (h : Written (firstFit readers) x d) : Written (firstFit (refusing :: readers)) x d := by
  intro d' hd'
  obtain ⟨hsettle, hread⟩ := h d' hd'
  refine ⟨hsettle, ?_⟩
  rw [firstFit_of_settled _ hsettle] at hread ⊢
  rw [List.findSome?_cons, hrefuse d' hd']
  exact hread

/-! ### Lists and values that may be left out -/

/-- `Written` for the items of a list. -/
theorem ReorderedItems.written {xs : List α} {ds ds' : List Document}
    (h : ReorderedItems ds ds') (hitems : List.Forall₂ (Written read) xs ds) :
    (∀ d ∈ ds', d.settle = .ok d) ∧ ds'.mapM read = .ok xs := by
  induction hitems generalizing ds' with
  | nil =>
    cases h
    exact ⟨fun d hd => absurd hd List.not_mem_nil, rfl⟩
  | cons hitem _ ih =>
    cases h with
    | cons h hrest =>
      obtain ⟨hsettle, hread⟩ := hitem _ h
      obtain ⟨hsettles, hreads⟩ := ih hrest
      refine ⟨List.forall_mem_cons.mpr ⟨hsettle, hsettles⟩, ?_⟩
      rw [List.mapM_cons, hread, hreads]
      rfl

theorem Written.list {xs : List α} {ds : List Document}
    (h : List.Forall₂ (Written read) xs ds) : Written (asList read) xs (.list .settled ds) := by
  intro d' hd'
  obtain ⟨ds', rfl, hitems⟩ := hd'.of_list
  obtain ⟨hsettle, hread⟩ := hitems.written h
  exact ⟨settle_list hsettle, hread⟩

/-- A list of two values is a pair. -/
theorem Written.pair {x y : α} {dx dy : Document} (hx : Written read x dx)
    (hy : Written read y dy) : Written (asPair read) (x, y) (.list .settled [dx, dy]) := by
  intro d' hd'
  obtain ⟨ds', rfl, hitems⟩ := hd'.of_list
  cases hitems with
  | cons h hrest =>
    cases hrest with
    | cons h' hrest' =>
      cases hrest'
      obtain ⟨hsettle, hread⟩ := hx _ h
      obtain ⟨hsettle', hread'⟩ := hy _ h'
      refine ⟨settle_list (by simp [hsettle, hsettle']), ?_⟩
      show (do
        let x ← read _
        let y ← read _
        if true then return (x, y) else _ : Except ReadError (α × α)) = _
      rw [hread, hread']
      rfl

/-- A document that does not stand for what is left out. -/
def IsPresent : Document → Prop
  | null | absent | scalar _ => False
  | bool _ | int _ | float _ | text _ | list .. | record .. | tagged .. | broken _ => True

theorem Reordered.isPresent {d d' : Document} (h : Reordered d d') (hd : d.IsPresent) :
    d'.IsPresent := by
  cases h with
  | leaf => exact hd
  | tagged => trivial
  | list => trivial
  | record => trivial

theorem asOptional_of_isPresent (h : d.IsPresent) : asOptional read d = some <$> read d := by
  cases d with
  | null => exact h.elim
  | absent => exact h.elim
  | scalar s => exact h.elim
  | bool | int | float | text | list | record | tagged | broken => rfl

/-- What is there is read as if it had to be there. -/
theorem Written.some (hd : d.IsPresent) (h : Written read x d) :
    Written (asOptional read) (some x) d := by
  intro d' hd'
  obtain ⟨hsettle, hread⟩ := h d' hd'
  refine ⟨hsettle, ?_⟩
  rw [asOptional_of_isPresent (hd'.isPresent hd), hread]
  rfl

/-- A value that may be left out, with `null` for one that is. -/
def ofOption (write : α → Document) : Option α → Document
  | .none => null
  | .some x => write x

theorem Written.optional {write : α → Document} {value : Option α}
    (h : ∀ x ∈ value, (write x).IsPresent ∧ Written read x (write x)) :
    Written (asOptional read) value (ofOption write value) := by
  cases value with
  | none => exact Written.leaf trivial rfl rfl
  | some x =>
    obtain ⟨hpresent, hwritten⟩ := h x rfl
    exact hwritten.some hpresent

/-! ### Entries -/

theorem ReorderedEntries.keys {es es' : List (Document × Document)} :
    ReorderedEntries es es' → es'.map Prod.fst = es.map Prod.fst
  | .nil => rfl
  | .cons key _ hrest => congrArg (key :: ·) hrest.keys

/-- Each entry comes from one with the same key. -/
theorem ReorderedEntries.exists_of_mem {es es' : List (Document × Document)}
    (h : ReorderedEntries es es') {e' : Document × Document} (he' : e' ∈ es') :
    ∃ e ∈ es, e'.1 = e.1 ∧ Reordered e.2 e'.2 := by
  cases h with
  | nil => exact absurd he' List.not_mem_nil
  | cons key h hrest =>
    rcases List.mem_cons.mp he' with rfl | he'
    · exact ⟨_, List.mem_cons_self, rfl, h⟩
    · obtain ⟨e, he, hkey, hvalue⟩ := hrest.exists_of_mem he'
      exact ⟨e, List.mem_cons_of_mem _ he, hkey, hvalue⟩

end Document

/-! ### Records -/

namespace RecordFormat

open Document

variable {φ : Type} {format : RecordFormat φ}

/-- A table written out, the fields in the order in which they are declared. -/
def document (format : RecordFormat φ) (write : (f : φ) → format.Value f → Document)
    (t : format.Table) : Document :=
  .record .settled <| format.fields.filterMap fun f =>
    (t f).map fun v => (.text (format.name f), write f v)

/-- Every field is found under its name, and is declared once. -/
structure Proper (format : RecordFormat φ) : Prop where
  named : ∀ f, format.named? (format.name f) = some f
  nodup : format.fields.Nodup

theorem Proper.injective (h : format.Proper) : Function.Injective format.name := by
  intro f g hfg
  have hf := h.named f
  rw [hfg, h.named g] at hf
  exact (Option.some.inj hf).symm

theorem Proper.mem_fields (h : format.Proper) (f : φ) : f ∈ format.fields :=
  List.mem_of_find?_eq_some (h.named f)

/-- Some entries hold fields of a table: each of them one field, and no field twice. -/
structure Holds (format : RecordFormat φ) (t : format.Table) (es : List (Document × Document)) :
    Prop where
  entry : ∀ e ∈ es, ∃ f v,
    e.1 = .text (format.name f) ∧ t f = some v ∧ format.read f e.2 = .ok v
  keys : (es.map Prod.fst).Nodup

theorem Holds.perm {t : format.Table} {es es' : List (Document × Document)}
    (h : format.Holds t es) (hperm : es.Perm es') : format.Holds t es' where
  entry := fun e he => h.entry e (hperm.mem_iff.mpr he)
  keys := ((hperm.map Prod.fst).nodup_iff).mp h.keys

/-- Entries that hold fields of a table complete any part of it that holds the others. -/
theorem Holds.readEntries [DecidableEq φ] (hformat : format.Proper) {t : format.Table}
    {es : List (Document × Document)} (h : format.Holds t es) {found : format.Table}
    (hnew : ∀ f, .text (format.name f) ∈ es.map Prod.fst → found f = none)
    (hold : ∀ f, .text (format.name f) ∉ es.map Prod.fst → found f = t f) :
    format.readEntries .settled found es = .ok t := by
  induction es generalizing found with
  | nil =>
    have : found = t := funext fun f => hold f List.not_mem_nil
    rw [this]
    rfl
  | cons e es ih =>
    obtain ⟨key, d⟩ := e
    obtain ⟨f, v, rfl, hvalue, hread⟩ := h.entry _ List.mem_cons_self
    have hkeys := List.nodup_cons.mp h.keys
    have hrest : format.Holds t es :=
      ⟨fun e he => h.entry e (List.mem_cons_of_mem _ he), hkeys.2⟩
    have hfield : format.fieldOfKey .settled (.text (format.name f)) = .ok f := by
      show format.fieldOfText (format.name f) = .ok f
      rw [fieldOfText, hformat.named f]
    have hnone : (found f).isSome = false := by
      rw [hnew f List.mem_cons_self]
      rfl
    rw [RecordFormat.readEntries, hfield]
    show (if (found f).isSome then _ else format.read f d >>= _) = _
    rw [hnone, hread]
    refine ih hrest (fun g hg => ?_) fun g hg => ?_
    · have hne : f ≠ g := by
        rintro rfl
        exact hkeys.1 hg
      rw [Table.insert, dif_neg hne]
      exact hnew g (List.mem_cons_of_mem _ hg)
    · by_cases hfg : f = g
      · subst hfg
        rw [Table.insert, dif_pos rfl, hvalue]
      · rw [Table.insert, dif_neg hfg]
        refine hold g fun hmem => ?_
        rcases List.mem_cons.mp hmem with hkey | hmem
        · exact hfg (hformat.injective (Document.text.inj hkey)).symm
        · exact hg hmem

theorem complete_of_required {t : format.Table}
    (h : ∀ f, format.required f → (t f).isSome) : format.complete t = .ok t := by
  have hnone : format.fields.find? (fun f => format.required f && (t f).isNone) = none := by
    refine List.find?_eq_none.mpr fun f _ => ?_
    simp only [Bool.and_eq_true, not_and, Bool.not_eq_true, Option.isNone_eq_false_iff]
    exact h f
  rw [complete, hnone]

/-- Each field that is set has an entry, and it has that one only. -/
theorem nodup_keys (hformat : format.Proper) (t : format.Table)
    (write : (f : φ) → format.Value f → Document) :
    ((format.fields.filterMap fun f =>
      (t f).map fun v => (Document.text (format.name f), write f v)).map Prod.fst).Nodup := by
  rw [List.map_filterMap]
  refine List.Nodup.filterMap (fun f g key hf hg => ?_) hformat.nodup
  simp only [Option.map_map, Option.mem_def, Option.map_eq_some_iff, Function.comp_apply] at hf hg
  obtain ⟨v, -, rfl⟩ := hf
  obtain ⟨w, -, hw⟩ := hg
  exact (hformat.injective (Document.text.inj hw)).symm

/-- **A table is read back**, in whatever order its fields stand, if each field is. -/
theorem written_table [DecidableEq φ] (hformat : format.Proper) (t : format.Table)
    (write : (f : φ) → format.Value f → Document) (hrequired : ∀ f, format.required f → (t f).isSome)
    (hwritten : ∀ f v, t f = some v → Written (format.read f) v (write f v)) :
    Written format.table t (format.document write t) := by
  intro d' hd'
  obtain ⟨es', es'', rfl, hentries, hperm⟩ := hd'.of_record
  -- each entry is a field of the table, in some reordering of what it is written as
  have hentry : ∀ e ∈ es', ∃ f v, e.1 = .text (format.name f) ∧ t f = some v ∧
      e.2.settle = .ok e.2 ∧ format.read f e.2 = .ok v := by
    intro e' he'
    obtain ⟨e, he, hkey, hvalue⟩ := hentries.exists_of_mem he'
    obtain ⟨f, -, hf⟩ := List.mem_filterMap.mp he
    obtain ⟨v, hv, rfl⟩ := Option.map_eq_some_iff.mp hf
    obtain ⟨hsettle, hread⟩ := hwritten f v hv _ hvalue
    exact ⟨f, v, hkey, hv, hsettle, hread⟩
  have hholds : format.Holds t es' := by
    refine ⟨fun e he => ?_, ?_⟩
    · obtain ⟨f, v, hkey, hv, -, hread⟩ := hentry e he
      exact ⟨f, v, hkey, hv, hread⟩
    · rw [hentries.keys]
      exact nodup_keys hformat t write
  have hread : format.readEntries .settled format.noField es'' = .ok t := by
    refine (hholds.perm hperm).readEntries hformat (fun f _ => rfl) fun f hf => ?_
    -- a field without an entry is not set
    cases hv : t f with
    | none => rfl
    | some v =>
      refine absurd ?_ hf
      rw [← (hperm.map Prod.fst).mem_iff, hentries.keys, List.map_filterMap]
      refine List.mem_filterMap.mpr ⟨f, hformat.mem_fields f, ?_⟩
      rw [hv]
      rfl
  constructor
  · refine settle_record fun e he => ?_
    obtain ⟨f, v, hkey, -, hsettle, -⟩ := hentry e (hperm.mem_iff.mpr he)
    rw [hkey]
    exact ⟨rfl, hsettle⟩
  · show format.readEntries .settled format.noField es'' >>= format.complete = .ok t
    rw [hread]
    exact complete_of_required hrequired

end RecordFormat

end Lightshow
