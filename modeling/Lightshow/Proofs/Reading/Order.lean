import Lightshow.Proofs.Written.Document

/-!
# Readers to which the order of keys is nothing

The keys of a JSON object may stand in any order, and documents that differ in that only are
*reordered*.  A reader is *orderless* if it refuses both of two such documents or finds the same
in both.  Why it refuses them may differ, since what stands first is complained about first.

Readers are put together from a few parts, and each of them keeps to this: what is found may be
passed on, lists and values that may be left out are read item by item, and of several forms the
same one fits.  Records are the heart of the matter.  Entries are entered into a table one after
the other, and two entries may be entered in either order: if they are for different fields the
tables are the same, and if they are for one field the second of them is refused, whichever it is.

## Main definitions

* `Document.IsJson` — documents that come from JSON.
* `Document.Orderless` — a reader to which the order of keys is nothing.
* `RecordFormat.enter?` — a table with the field of one more entry.

## Main results

* `Document.Orderless.list`, `Document.Orderless.optional`, `Document.Orderless.firstOfTwo` — the
  parts from which readers are put together.
* `RecordFormat.enter?_comm` — two entries may be entered in either order.
* `RecordFormat.orderless_table` — **records whose fields are read without regard to order are
  read so as a whole.**
-/

namespace Lightshow

section Results

variable {ε α β : Type}

theorem toOption_eq_some {x : Except ε α} {a : α} : x.toOption = some a ↔ x = .ok a := by
  cases x <;> simp [Except.toOption]

theorem toOption_bind (x : Except ε α) (next : α → Except ε β) :
    (x >>= next).toOption = x.toOption.bind fun a => (next a).toOption := by
  cases x <;> rfl

/-- What a computation of two steps gives, the second step gives for what the first one gave. -/
theorem bind_eq_ok {x : Except ε α} {next : α → Except ε β} {b : β} :
    x >>= next = .ok b ↔ ∃ a, x = .ok a ∧ next a = .ok b := by
  constructor
  · intro h
    cases x with
    | error e => cases h
    | ok a => exact ⟨a, rfl, h⟩
  · rintro ⟨a, rfl, h⟩
    exact h

theorem toOption_map (f : α → β) (x : Except ε α) :
    (f <$> x).toOption = x.toOption.map f := by
  cases x <;> rfl

/-- A computation for each item of a list gives what they give one by one. -/
theorem mapM_eq_ok_iff {f : α → Except ε β} {xs : List α} {ys : List β} :
    xs.mapM f = .ok ys ↔ List.Forall₂ (fun x y => f x = .ok y) xs ys := by
  induction xs generalizing ys with
  | nil =>
    rw [List.mapM_nil, List.forall₂_nil_left_iff]
    exact ⟨fun h => (Except.ok.inj h).symm, fun h => h ▸ rfl⟩
  | cons x xs ih =>
    rw [List.mapM_cons, bind_eq_ok, List.forall₂_cons_left_iff]
    simp only [bind_eq_ok, ih]
    constructor
    · rintro ⟨y, hy, ys', hys, h⟩
      exact ⟨y, ys', hy, hys, (Except.ok.inj h).symm⟩
    · rintro ⟨y, ys', hy, hys, rfl⟩
      exact ⟨y, hy, ys', hys, rfl⟩

/-- There are results if there is one for each item. -/
theorem exists_mapM_eq_ok_iff {f : α → Except ε β} {xs : List α} :
    (∃ ys, xs.mapM f = .ok ys) ↔ ∀ x ∈ xs, ∃ y, f x = .ok y := by
  simp only [mapM_eq_ok_iff]
  induction xs with
  | nil => simp
  | cons x xs ih =>
    rw [List.forall_mem_cons, ← ih]
    constructor
    · rintro ⟨_, hy | ⟨hy, hys⟩⟩
      exact ⟨⟨_, hy⟩, _, hys⟩
    · rintro ⟨⟨y, hy⟩, ys, hys⟩
      exact ⟨_, .cons hy hys⟩

/-- The first item without a result decides. -/
theorem mapM_append_eq_error {f : α → Except ε β} {before after : List α} {x : α} {e : ε}
    (hbefore : ∀ y ∈ before, ∃ z, f y = .ok z) (hx : f x = .error e) :
    (before ++ x :: after).mapM f = .error e := by
  induction before with
  | nil =>
    rw [List.nil_append, List.mapM_cons, hx]
    rfl
  | cons y before ih =>
    obtain ⟨⟨z, hz⟩, hrest⟩ := List.forall_mem_cons.mp hbefore
    rw [List.cons_append, List.mapM_cons, hz, ih hrest]
    rfl

end Results

/-! ### JSON documents -/

/-- The forms in which JSON is given: a value, or a text. -/
def Form.IsJson : Form → Prop
  | settled | json => True
  | yaml _ => False

namespace Document

mutual

/-- A document of JSON: nothing in it is a scalar of another format, missing or broken, and the
keys of objects are texts. -/
def IsJson : Document → Prop
  | null | bool _ | int _ | float _ | text _ => True
  | list form items => form.IsJson ∧ AreJson items
  | record form entries => form.IsJson ∧ HoldJson entries
  | scalar _ | tagged .. | absent | broken _ => False

/-- `IsJson` for the items of a list. -/
def AreJson : List Document → Prop
  | [] => True
  | d :: rest => IsJson d ∧ AreJson rest

/-- `IsJson` for the entries of an object. -/
def HoldJson : List (Document × Document) → Prop
  | [] => True
  | (key, d) :: rest => (∃ word, key = text word) ∧ IsJson d ∧ HoldJson rest

end

/-! ### Settling -/

/-- Entries are settled one by one. -/
theorem settleEntries_cons_eq_ok {key d k v : Document} {es fs : List (Document × Document)}
    (hkey : key.settle = .ok k) (hd : d.settle = .ok v) (hes : settleEntries es = .ok fs) :
    settleEntries ((key, d) :: es) = .ok ((k, v) :: fs) := by
  rw [settleEntries, hkey, hd, hes]
  rfl

theorem settleEntries_cons_inv {key d : Document} {es gs : List (Document × Document)}
    (h : settleEntries ((key, d) :: es) = .ok gs) : ∃ k v fs, gs = (k, v) :: fs ∧
      key.settle = .ok k ∧ d.settle = .ok v ∧ settleEntries es = .ok fs := by
  rw [settleEntries] at h
  obtain ⟨k, hkey, h⟩ := bind_eq_ok.mp h
  obtain ⟨v, hd, h⟩ := bind_eq_ok.mp h
  obtain ⟨fs, hes, h⟩ := bind_eq_ok.mp h
  exact ⟨k, v, fs, (Except.ok.inj h).symm, hkey, hd, hes⟩

/-- Entries in another order are settled to the same entries in another order. -/
theorem settleEntries_perm {es es' : List (Document × Document)} (h : es.Perm es') :
    ∀ {fs}, settleEntries es = .ok fs → ∃ fs', settleEntries es' = .ok fs' ∧ fs.Perm fs' := by
  induction h with
  | nil => exact fun h => ⟨_, h, .refl _⟩
  | cons e _ ih =>
    intro fs hfs
    obtain ⟨k, v, fs, rfl, hkey, hd, hes⟩ := settleEntries_cons_inv hfs
    obtain ⟨fs', hfs', hperm⟩ := ih hes
    exact ⟨_, settleEntries_cons_eq_ok hkey hd hfs', hperm.cons _⟩
  | swap e e' es =>
    intro fs hfs
    obtain ⟨k', v', fs, rfl, hkey', hd', hes⟩ := settleEntries_cons_inv hfs
    obtain ⟨k, v, fs, rfl, hkey, hd, hes⟩ := settleEntries_cons_inv hes
    exact ⟨_, settleEntries_cons_eq_ok hkey hd (settleEntries_cons_eq_ok hkey' hd' hes),
      .swap _ _ _⟩
  | trans _ _ ih ih' =>
    intro fs hfs
    obtain ⟨fs', hfs', hperm⟩ := ih hfs
    obtain ⟨fs'', hfs'', hperm'⟩ := ih' hfs'
    exact ⟨fs'', hfs'', hperm.trans hperm'⟩

theorem refuseTag_of_isJson {form : Form} (h : form.IsJson) :
    refuseTag (Form.tag form) = .ok () := by
  cases form with
  | settled | json => rfl
  | yaml => exact h.elim

mutual

/-- Reordered documents of JSON settle, and to reordered documents. -/
theorem Reordered.settle {d d' : Document} (h : Reordered d d') (hd : d.IsJson) :
    ∃ e e', d.settle = .ok e ∧ d'.settle = .ok e' ∧ e.IsJson ∧ Reordered e e' :=
  match h with
  | .leaf hleaf => by
    cases d with
    | null | bool | int | float | text => exact ⟨_, _, rfl, rfl, trivial, .leaf trivial⟩
    | list | record | tagged => exact hleaf.elim
    | scalar | absent | broken => exact hd.elim
  | .tagged .. => hd.elim
  | .list form h => by
    obtain ⟨hform, hds⟩ := hd
    obtain ⟨es, es', hes, hes', hjson, hitems⟩ := h.settle hds
    have htag := refuseTag_of_isJson hform
    refine ⟨.list .settled es, .list .settled es', ?_, ?_, ⟨trivial, hjson⟩, .list _ hitems⟩
    · rw [Document.settle, htag, hes]
      rfl
    · rw [Document.settle, htag, hes']
      rfl
  | .record form h hperm => by
    obtain ⟨hform, hes⟩ := hd
    obtain ⟨fs, fs', hfs, hfs', hjson, hentries⟩ := h.settle hes
    obtain ⟨fs'', hfs'', hperm'⟩ := settleEntries_perm hperm hfs'
    have htag := refuseTag_of_isJson hform
    refine ⟨.record .settled fs, .record .settled fs'', ?_, ?_, ⟨trivial, hjson⟩,
      .record _ hentries hperm'⟩
    · rw [Document.settle, htag, hfs]
      rfl
    · rw [Document.settle, htag, hfs'']
      rfl

theorem ReorderedItems.settle {ds ds' : List Document} (h : ReorderedItems ds ds')
    (hds : AreJson ds) : ∃ es es', settleItems ds = .ok es ∧ settleItems ds' = .ok es' ∧
      AreJson es ∧ ReorderedItems es es' :=
  match h with
  | .nil => ⟨[], [], rfl, rfl, trivial, .nil⟩
  | .cons h hrest => by
    obtain ⟨hd, hds⟩ := hds
    obtain ⟨e, e', he, he', hjson, hitem⟩ := h.settle hd
    obtain ⟨es, es', hes, hes', hjsons, hitems⟩ := hrest.settle hds
    refine ⟨e :: es, e' :: es', ?_, ?_, ⟨hjson, hjsons⟩, .cons hitem hitems⟩
    · rw [settleItems, he, hes]
      rfl
    · rw [settleItems, he', hes']
      rfl

theorem ReorderedEntries.settle {es es' : List (Document × Document)}
    (h : ReorderedEntries es es') (hes : HoldJson es) :
    ∃ fs fs', settleEntries es = .ok fs ∧ settleEntries es' = .ok fs' ∧
      HoldJson fs ∧ ReorderedEntries fs fs' :=
  match h with
  | .nil => ⟨[], [], rfl, rfl, trivial, .nil⟩
  | .cons key h hrest => by
    obtain ⟨⟨word, rfl⟩, hd, hes⟩ := hes
    obtain ⟨e, e', he, he', hjson, hvalue⟩ := h.settle hd
    obtain ⟨fs, fs', hfs, hfs', hjsons, hentries⟩ := hrest.settle hes
    exact ⟨_, _, settleEntries_cons_eq_ok rfl he hfs, settleEntries_cons_eq_ok rfl he' hfs',
      ⟨⟨word, rfl⟩, hjson, hjsons⟩, .cons _ hvalue hentries⟩

end

/-! ### Orderless readers -/

section Readers

variable {α β : Type} {read : Document → Except ReadError α}

/-- A reader that refuses both of two reordered documents, or finds the same in both. -/
def Orderless (read : Document → Except ReadError α) : Prop :=
  ∀ ⦃d d' : Document⦄, d.IsJson → Reordered d d' → (read d').toOption = (read d).toOption

/-- A reader that refuses whatever holds other documents. -/
theorem orderless_of_refuses (hlist : ∀ form items, (read (.list form items)).toOption = none)
    (hrecord : ∀ form es, (read (.record form es)).toOption = none) : Orderless read := by
  intro d d' hd h
  cases h with
  | leaf => rfl
  | tagged => exact hd.elim
  | list => rw [hlist, hlist]
  | record => rw [hrecord, hrecord]

theorem orderless_bool : Orderless asBool := orderless_of_refuses (fun _ _ => rfl) fun _ _ => rfl

theorem orderless_word (bits : ℕ) : Orderless (asWord bits) :=
  orderless_of_refuses (fun _ _ => rfl) fun _ _ => rfl

theorem orderless_signed : Orderless asSigned :=
  orderless_of_refuses (fun _ _ => rfl) fun _ _ => rfl

theorem orderless_float : Orderless asFloat := orderless_of_refuses (fun _ _ => rfl) fun _ _ => rfl

theorem orderless_text : Orderless asText := orderless_of_refuses (fun _ _ => rfl) fun _ _ => rfl

/-- What is found may be passed on. -/
theorem Orderless.bind (h : Orderless read) (next : α → Except ReadError β) :
    Orderless fun d => read d >>= next := by
  intro d d' hd hreordered
  rw [toOption_bind, toOption_bind, h hd hreordered]

theorem Orderless.map (h : Orderless read) (f : α → β) : Orderless fun d => f <$> read d := by
  intro d d' hd hreordered
  rw [toOption_map, toOption_map, h hd hreordered]

theorem Orderless.optional (h : Orderless read) : Orderless (asOptional read) := by
  intro d d' hd hreordered
  cases hreordered with
  | leaf => rfl
  | tagged => exact hd.elim
  | list form hitems => exact h.map some hd (.list form hitems)
  | record form hentries hperm => exact h.map some hd (.record form hentries hperm)

/-- The items of a list are read one by one. -/
theorem Orderless.mapM (h : Orderless read) : ∀ {ds ds' : List Document}, AreJson ds →
    ReorderedItems ds ds' → (ds'.mapM read).toOption = (ds.mapM read).toOption
  | _, _, _, .nil => rfl
  | _, _, hds, .cons hitem hitems => by
    simp only [List.mapM_cons, toOption_bind, h hds.1 hitem, h.mapM hds.2 hitems]

theorem Orderless.list (h : Orderless read) : Orderless (asList read) := by
  intro d d' hd hreordered
  cases hreordered with
  | leaf => rfl
  | tagged => exact hd.elim
  | list form hitems => exact h.mapM hd.2 hitems
  | record => rfl

theorem Orderless.pair (h : Orderless read) : Orderless (asPair read) := by
  intro d d' hd hreordered
  cases hreordered with
  | leaf => rfl
  | tagged => exact hd.elim
  | record => rfl
  | list form hitems =>
    cases hitems with
    | nil => rfl
    | cons hx hrest =>
      obtain ⟨-, hx', hds⟩ := hd
      cases hrest with
      | nil =>
        show (read _ >>= fun _ => _).toOption = (read _ >>= fun _ => _).toOption
        rw [toOption_bind, toOption_bind, h hx' hx]
      | cons hy hmore =>
        obtain ⟨hy', -⟩ := hds
        show (read _ >>= fun x => read _ >>= fun y => _).toOption
          = (read _ >>= fun x => read _ >>= fun y => _).toOption
        simp only [toOption_bind, h hx' hx, h hy' hy]
        cases hmore <;> rfl

/-- The same form fits. -/
theorem Orderless.findSome {readers : List (Document → Except ReadError α)}
    (h : ∀ r ∈ readers, Orderless r) {d d' : Document} (hd : d.IsJson) (hreordered : Reordered d d') :
    readers.findSome? (fun r => (r d').toOption) = readers.findSome? fun r => (r d).toOption := by
  induction readers with
  | nil => rfl
  | cons r readers ih =>
    obtain ⟨hr, hreaders⟩ := List.forall_mem_cons.mp h
    rw [List.findSome?_cons, List.findSome?_cons, hr hd hreordered, ih hreaders]

/-- Of the forms that are tried, the first that fits a settled document is taken. -/
theorem firstFit_of_settle (readers : List (Document → Except ReadError α)) {d e : Document}
    (h : d.settle = .ok e) : (firstFit readers d).toOption
      = readers.findSome? fun r => (r e).toOption := by
  rw [firstFit, h]
  cases hfind : readers.findSome? fun r => (r e).toOption <;>
    simp only [bind, Except.bind, hfind] <;> rfl

/-- Of two forms the first one that fits is taken. -/
theorem firstFit_pair_eq_ok_iff {read read' : Document → Except ReadError α} {d e : Document} {x : α}
    (h : d.settle = .ok e) : firstFit [read, read'] d = .ok x ↔
      read e = .ok x ∨ (read e).toOption = none ∧ read' e = .ok x := by
  rw [← toOption_eq_some, firstFit_of_settle _ h, List.findSome?_cons, List.findSome?_cons,
    List.findSome?_nil, ← toOption_eq_some, ← toOption_eq_some]
  cases (read e).toOption with
  | none => cases (read' e).toOption <;> simp
  | some y => simp

theorem Orderless.firstFit_of_forall {readers : List (Document → Except ReadError α)}
    (h : ∀ r ∈ readers, Orderless r) : Orderless (firstFit readers) := by
  intro d d' hd hreordered
  obtain ⟨e, e', he, he', hjson, hreordered'⟩ := hreordered.settle hd
  rw [firstFit_of_settle readers he, firstFit_of_settle readers he',
    Orderless.findSome h hjson hreordered']

theorem Orderless.firstOfTwo {read' : Document → Except ReadError α} (h : Orderless read)
    (h' : Orderless read') : Orderless (firstFit [read, read']) := by
  refine firstFit_of_forall fun r hr => ?_
  simp only [List.mem_cons, List.not_mem_nil, or_false] at hr
  rcases hr with rfl | rfl
  · exact h
  · exact h'

end Readers

end Document

/-! ### Records -/

namespace RecordFormat

open Document

variable {φ : Type} [DecidableEq φ] {format : RecordFormat φ}

/-- A table with the field of one more entry, unless the entry is refused. -/
def enter? (format : RecordFormat φ) (form : Form) (t : format.Table) (e : Document × Document) :
    Option format.Table :=
  (format.fieldOfKey form e.1).toOption.bind fun f =>
    if (t f).isSome then none else (format.read f e.2).toOption.map (t.insert f)

/-- Entries are entered one after the other. -/
theorem readEntries_cons (form : Form) (t : format.Table) (e : Document × Document)
    (es : List (Document × Document)) : (format.readEntries form t (e :: es)).toOption
      = (format.enter? form t e).bind fun t => (format.readEntries form t es).toOption := by
  obtain ⟨key, d⟩ := e
  rw [readEntries, toOption_bind, enter?, Option.bind_assoc]
  refine congrArg _ (funext fun f => ?_)
  split
  · rfl
  · rw [toOption_bind, Option.bind_map]
    rfl

theorem Table.insert_self (t : format.Table) (f : φ) (v : format.Value f) :
    t.insert f v f = some v := dif_pos rfl

theorem Table.insert_of_ne (t : format.Table) {f g : φ} (v : format.Value f) (h : f ≠ g) :
    t.insert f v g = t g := dif_neg h

theorem Table.insert_comm (t : format.Table) {f g : φ} (h : f ≠ g) (v : format.Value f)
    (u : format.Value g) : (t.insert f v).insert g u = (t.insert g u).insert f v := by
  funext i
  by_cases hf : f = i
  · subst hf
    rw [insert_of_ne _ _ h.symm, insert_self, insert_self]
  · by_cases hg : g = i
    · subst hg
      rw [insert_self, insert_of_ne _ _ h, insert_self]
    · rw [insert_of_ne _ _ hg, insert_of_ne _ _ hf, insert_of_ne _ _ hf, insert_of_ne _ _ hg]

/-- **Two entries may be entered in either order.** -/
theorem enter?_comm (form : Form) (t : format.Table) (e e' : Document × Document) :
    (format.enter? form t e).bind (format.enter? form · e')
      = (format.enter? form t e').bind (format.enter? form · e) := by
  unfold enter?
  cases hf : (format.fieldOfKey form e.1).toOption with
  | none => simp
  | some f =>
  cases hg : (format.fieldOfKey form e'.1).toOption with
  | none => simp
  | some g =>
  cases hv : (format.read f e.2).toOption with
  | none => simp [hv]
  | some v =>
  cases hu : (format.read g e'.2).toOption with
  | none => simp [hu]
  | some u =>
  by_cases hfg : f = g
  · -- the second entry for one field is refused, whichever it is
    subst hfg
    simp only [Option.bind_some, hv, hu, Option.map_some]
    split
    · rfl
    · simp [Table.insert_self]
  · simp only [Option.bind_some, hv, hu, Option.map_some]
    cases htf : (t f).isSome <;> cases htg : (t g).isSome <;>
      simp [htf, htg, Table.insert_of_ne _ _ hfg, Table.insert_of_ne _ _ (Ne.symm hfg),
        Table.insert_comm t hfg]

/-- The order of entries is nothing to the table that they make. -/
theorem readEntries_perm (form : Form) {es es' : List (Document × Document)} (h : es.Perm es') :
    ∀ t : format.Table,
      (format.readEntries form t es').toOption = (format.readEntries form t es).toOption := by
  induction h with
  | nil => exact fun t => rfl
  | cons e _ ih =>
    intro t
    rw [readEntries_cons, readEntries_cons]
    exact congrArg _ (funext fun t => ih t)
  | swap e e' es =>
    intro t
    simp only [readEntries_cons, ← Option.bind_assoc]
    rw [enter?_comm]
  | trans _ _ ih ih' => exact fun t => (ih' t).trans (ih t)

variable (hread : ∀ f, Orderless (format.read f))
include hread

theorem readEntries_reordered (form : Form) : ∀ {es es' : List (Document × Document)},
    HoldJson es → ReorderedEntries es es' → ∀ t : format.Table,
      (format.readEntries form t es').toOption = (format.readEntries form t es).toOption
  | _, _, _, .nil, _ => rfl
  | (key, _) :: _, _, hes, .cons _ hvalue hentries, t => by
    rw [readEntries_cons, readEntries_cons]
    simp only [enter?, hread _ hes.2.1 hvalue, readEntries_reordered form hes.2.2 hentries]

theorem readItems_reordered (excess : ReadError) : ∀ (fs : List φ) {ds ds' : List Document},
    AreJson ds → ReorderedItems ds ds' → ∀ t : format.Table,
      (format.readItems excess t fs ds').toOption = (format.readItems excess t fs ds).toOption
  | [], _, _, _, .nil, _ => rfl
  | [], _ :: _, _ :: _, _, .cons _ _, t => by
    -- what is left over is refused, whatever it is
    have hrefuse : ∀ (d : Document) (ds : List Document),
        (format.readItems excess t [] (d :: ds)).toOption = none := by
      intro d ds
      cases d <;> rfl
    rw [hrefuse, hrefuse]
  | _ :: _, _, _, _, .nil, _ => rfl
  | f :: fs, _, _, hds, .cons hitem hitems, t => by
    simp only [readItems, toOption_bind, hread f hds.1 hitem,
      readItems_reordered excess fs hds.2 hitems]

variable (format) in
/-- **A record is read without regard to the order of its entries**, if its fields are. -/
theorem orderless_table : Orderless format.table := by
  intro d d' hd h
  cases h with
  | leaf => rfl
  | tagged => exact hd.elim
  | list form hitems =>
    cases form with
    | settled => exact readItems_reordered hread _ _ hd.2 hitems _
    | json => exact readItems_reordered hread _ _ hd.2 hitems _
    | yaml => exact hd.1.elim
  | record form hentries hperm =>
    show (format.readEntries form format.noField _ >>= format.complete).toOption
      = (format.readEntries form format.noField _ >>= format.complete).toOption
    rw [toOption_bind, toOption_bind, readEntries_perm form hperm,
      readEntries_reordered hread form hd.2 hentries]

end RecordFormat

end Lightshow
