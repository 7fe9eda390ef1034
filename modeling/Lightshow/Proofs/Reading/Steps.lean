import Mathlib.Data.List.Find
import Lightshow.Proofs.Reading.Program

/-!
# Which steps are read

A step is an object with one entry, whose key is a kind of step.  Its body, if it is a composite,
holds a list of such objects.  The reader of steps is shown to leave none of them out: where it
finds a tree, the objects of the document correspond to the steps of the tree one by one, in
their order, and each of them has one entry and no more.

The object of a program is read otherwise.  Its first entry that is a step is taken, and all
further ones are passed over without a word.

## Main definitions

* `Document.stepItems` — the documents that stand for the steps of a composite.
* `Outlines` — the objects of a document correspond to the steps of a tree.
* `StepWithin` — the objects below a body that stand for steps.
* `Faithful` — readers of steps that leave nothing out.

## Main results

* `RecordFormat.readEntries_field` — a field holds what the first entry for it denotes.
* `Step.faithful_ofDocument` — a document outlines the step that it denotes.
* `OutlinesBody.single` — **every object within a step gives one kind, and nothing else.**
* `Program.steps_of_ofDocument` — no step within the first of a program is left out.
* `Program.second_step_dropped` — the object of a program may give a second, which is lost.
-/

namespace Lightshow

open Document

/-! ### Plain values -/

namespace Document

theorem settleItems_cons_inv {d : Document} {ds es : List Document}
    (h : settleItems (d :: ds) = .ok es) :
    ∃ v vs, es = v :: vs ∧ d.settle = .ok v ∧ settleItems ds = .ok vs := by
  rw [settleItems] at h
  obtain ⟨v, hd, h⟩ := bind_eq_ok.mp h
  obtain ⟨vs, hds, h⟩ := bind_eq_ok.mp h
  exact ⟨v, vs, (Except.ok.inj h).symm, hd, hds⟩

theorem settle_list_inv {form : Form} {ds : List Document} {e : Document}
    (h : (list form ds).settle = .ok e) :
    ∃ es, e = list .settled es ∧ settleItems ds = .ok es := by
  rw [settle] at h
  obtain ⟨-, -, h⟩ := bind_eq_ok.mp h
  obtain ⟨es, hds, h⟩ := bind_eq_ok.mp h
  exact ⟨es, (Except.ok.inj h).symm, hds⟩

theorem settle_record_inv {form : Form} {es : List (Document × Document)} {e : Document}
    (h : (record form es).settle = .ok e) :
    ∃ fs, e = record .settled fs ∧ settleEntries es = .ok fs := by
  rw [settle] at h
  obtain ⟨-, -, h⟩ := bind_eq_ok.mp h
  obtain ⟨fs, hes, h⟩ := bind_eq_ok.mp h
  exact ⟨fs, (Except.ok.inj h).symm, hes⟩

theorem settle_ofDenoted (v : Denoted) : (ofDenoted v).settle = .ok (ofDenoted v) := by
  cases v <;> rfl

/-- Scalars of a text are no plain values. -/
theorem not_settled_scalar (s : Scalar) : (scalar s).settle ≠ .ok (scalar s) := by
  intro h
  rw [settle] at h
  obtain ⟨-, -, h⟩ := bind_eq_ok.mp h
  obtain ⟨v, -, h⟩ := bind_eq_ok.mp h
  cases v <;> cases h

mutual

/-- What has been settled is a plain value. -/
theorem settle_settle : ∀ {d e : Document}, d.settle = .ok e → e.settle = .ok e
  | null, _, h | bool _, _, h | int _, _, h | float _, _, h | text _, _, h | absent, _, h => by
    cases h
    rfl
  | tagged .., _, h | broken _, _, h => by cases h
  | scalar _, _, h => by
    rw [settle] at h
    obtain ⟨-, -, h⟩ := bind_eq_ok.mp h
    obtain ⟨v, -, h⟩ := bind_eq_ok.mp h
    cases h
    exact settle_ofDenoted v
  | list .., _, h => by
    obtain ⟨es, rfl, hds⟩ := settle_list_inv h
    exact settle_list (settleItems_settle hds)
  | record .., _, h => by
    obtain ⟨fs, rfl, hes⟩ := settle_record_inv h
    exact settle_record (settleEntries_settle hes)

theorem settleItems_settle : ∀ {ds es : List Document}, settleItems ds = .ok es →
    ∀ e ∈ es, e.settle = .ok e
  | [], _, h => by
    cases h
    exact fun _ he => absurd he List.not_mem_nil
  | _ :: _, _, h => by
    obtain ⟨v, vs, rfl, hd, hds⟩ := settleItems_cons_inv h
    exact List.forall_mem_cons.mpr ⟨settle_settle hd, settleItems_settle hds⟩

theorem settleEntries_settle : ∀ {es fs : List (Document × Document)},
    settleEntries es = .ok fs → ∀ f ∈ fs, f.1.settle = .ok f.1 ∧ f.2.settle = .ok f.2
  | [], _, h => by
    cases h
    exact fun _ hf => absurd hf List.not_mem_nil
  | (_, _) :: _, _, h => by
    obtain ⟨k, v, fs, rfl, hkey, hd, hes⟩ := settleEntries_cons_inv h
    exact List.forall_mem_cons.mpr
      ⟨⟨settle_settle hkey, settle_settle hd⟩, settleEntries_settle hes⟩

end

/-- The items of a plain list are plain. -/
theorem settled_list {form : Form} {ds : List Document}
    (h : (list form ds).settle = .ok (list form ds)) :
    form = .settled ∧ ∀ d ∈ ds, d.settle = .ok d := by
  obtain ⟨es, heq, hds⟩ := settle_list_inv h
  obtain ⟨rfl, rfl⟩ := list.inj heq
  exact ⟨rfl, settleItems_settle hds⟩

/-- The keys and values of a plain record are plain. -/
theorem settled_record {form : Form} {es : List (Document × Document)}
    (h : (record form es).settle = .ok (record form es)) :
    form = .settled ∧ ∀ e ∈ es, e.1.settle = .ok e.1 ∧ e.2.settle = .ok e.2 := by
  obtain ⟨fs, heq, hes⟩ := settle_record_inv h
  obtain ⟨rfl, rfl⟩ := record.inj heq
  exact ⟨rfl, settleEntries_settle hes⟩

end Document

/-! ### Fields -/

namespace RecordFormat

variable {φ : Type} [DecidableEq φ] {format : RecordFormat φ}

/-- A field holds what it held, or else what the first entry for it denotes. -/
theorem readEntries_field (form : Form) (f : φ) : ∀ {es : List (Document × Document)}
    {t t' : format.Table}, format.readEntries form t es = .ok t' →
      t' f = (t f).or ((es.find? fun e => format.fieldOfKey form e.1 = .ok f).bind fun e =>
        (format.read f e.2).toOption)
  | [], t, _, h => by
    cases h
    exact (Option.or_none).symm
  | (key, d) :: es, t, t', h => by
    rw [readEntries] at h
    obtain ⟨g, hkey, h⟩ := bind_eq_ok.mp h
    split at h
    · cases h
    · next hfree =>
      obtain ⟨v, hv, h⟩ := bind_eq_ok.mp h
      rw [readEntries_field form f h]
      by_cases hfg : g = f
      · subst hfg
        rw [Table.insert_self, Option.some_or, Option.not_isSome_iff_eq_none.mp hfree,
          List.find?_cons_of_pos (by simpa using hkey), Option.bind_some, hv]
        rfl
      · rw [Table.insert_of_ne _ _ hfg, List.find?_cons_of_neg]
        simp [hkey, hfg]

omit [DecidableEq φ] in
/-- Nothing is added to a table in which no field is missing. -/
theorem complete_inv {t t' : format.Table} (h : format.complete t = .ok t') : t' = t := by
  unfold complete at h
  split at h <;> cases h
  rfl

/-- Items stand for the fields that are listed, and for no other. -/
theorem readItems_field (excess : ReadError) (f : φ) : ∀ {fs : List φ} {ds : List Document}
    {t t' : format.Table}, format.readItems excess t fs ds = .ok t' → f ∉ fs → t' f = t f
  | [], [], _, _, h, _ => by
    cases h
    rfl
  | [], d :: _, _, _, h, _ => by
    cases d <;> cases h
  | _ :: _, [], _, _, h, _ => by
    simp only [readItems] at h
    split at h
    · cases h
    · cases h
      rfl
  | g :: fs, d :: ds, t, t', h, hf => by
    rw [List.mem_cons, not_or] at hf
    rw [readItems] at h
    obtain ⟨v, -, h⟩ := bind_eq_ok.mp h
    rw [readItems_field excess f h hf.2, Table.insert_of_ne _ _ (Ne.symm hf.1)]

end RecordFormat

/-! ### Steps of a composite -/

namespace Document

/-- The items of a list. -/
def items : Document → List Document
  | list _ ds => ds
  | _ => []

/-- Whether a key of a plain record is that of the steps of a composite. -/
def isStepsKey : Document → Bool
  | text word => word = "steps"
  | int n => n = 0
  | _ => false

/-- The documents that stand for the steps of a composite, given its body.  They are listed under
a key of a record, or stand first in a list that is taken for one. -/
def stepItems : Document → List Document
  | record _ es => ((es.find? fun e => e.1.isStepsKey).map fun e => e.2.items).getD []
  | list _ (d :: _) => d.items
  | _ => []

end Document

section Composites

variable {readStep : Document → Except ReadError Step}

/-- The key of the steps is the one that a composite takes for it. -/
theorem fieldOfKey_steps {key : Document} (h : key.settle = .ok key) :
    (compositeFormat readStep).fieldOfKey .settled key = .ok .steps ↔ key.isStepsKey := by
  cases key with
  | text word =>
    simp only [RecordFormat.fieldOfKey, RecordFormat.fieldOfText, RecordFormat.named?,
      compositeFormat, List.find?_cons, List.find?_nil, List.not_mem_nil, decide_false,
      Bool.or_false, isStepsKey, decide_eq_true_eq]
    by_cases hsteps : "steps" = word
    · simp [hsteps]
    · by_cases hloop : "loop" = word <;> by_cases hpause : "pause" = word <;>
        simp [hsteps, hloop, hpause, Ne.symm hsteps]
  | int n =>
    cases n with
    | negSucc k => simp [RecordFormat.fieldOfKey, isStepsKey]
    | ofNat k =>
      -- a composite has three fields, of which the steps are the first
      rcases k with _ | _ | _ | k
      · simp [RecordFormat.fieldOfKey, compositeFormat, isStepsKey]
      · simp [RecordFormat.fieldOfKey, compositeFormat, isStepsKey]
      · simp [RecordFormat.fieldOfKey, compositeFormat, isStepsKey]
      · have hfield : (compositeFormat readStep).fieldOfKey .settled (int (.ofNat (k + 3)))
            = .error .outOfRange := rfl
        simp only [hfield, isStepsKey, decide_eq_true_eq, reduceCtorEq, false_iff]
        exact Int.ne_of_gt (Int.natCast_pos.mpr (Nat.succ_pos _))
  | null | bool | float | list | record | tagged | absent | broken =>
    constructor <;> intro h <;> cases h
  | scalar s => exact absurd h (not_settled_scalar s)

/-- A list of values is read item by item. -/
theorem asList_inv {α : Type} {read : Document → Except ReadError α} {d : Document}
    {xs : List α} (hd : d.settle = .ok d) (h : asList read d = .ok xs) :
    d.items.mapM read = .ok xs := by
  obtain ⟨ds, hds, h⟩ := bind_eq_ok.mp h
  cases d with
  | list =>
    cases hds
    exact h
  | null | bool | int | float | text | record | tagged | broken => cases hds
  | absent => cases hd
  | scalar s => exact absurd hd (not_settled_scalar s)

/-- The field of the steps holds what the items that stand for them denote. -/
theorem table_steps {body : Document} {t : (compositeFormat readStep).Table} {steps : List Step}
    (hbody : body.settle = .ok body) (h : (compositeFormat readStep).table body = .ok t)
    (hsteps : t .steps = some steps) : body.stepItems.mapM readStep = .ok steps := by
  cases body with
  | null | bool | int | float | text | tagged | broken => cases h
  | absent => cases hbody
  | scalar s => exact absurd hbody (not_settled_scalar s)
  | record form es =>
    obtain ⟨rfl, hes⟩ := settled_record hbody
    obtain ⟨t', ht, h⟩ := bind_eq_ok.mp h
    obtain rfl := RecordFormat.complete_inv h
    rw [RecordFormat.readEntries_field .settled .steps ht] at hsteps
    have hfind : (es.find? fun e => (compositeFormat readStep).fieldOfKey .settled e.1 = .ok .steps)
        = es.find? fun e => e.1.isStepsKey :=
      List.find?_congr fun e he => by simp only [fieldOfKey_steps (hes e he).1, Bool.decide_coe]
    rw [hfind] at hsteps
    rw [stepItems]
    cases hentry : es.find? fun e => e.1.isStepsKey with
    | none =>
      rw [hentry] at hsteps
      cases hsteps
    | some e =>
      rw [hentry] at hsteps
      have hread : asList readStep e.2 = .ok steps := toOption_eq_some.mp hsteps
      exact asList_inv (hes e (List.mem_of_find?_eq_some hentry)).2 hread
  | list form ds =>
    obtain ⟨rfl, hds⟩ := settled_list hbody
    cases ds with
    | nil => cases h
    | cons d ds =>
      obtain ⟨v, hv, h⟩ := bind_eq_ok.mp h
      have hfield := RecordFormat.readItems_field _ .steps h (by decide)
      rw [hsteps, RecordFormat.Table.insert_self] at hfield
      cases hfield
      exact asList_inv (hds d List.mem_cons_self) hv

/-- The steps of a composite are read from its items. -/
theorem compositeOfDocument_inv {order : Order} {body : Document} {s : Step}
    (hbody : body.settle = .ok body) (h : compositeOfDocument readStep order body = .ok s) :
    ∃ steps repeats pause, s = .composite order steps repeats pause ∧
      body.stepItems.mapM readStep = .ok steps := by
  obtain ⟨t, ht, h⟩ := bind_eq_ok.mp h
  split at h
  · next steps hsteps =>
    exact ⟨steps, _, _, (Except.ok.inj h).symm, table_steps hbody ht hsteps⟩
  · cases h

end Composites

/-! ### Outlines -/

mutual

/-- An object stands for a step: its only key is the kind of the step. -/
inductive Outlines : Document → Step → Prop
  | object {form : Form} {key body : Document} {s : Step}
      (hkey : StepKind.ofKey form key = .ok s.kind) (hbody : OutlinesBody body s) :
      Outlines (.record form [(key, body)]) s

/-- A body stands for a step: the objects in it, one by one, for the steps inside. -/
inductive OutlinesBody : Document → Step → Prop
  | transition {body : Document} {t : Transition} (h : Transition.ofDocument body = .ok t) :
      OutlinesBody body (.transition t)
  | composite {body : Document} {order : Order} {steps : List Step} {repeats : Loop}
      {pause : Pause} (h : OutlinesAll body.stepItems steps) :
      OutlinesBody body (.composite order steps repeats pause)

/-- `Outlines` for a list of objects. -/
inductive OutlinesAll : List Document → List Step → Prop
  | nil : OutlinesAll [] []
  | cons {o : Document} {os : List Document} {s : Step} {steps : List Step} (h : Outlines o s)
      (hrest : OutlinesAll os steps) : OutlinesAll (o :: os) (s :: steps)

end

/-- The objects below the body of a step that stand for steps. -/
inductive StepWithin : StepKind → Document → Document → Prop
  | item {kind : StepKind} {body o : Document} (hkind : kind ≠ .transition)
      (h : o ∈ body.stepItems) : StepWithin kind body o
  | inside {kind kind' : StepKind} {body body' key o : Document} {form : Form}
      {es : List (Document × Document)} (hkind : kind ≠ .transition)
      (h : .record form es ∈ body.stepItems) (hentry : (key, body') ∈ es)
      (hkey : StepKind.ofKey form key = .ok kind') (hrest : StepWithin kind' body' o) :
      StepWithin kind body o

theorem OutlinesAll.exists_of_mem {o : Document} : ∀ {os : List Document} {steps : List Step},
    OutlinesAll os steps → o ∈ os → ∃ s ∈ steps, Outlines o s
  | _, _, .nil, ho => absurd ho List.not_mem_nil
  | _, _, .cons h hrest, ho => by
    rcases List.mem_cons.mp ho with rfl | ho
    · exact ⟨_, List.mem_cons_self, h⟩
    · obtain ⟨s, hs, h⟩ := hrest.exists_of_mem ho
      exact ⟨s, List.mem_cons_of_mem _ hs, h⟩

/-- An object among those for the steps of a composite stands for a step. -/
theorem OutlinesBody.exists_of_mem {body o : Document} {s : Step} (h : OutlinesBody body s)
    (hkind : s.kind ≠ .transition) (ho : o ∈ body.stepItems) : ∃ s', Outlines o s' := by
  cases h with
  | transition => exact absurd rfl hkind
  | composite hsteps =>
    obtain ⟨s', -, h⟩ := hsteps.exists_of_mem ho
    exact ⟨s', h⟩

/-- **Every object within a step gives one kind, and nothing else.** -/
theorem OutlinesBody.single {kind : StepKind} {body o : Document}
    (hwithin : StepWithin kind body o) : ∀ {s : Step}, OutlinesBody body s → s.kind = kind →
      ∃ form key body' kind', o = .record form [(key, body')] ∧
        StepKind.ofKey form key = .ok kind' := by
  induction hwithin with
  | item hkind ho =>
    rintro s h rfl
    obtain ⟨s', hobject⟩ := h.exists_of_mem hkind ho
    cases hobject with
    | object hkey hbody => exact ⟨_, _, _, _, rfl, hkey⟩
  | inside hkind ho hentry hkey' _ ih =>
    rintro s h rfl
    obtain ⟨s', hobject⟩ := h.exists_of_mem hkind ho
    cases hobject with
    | object hkey hbody =>
      obtain ⟨rfl, rfl⟩ := Prod.mk.inj (List.mem_singleton.mp hentry)
      exact ih hbody (Except.ok.inj (hkey.symm.trans hkey'))

/-! ### What is read has its outline -/

/-- A reader of steps leaves nothing out of plain values. -/
def Faithful (readStep : Document → Except ReadError Step) : Prop :=
  ∀ ⦃o s⦄, o.settle = .ok o → readStep o = .ok s → Outlines o s

theorem items_settled {d : Document} (hd : d.settle = .ok d) :
    ∀ o ∈ d.items, o.settle = .ok o := by
  intro o ho
  cases d with
  | list form ds => exact (settled_list hd).2 o ho
  | _ => cases ho

theorem stepItems_settled {body : Document} (hbody : body.settle = .ok body) :
    ∀ o ∈ body.stepItems, o.settle = .ok o := by
  intro o ho
  cases body with
  | record form es =>
    rw [stepItems] at ho
    cases hentry : es.find? fun e => e.1.isStepsKey with
    | none =>
      rw [hentry] at ho
      cases ho
    | some e =>
      rw [hentry] at ho
      exact items_settled ((settled_record hbody).2 e (List.mem_of_find?_eq_some hentry)).2 o ho
  | list form ds =>
    cases ds with
    | nil => cases ho
    | cons d ds => exact items_settled ((settled_list hbody).2 d List.mem_cons_self) o ho
  | _ => cases ho

theorem Faithful.mapM {readStep : Document → Except ReadError Step} (h : Faithful readStep) :
    ∀ {os : List Document} {steps : List Step}, (∀ o ∈ os, o.settle = .ok o) →
      os.mapM readStep = .ok steps → OutlinesAll os steps
  | [], _, _, hread => by
    cases hread
    exact .nil
  | o :: os, steps, hos, hread => by
    rw [List.mapM_cons] at hread
    obtain ⟨s, hs, hread⟩ := bind_eq_ok.mp hread
    obtain ⟨rest, hrest, hread⟩ := bind_eq_ok.mp hread
    cases hread
    obtain ⟨ho, hos⟩ := List.forall_mem_cons.mp hos
    exact .cons (h ho hs) (h.mapM hos hrest)

theorem Faithful.ofBody {readStep : Document → Except ReadError Step} (h : Faithful readStep)
    {kind : StepKind} {body : Document} {s : Step} (hbody : body.settle = .ok body)
    (hread : Step.ofBody readStep kind body = .ok s) : s.kind = kind ∧ OutlinesBody body s := by
  have hcomposite : ∀ order, compositeOfDocument readStep order body = .ok s →
      s.kind = order.kind ∧ OutlinesBody body s := by
    intro order hread
    obtain ⟨steps, repeats, pause, rfl, hsteps⟩ := compositeOfDocument_inv hbody hread
    exact ⟨rfl, .composite (h.mapM (stepItems_settled hbody) hsteps)⟩
  cases kind with
  | transition =>
    obtain ⟨t, ht, hs⟩ := bind_eq_ok.mp hread
    cases hs
    exact ⟨rfl, .transition ht⟩
  | serial => exact hcomposite .serial hread
  | parallel => exact hcomposite .parallel hread

theorem Faithful.ofNode {readStep : Document → Except ReadError Step} (h : Faithful readStep)
    (outer : Form) : Faithful (Step.ofNode (Step.ofBody readStep) outer) := by
  intro o s ho hread
  cases o with
  | record form es =>
    obtain ⟨rfl, hes⟩ := settled_record ho
    have hofEntries : Step.ofEntries (Step.ofBody readStep) .settled es = .ok s := hread
    match es, hes with
    | [(key, body)], hes =>
      rw [Step.ofEntries_singleton] at hofEntries
      obtain ⟨kind, hkey, hbody⟩ := bind_eq_ok.mp hofEntries
      obtain ⟨rfl, houtlines⟩ := h.ofBody (hes _ List.mem_cons_self).2 hbody
      exact .object hkey houtlines
    | [], _ | _ :: _ :: _, _ => cases hofEntries
  | text word =>
    obtain ⟨_, _, hrefuse⟩ := bind_eq_ok.mp hread
    cases hrefuse
  | list form ds =>
    obtain ⟨rfl, -⟩ := settled_list ho
    simp only [Step.ofNode] at hread
    split at hread <;> cases hread
  | scalar s => exact absurd ho (not_settled_scalar s)
  | absent | broken => cases hread
  | null | bool | int | float | tagged =>
    simp only [Step.ofNode] at hread
    split at hread <;> cases hread

theorem Step.faithful_ofDocumentWithin (outer : Form) :
    ∀ limit, Faithful (Step.ofDocumentWithin outer limit)
  | 0 => fun _ _ _ hread => by cases hread
  | limit + 1 => (Step.faithful_ofDocumentWithin outer limit).ofNode outer

theorem Step.faithful_ofDocument (outer : Form) : Faithful (Step.ofDocument outer) :=
  fun o _ ho hread => Step.faithful_ofDocumentWithin outer o.depth ho hread

/-! ### Programs -/

namespace ProgramParts

/-- What is seen of the first step is the first entry that is a step, settled. -/
theorem foldlM_enter?_step {β : Type} (see : StepKind → Document → β) :
    ∀ {es : List (Document × Document)} {found found' : Option (Option String) × Option β},
      es.foldlM (enter? see) found = some found' →
        found'.2 = found.2.or ((es.filterMap stepIn?).head?.bind fun e =>
          e.2.settle.toOption.map fun d => see e.1 d)
  | [], _, _, h => by
    cases h
    exact (Option.or_none).symm
  | (key, d) :: es, found, found', h => by
    rw [List.foldlM_cons] at h
    obtain ⟨next, hnext, h⟩ := Option.bind_eq_some_iff.mp h
    obtain ⟨word, hword, hnext⟩ := Option.bind_eq_some_iff.mp hnext
    rw [foldlM_enter?_step see h]
    have hentry : stepIn? (key, d) = (StepKind.ofWord? word).map (·, d) := by
      rw [stepIn?, hword]
      rfl
    by_cases hname : word = "name"
    · have hnone : stepIn? (key, d) = none := by
        rw [hentry, hname]
        rfl
      rw [if_pos hname] at hnext
      split at hnext
      · cases hnext
      · obtain ⟨name, -, rfl⟩ := Option.map_eq_some_iff.mp hnext
        rw [List.filterMap_cons_none hnone]
    · rw [if_neg hname] at hnext
      obtain ⟨v, hv, rfl⟩ := Option.map_eq_some_iff.mp hnext
      cases hkind : StepKind.ofWord? word with
      | none =>
        rw [hkind] at hentry
        rw [List.filterMap_cons_none hentry]
        simp
      | some kind =>
        rw [hkind] at hentry
        rw [List.filterMap_cons_some hentry]
        simp [hv]

end ProgramParts

theorem programEntries_inv {d : Document} {es : List (Document × Document)}
    (h : programEntries d = .ok es) : d.stepEntries = es.filterMap stepIn? := by
  cases d with
  | record =>
    cases h
    rfl
  | absent =>
    cases h
    rfl
  | scalar s =>
    simp only [programEntries] at h
    split at h <;> cases h
    rfl
  | _ => cases h

/-- **No step within the first is left out.**  The object of a program that is accepted gives a
step, and the first that it gives is the program's.  The objects in it are the steps of the
program, one by one, and each of them gives one kind and nothing else, so where an object within
a step gives two kinds or none, the document is refused. -/
theorem Program.steps_of_ofDocument {d : Document} {p : Program}
    (h : Program.ofDocument d = .ok p) :
    ∃ value body, d.stepEntries.head? = some (p.step.kind, value) ∧
      (d.stepEntries.length ≤ 1 → d.stepEntries = [(p.step.kind, value)]) ∧
      value.settle = .ok body ∧ OutlinesBody body p.step ∧
      ∀ o, StepWithin p.step.kind body o → ∃ form key body' kind,
        o = .record form [(key, body')] ∧ StepKind.ofKey form key = .ok kind := by
  obtain ⟨es, hes, h⟩ := bind_eq_ok.mp h
  obtain ⟨parts, hparts, h⟩ := bind_eq_ok.mp h
  have hseen := ProgramParts.seen_ofEntries Prod.mk {} es
  rw [hparts] at hseen
  have hfirst : (firstStep parts.others).map (fun e => (e.1, e.2))
      = (es.filterMap stepIn?).head?.bind fun e => e.2.settle.toOption.map (e.1, ·) :=
    ProgramParts.foldlM_enter?_step Prod.mk hseen.symm
  split at h
  · cases h
  · next kind body hstep =>
    obtain ⟨step, hread, h⟩ := bind_eq_ok.mp h
    cases h
    rw [hstep, ← programEntries_inv hes] at hfirst
    obtain ⟨⟨kind', value⟩, hhead, hvalue⟩ := Option.bind_eq_some_iff.mp hfirst.symm
    obtain ⟨body', hbody, heq⟩ := Option.map_eq_some_iff.mp hvalue
    cases heq
    have hsettle : value.settle = .ok body := toOption_eq_some.mp hbody
    obtain ⟨rfl, houtlines⟩ :=
      (Step.faithful_ofDocument .settled).ofBody (settle_settle hsettle) hread
    refine ⟨value, body, hhead, fun hone => ?_, hsettle, houtlines, fun o ho =>
      houtlines.single ho rfl⟩
    obtain ⟨others, hothers⟩ := List.head?_eq_some_iff.mp hhead
    rw [hothers, List.length_cons] at hone
    rw [hothers, List.eq_nil_of_length_eq_zero (by omega : others.length = 0)]

/-- A program whose object gives two steps. -/
def Document.twofold : Document :=
  .record .json
    [(.text "serial", .record .json [(.text "steps", .list .json
       [.record .json [(.text "transition", .record .json
         [(.text "state", .record .json [(.text "on", .bool true)])])]])]),
     (.text "transition", .record .json
       [(.text "state", .record .json [(.text "on", .bool false)])])]

/-- The step that is read of `Document.twofold`. -/
def Step.ofTwofold : Step :=
  .composite .serial [.transition { state := { on := some true } }] Loop.once {}

theorem Program.ofDocument_twofold : Program.ofDocument .twofold = .ok ⟨none, .ofTwofold⟩ := by
  rfl

theorem Program.twofold_steps :
    Program.ofDocument .twofold = .ok ⟨none, .ofTwofold⟩ ∧
      ∃ value body, Document.twofold.stepEntries.head? = some (.serial, value) ∧
        value.settle = .ok body ∧ OutlinesBody body .ofTwofold ∧
        ∀ o, StepWithin .serial body o → ∃ form key body' kind,
          o = .record form [(key, body')] ∧ StepKind.ofKey form key = .ok kind := by
  have hread := Program.ofDocument_twofold
  obtain ⟨value, body, hhead, -, hsettle, houtlines, hsingle⟩ := Program.steps_of_ofDocument hread
  exact ⟨hread, value, body, hhead, hsettle, houtlines, hsingle⟩

/-- The object of a program that is accepted may give two steps, of which the second is lost. -/
theorem Program.second_step_dropped :
    ¬∀ d p, Program.ofDocument d = .ok p → d.stepEntries.length = 1 := by
  intro h
  have hlength := h .twofold _ Program.ofDocument_twofold
  revert hlength
  decide

end Lightshow
