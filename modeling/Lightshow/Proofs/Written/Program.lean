import Mathlib.Data.List.Permutation
import Lightshow.Proofs.Device.Reference
import Lightshow.Proofs.Validity.Step
import Lightshow.Proofs.Written.Values

/-!
# Written programs

A step is written as an object with one key, its kind, and a program as that object with its name
as another key if it has one.  Both are read back, whatever stands in which order: **no form that
is tried earlier captures what was meant for a later one, and no field is lost or swapped.**

A reader of steps is told how deep the document may nest, and the limit is the depth of the
document itself.  The order of entries has no say in that depth, and the documents of the steps
inside are less deep, so the limit is never in the way.  This is the induction over the tree: a
body is read back by a reader that reads back the steps inside it.

## Main definitions

* `Step.document`, `Program.document` — steps and programs as documents.
* `Step.Writable` — what can be written of a step on its own.

## Main results

* `Transition.written` — a transition is read back.
* `Step.written`, `Program.written` — steps and programs are read back.
* `Step.read_back` — both, as one statement about the readers.
-/

namespace Lightshow

open Document

/-! ### Transitions -/

/-- References as a document: the list of their texts. -/
def DeviceRef.listDocument (refs : List DeviceRef) : Document :=
  .list .settled (refs.map fun r => .text r.text)

theorem DeviceRef.written {r : DeviceRef} (h : r.Writable) :
    Written DeviceRef.ofDocument r (.text r.text) :=
  Written.bind (written_text r.text) (read_text h)

/-- A list of references is no record of groups, and is tried first. -/
theorem DeviceRef.written_list {refs : List DeviceRef} (h : ∀ r ∈ refs, r.Writable) :
    Written DeviceRef.listOfDocument refs (DeviceRef.listDocument refs) := by
  have hitems : List.Forall₂ (Written DeviceRef.ofDocument) refs
      (refs.map fun r => Document.text r.text) := by
    rw [List.forall₂_map_right_iff, List.forall₂_same]
    exact fun r hr => DeviceRef.written (h r hr)
  refine Written.bind (Written.firstFit_head ((Written.list hitems).returning Sum.inl)) ?_
  rfl

namespace Transition

/-- A transition as a document. Devices that are left out have no entry. -/
def document (t : Transition) : Document :=
  .object <|
    [("state", t.state.document)]
      ++ (t.devices.map fun refs => ("devices", DeviceRef.listDocument refs)).toList
      ++ [("wait", .bool t.wait), ("pause", t.pause.document)]

/-- What is written of a transition: its brightness is in range, and its references are texts. -/
def Writable (t : Transition) : Prop :=
  t.state.Writable ∧ ∀ refs ∈ t.devices, ∀ r ∈ refs, r.Writable

/-- The fields of a transition. -/
def table (t : Transition) : Transition.format.Table
  | .state => some t.state
  | .devices => t.devices
  | .wait => some t.wait
  | .pause => some t.pause

/-- How the value of a field is written. -/
def writeField : (f : TransitionField) → f.Value → Document
  | .state => DeviceState.document
  | .devices => DeviceRef.listDocument
  | .wait => .bool
  | .pause => Pause.document

theorem format_proper : Transition.format.Proper := ⟨fun f => by cases f <;> rfl, by decide⟩

theorem document_eq (t : Transition) : t.document = Transition.format.document writeField t.table := by
  obtain ⟨state, devices, wait, pause⟩ := t
  cases devices <;> rfl

/-- **A transition is read back.** -/
theorem written {t : Transition} (h : t.Writable) :
    Written Transition.ofDocument t t.document := by
  obtain ⟨hstate, hdevices⟩ := h
  have hfield : ∀ f v, t.table f = some v →
      Written (Transition.format.read f) v (writeField f v) := by
    intro f v hv
    cases f with
    | state =>
      obtain rfl := Option.some.inj hv
      exact DeviceState.written hstate
    | devices => exact DeviceRef.written_list (hdevices v hv)
    | wait => exact written_bool v
    | pause => exact Pause.written v
  have htable : Written Transition.format.table t.table t.document := by
    rw [document_eq]
    refine RecordFormat.written_table format_proper t.table writeField (fun f hf => ?_) hfield
    cases f with
    | state => rfl
    | devices | wait | pause => exact absurd hf Bool.false_ne_true
  exact Written.bind htable rfl

end Transition

/-! ### Steps -/

mutual

/-- The body of a step as a document: what stands under the key that is its kind. -/
def Step.body : Step → Document
  | .transition t => t.document
  | .composite _ steps loop pause =>
    .object [("steps", .list .settled (Step.documents steps)), ("loop", loop.document),
      ("pause", pause.document)]

/-- Steps as documents. -/
def Step.documents : List Step → List Document
  | [] => []
  | s :: rest => .object [(s.kind.word, Step.body s)] :: Step.documents rest

end

/-- A step as a document: its body under its kind. -/
def Step.document (s : Step) : Document := .object [(s.kind.word, s.body)]

/-- The steps inside a step. -/
def Step.inside : Step → List Step
  | .transition _ => []
  | .composite _ steps _ _ => steps

/-- What is written of a step on its own, whatever the steps below it are. -/
def Step.Writable : Step → Prop
  | .transition t => t.Writable
  | .composite _ _ loop _ => loop.mode.Writable

/-- The fields of a composite. -/
def compositeTable (readStep : Document → Except ReadError Step) (steps : List Step) (loop : Loop)
    (pause : Pause) : (compositeFormat readStep).Table
  | .steps => some steps
  | .loop => some loop
  | .pause => some pause

/-- How the value of a field is written. -/
def writeCompositeField : (f : CompositeField) → f.Value → Document
  | .steps => fun steps => .list .settled (Step.documents steps)
  | .loop => Loop.document
  | .pause => Pause.document

section Bodies

variable {readStep : Document → Except ReadError Step}

theorem compositeFormat_proper : (compositeFormat readStep).Proper where
  named f := by cases f <;> rfl
  nodup := by
    show [CompositeField.steps, .loop, .pause].Nodup
    decide

/-- A composite is read back by a reader that reads back its steps. -/
theorem written_composite {order : Order} {steps : List Step} {loop : Loop} {pause : Pause}
    (hloop : loop.mode.Writable)
    (hsteps : List.Forall₂ (Written readStep) steps (Step.documents steps)) :
    Written (compositeOfDocument readStep order) (.composite order steps loop pause)
      (Step.composite order steps loop pause).body := by
  have hfield : ∀ f v, compositeTable readStep steps loop pause f = some v →
      Written ((compositeFormat readStep).read f) v (writeCompositeField f v) := by
    intro f v hv
    cases f with
    | steps =>
      obtain rfl := Option.some.inj hv
      exact Written.list hsteps
    | loop =>
      obtain rfl := Option.some.inj hv
      exact Loop.written hloop
    | pause => exact Pause.written v
  have htable : Written (compositeFormat readStep).table
      (compositeTable readStep steps loop pause) (Step.composite order steps loop pause).body :=
    RecordFormat.written_table compositeFormat_proper _ writeCompositeField
      (fun f _ => by cases f <;> rfl) hfield
  exact Written.bind htable rfl

/-- A body is read back by a reader that reads back the steps inside. -/
theorem Step.written_body {s : Step} (h : s.Writable)
    (hinside : List.Forall₂ (Written readStep) s.inside (Step.documents s.inside)) :
    Written (Step.ofBody readStep s.kind) s s.body := by
  cases s with
  | transition t => exact (Transition.written h).map Step.transition
  | composite order steps loop pause =>
    have hwritten : Written (compositeOfDocument readStep order)
        (.composite order steps loop pause) (Step.composite order steps loop pause).body :=
      written_composite h hinside
    cases order <;> exact hwritten

end Bodies

theorem StepKind.ofText_word (kind : StepKind) : StepKind.ofText kind.word = .ok kind := by
  cases kind <;> rfl

/-- What stands under one key. -/
theorem reordered_object {key : String} {d d' : Document}
    (h : Reordered (.object [(key, d)]) d') :
    ∃ body, d' = .object [(key, body)] ∧ Reordered d body := by
  obtain ⟨es', es'', rfl, hentries, hperm⟩ := h.of_record
  cases hentries with
  | cons _ hbody hrest =>
    cases hrest
    rw [List.singleton_perm] at hperm
    exact ⟨_, by rw [← hperm]; rfl, hbody⟩

theorem settle_object {key : String} {d : Document} (h : d.settle = .ok d) :
    (Document.object [(key, d)]).settle = .ok (.object [(key, d)]) :=
  settle_record (List.forall_mem_singleton.mpr ⟨rfl, h⟩)

/-- A step is read back one level above its body. -/
theorem Step.written_succ {s : Step} {limit : ℕ}
    (h : Written (Step.ofBody (Step.ofDocumentWithin .settled limit) s.kind) s s.body) :
    Written (Step.ofDocumentWithin .settled (limit + 1)) s s.document := by
  intro d' hd'
  obtain ⟨body, rfl, hbody⟩ := reordered_object hd'
  obtain ⟨hsettle, hread⟩ := h body hbody
  refine ⟨settle_object hsettle, ?_⟩
  show StepKind.ofText s.kind.word
    >>= (fun kind => Step.ofBody (Step.ofDocumentWithin .settled limit) kind body) = .ok s
  rw [StepKind.ofText_word]
  exact hread

theorem Step.depth_document (s : Step) : s.document.depth = s.body.depth + 1 := by
  show max s.body.depth 0 + 1 = s.body.depth + 1
  rw [Nat.max_zero]

theorem Step.depth_documents_lt (order : Order) (steps : List Step) (loop : Loop) (pause : Pause) :
    depthItems (Step.documents steps) + 1 < (Step.composite order steps loop pause).body.depth := by
  show depthItems (Step.documents steps) + 1
    < max (depthItems (Step.documents steps) + 1) (max loop.document.depth (max _ 0)) + 1
  omega

mutual

/-- A step is read back within any limit that its document keeps. -/
theorem Step.written_within : ∀ (s : Step) {limit : ℕ}, (∀ n ∈ s.nodes, n.Writable) →
    s.document.depth ≤ limit → Written (Step.ofDocumentWithin .settled limit) s s.document
  | .transition t, 0, _, hdepth => by
    rw [Step.depth_document] at hdepth
    omega
  | .transition t, limit + 1, h, _ =>
    Step.written_succ (Step.written_body (h _ (List.mem_singleton_self _)) .nil)
  | .composite order steps loop pause, 0, _, hdepth => by
    rw [Step.depth_document] at hdepth
    omega
  | .composite order steps loop pause, limit + 1, h, hdepth => by
    rw [Step.depth_document] at hdepth
    rw [Step.nodes] at h
    obtain ⟨hself, hinside⟩ := List.forall_mem_cons.mp h
    have hlt := Step.depth_documents_lt order steps loop pause
    exact Step.written_succ (Step.written_body hself (Step.written_all_within steps hinside
      (by omega)))

/-- `Step.written_within` for the steps of a list. -/
theorem Step.written_all_within : ∀ (steps : List Step) {limit : ℕ},
    (∀ n ∈ Step.nodesAll steps, n.Writable) → depthItems (Step.documents steps) ≤ limit →
    List.Forall₂ (Written (Step.ofDocumentWithin .settled limit)) steps (Step.documents steps)
  | [], _, _, _ => .nil
  | s :: rest, limit, h, hdepth => by
    rw [Step.nodesAll] at h
    obtain ⟨hs, hrest⟩ := List.forall_mem_append.mp h
    have hmax : max s.document.depth (depthItems (Step.documents rest)) ≤ limit := hdepth
    exact .cons (Step.written_within s hs (by omega))
      (Step.written_all_within rest hrest (by omega))

end

/-- **A step is read back**, in whatever order the keys of its objects stand. -/
theorem Step.written {s : Step} (h : ∀ n ∈ s.nodes, n.Writable) :
    Written (Step.ofDocument .settled) s s.document := by
  intro d' hd'
  exact Step.written_within s h hd'.depth.ge d' hd'

theorem Step.written_all {steps : List Step} (h : ∀ n ∈ Step.nodesAll steps, n.Writable) :
    List.Forall₂ (Written (Step.ofDocument .settled)) steps (Step.documents steps) := by
  induction steps with
  | nil => exact .nil
  | cons s rest ih =>
    rw [Step.nodesAll] at h
    obtain ⟨hs, hrest⟩ := List.forall_mem_append.mp h
    exact .cons (Step.written hs) (ih hrest)

theorem Step.written_inside {s : Step} (h : ∀ n ∈ s.nodes, n.Writable) :
    List.Forall₂ (Written (Step.ofDocument .settled)) s.inside (Step.documents s.inside) := by
  cases s with
  | transition t => exact .nil
  | composite order steps loop pause =>
    rw [Step.nodes] at h
    exact Step.written_all (List.forall_mem_cons.mp h).2

/-! ### Programs -/

/-- A program as a document: its step, and its name if it has one. -/
def Program.document (p : Program) : Document :=
  .object <| (p.name.map fun name => ("name", .text name)).toList
    ++ [(p.step.kind.word, p.step.body)]

namespace ProgramParts

/-- The entry of the name. -/
theorem ofEntries_name {parts : ProgramParts} (hparts : parts.name = none) (name : String)
    (rest : List (Document × Document)) :
    ProgramParts.ofEntries parts ((.text "name", .text name) :: rest)
      = ProgramParts.ofEntries { parts with name := some (some name) } rest := by
  obtain ⟨_, others⟩ := parts
  obtain rfl := hparts
  rfl

/-- The entry of the step. Its key is no name. -/
theorem ofEntries_step (parts : ProgramParts) (kind : StepKind) {body : Document}
    (hbody : body.settle = .ok body) (rest : List (Document × Document)) :
    ProgramParts.ofEntries parts ((.text kind.word, body) :: rest)
      = ProgramParts.ofEntries { parts with others := parts.others ++ [(kind.word, body)] }
          rest := by
  have hkey : kind.word ≠ "name" := by cases kind <;> decide
  show (if kind.word = "name" then _ else body.settle >>= fun d =>
    ProgramParts.ofEntries { parts with others := parts.others ++ [(kind.word, d)] } rest) = _
  rw [if_neg hkey, hbody]
  rfl

end ProgramParts

theorem firstStep_singleton (kind : StepKind) (body : Document) :
    firstStep [(kind.word, body)] = some (kind, body) := by
  cases kind <;> rfl

/-- The parts of a program are all that is read of its entries. -/
theorem Program.ofDocument_of_parts (name : Option (Option String)) {s : Step}
    {es : List (Document × Document)} {body : Document}
    (hparts : ProgramParts.ofEntries {} es = .ok ⟨name, [(s.kind.word, body)]⟩)
    (hbody : Step.ofBody (Step.ofDocument .settled) s.kind body = .ok s) :
    Program.ofDocument (.record .settled es) = .ok ⟨name.join, s⟩ := by
  have hfirst := firstStep_singleton s.kind body
  simp only [Program.ofDocument, programEntries, bind, Except.bind, hparts, hfirst, hbody]
  rfl

/-- **A program is read back**, in whatever order the keys of its objects stand. -/
theorem Program.written {p : Program} (h : ∀ n ∈ p.step.nodes, n.Writable) :
    Written Program.ofDocument p p.document := by
  obtain ⟨name, s⟩ := p
  have hself : s.Writable := by
    cases s <;> exact h _ List.mem_cons_self
  have hbody := Step.written_body hself (Step.written_inside h)
  intro d' hd'
  cases name with
  | none =>
    obtain ⟨body, rfl, hreordered⟩ := reordered_object hd'
    obtain ⟨hsettle, hread⟩ := hbody body hreordered
    refine ⟨settle_object hsettle, ?_⟩
    exact Program.ofDocument_of_parts none (ProgramParts.ofEntries_step {} s.kind hsettle []) hread
  | some name =>
    obtain ⟨es', es'', rfl, hentries, hperm⟩ := hd'.of_record
    cases hentries with
    | cons _ hname hrest =>
    cases hrest with
    | cons _ hreordered hnil =>
    cases hnil
    obtain rfl := hname.eq_of_isLeaf trivial
    obtain ⟨hsettle, hread⟩ := hbody _ hreordered
    constructor
    · refine settle_record fun e he => ?_
      rw [← hperm.mem_iff] at he
      simp only [List.mem_cons, List.not_mem_nil, or_false] at he
      rcases he with rfl | rfl
      · exact ⟨rfl, rfl⟩
      · exact ⟨rfl, hsettle⟩
    · refine Program.ofDocument_of_parts (some (some name)) ?_ hread
      rcases List.pair_perm.mp hperm with rfl | rfl
      · rw [ProgramParts.ofEntries_name rfl]
        exact ProgramParts.ofEntries_step _ s.kind hsettle []
      · rw [ProgramParts.ofEntries_step _ s.kind hsettle]
        exact ProgramParts.ofEntries_name rfl name []

/-! ### Reading back -/

/-- **What is written is what is read.**  The object that spells out a tree of steps is read as
exactly that tree, and with a name beside it as the program of that name.  At no depth does it
matter in which order the keys of an object stand. -/
theorem Step.read_back {s : Step} (h : ∀ n ∈ s.nodes, n.Writable) :
    (∀ d, s.document.Reordered d → Step.ofDocument .settled d = .ok s) ∧
      ∀ (name : Option String) (d : Document), (Program.document ⟨name, s⟩).Reordered d →
        Program.ofDocument d = .ok ⟨name, s⟩ := by
  constructor
  · intro d hd
    exact (Step.written h d hd).2
  · intro name d hd
    have hwritten : Written Program.ofDocument ⟨name, s⟩ (Program.document ⟨name, s⟩) :=
      Program.written h
    exact (hwritten d hd).2

/-- A tree with steps of every kind: a lamp is dimmed and then waited for, and for an hour some
inputs are lit over and over. -/
def Step.evening : Step :=
  .composite .serial
    [.transition {
      state := { on := some true, bri := some (.step (-20)), xy := some (0.25, 0.5) }
      devices := some [.light "Desk lamp", .input 2]
      wait := true
      pause := { before := some ⟨1.5, some ⟨0, 2⟩⟩ } },
     .composite .parallel [.transition { state := { bri := some (.level 254) } }]
      { mode := .timer { hours := 1 }, pause := some (.fixed 0.5) } { after := some (.fixed 3) }]
    { mode := .random 1 3 } {}

theorem Step.evening_read_back :
    (∀ n ∈ Step.evening.nodes, n.Writable) ∧
      Step.ofDocument .settled Step.evening.document = .ok Step.evening ∧
      Program.ofDocument (.object [("serial", Step.evening.body), ("name", .text "evening")])
        = .ok ⟨some "evening", Step.evening⟩ := by
  have hwritable : ∀ n ∈ Step.evening.nodes, n.Writable := by
    intro n hn
    simp only [evening, Step.nodes, Step.nodesAll, List.cons_append, List.nil_append,
      List.mem_cons, List.not_mem_nil, or_false] at hn
    rcases hn with rfl | rfl | rfl | rfl
    · trivial
    · refine ⟨fun b hb => ?_, fun refs hrefs => ?_⟩
      · obtain rfl := Option.some.inj hb
        decide
      · obtain rfl := Option.some.inj hrefs
        decide
    · trivial
    · refine ⟨fun b hb => ?_, fun refs hrefs => by cases hrefs⟩
      obtain rfl := Option.some.inj hb
      decide
  obtain ⟨hstep, hprogram⟩ := Step.read_back hwritable
  refine ⟨hwritable, hstep _ (.refl _), hprogram (some "evening") _ ?_⟩
  exact .record .settled (.refl _) (.swap _ _ [])

end Lightshow
