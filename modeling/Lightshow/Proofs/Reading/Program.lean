import Lightshow.Proofs.Reading.Json
import Lightshow.Program.Reading

/-!
# Reading programs without regard to order

Every reader of the language of programs is orderless: states, pauses, loops, devices and
transitions because they are put together from parts that are, and steps by induction on how deep
they nest, an object with one key having one order only.

A program is read from an object whose entries are passed one after the other.  Of what goes by,
the name and the first step are kept.  Two entries may therefore change places unless both of
them are steps, and where at most one is, the order of keys is nothing to programs either.

## Main definitions

* `Document.stepEntries` — the entries of an object that are steps.
* `ProgramParts.enter?` — what is seen of a program after one more entry.

## Main results

* `Step.orderless_ofDocument` — the order of keys is nothing to a step.
* `ProgramParts.enter?_comm` — two entries of a program may change places, unless both are steps.
* `Program.read_of_reordered` — **the order of keys is nothing to a program** that gives at most
  one step, nor to its text.
-/

namespace Lightshow

open Document

/-! ### Pauses and loops -/

theorem orderless_bounds {α : Type} {bound : Document → Except ReadError α}
    (h : Orderless bound) : Orderless (boundsOfDocument bound) :=
  (RecordFormat.orderless_table (rangeFormat α bound) fun _ => h).bind _

theorem Jitter.orderless_ofDocument : Orderless Jitter.ofDocument :=
  (orderless_bounds orderless_float).bind _

theorem TimeOption.orderless_ofDocument : Orderless TimeOption.ofDocument := by
  refine (orderless_float.map _).firstOfTwo ((RecordFormat.orderless_table _ fun f => ?_).map _)
  cases f with
  | seconds => exact orderless_float
  | jitter => exact Jitter.orderless_ofDocument.optional

theorem Pause.orderless_ofDocument : Orderless Pause.ofDocument :=
  (orderless_float.bind _).firstOfTwo
    ((RecordFormat.orderless_table _ fun _ => TimeOption.orderless_ofDocument.optional).map _)

theorem orderless_count : Orderless asCount := (orderless_word 64).map _

theorem Timer.orderless_ofDocument : Orderless Timer.ofDocument :=
  (RecordFormat.orderless_table Timer.format fun _ => orderless_count).bind _

theorem Deadline.orderless_ofDocument : Orderless Deadline.ofDocument :=
  (RecordFormat.orderless_table Deadline.format fun _ => orderless_text).bind _

theorem LoopField.orderless_read : ∀ f : LoopField, Orderless f.read
  | infinite => orderless_bool
  | count => orderless_count.optional
  | random => (orderless_bounds orderless_count).optional
  | timer => Timer.orderless_ofDocument.optional
  | deadline => Deadline.orderless_ofDocument.optional
  | pause => TimeOption.orderless_ofDocument.optional

theorem Loop.orderless_table : Orderless Loop.format.table :=
  RecordFormat.orderless_table _ LoopField.orderless_read

theorem Loop.orderless_ofDocument : Orderless Loop.ofDocument :=
  ((orderless_bool.bind _).firstOfTwo (Loop.orderless_table.bind _)).bind _

/-! ### Transitions -/

theorem Brightness.orderless_ofDocument : Orderless Brightness.ofDocument :=
  ((orderless_signed.bind _).firstOfTwo (orderless_text.bind _)).bind _

theorem StateField.orderless_read : ∀ f : StateField, Orderless f.read
  | on => orderless_bool
  | bri => Brightness.orderless_ofDocument
  | hue | ct | transitionTime => (orderless_word 16).map _
  | sat => (orderless_word 8).map _
  | ctk => (orderless_word 32).map _
  | xy => orderless_float.pair
  | time => orderless_float

theorem DeviceState.orderless_ofDocument : Orderless DeviceState.ofDocument :=
  (RecordFormat.orderless_table _ fun f => (StateField.orderless_read f).optional).map _

theorem DeviceRef.orderless_ofDocument : Orderless DeviceRef.ofDocument := orderless_text.bind _

theorem orderless_devices : Orderless devicesFormat.table := by
  refine RecordFormat.orderless_table _ fun f => ?_
  cases f with
  | lights | groups => exact orderless_text.list
  | inputs =>
    exact ((DeviceRef.orderless_ofDocument.bind _).firstOfTwo
      DeviceRef.orderless_ofDocument.list).optional

theorem DeviceRef.orderless_listOfDocument : Orderless DeviceRef.listOfDocument :=
  ((DeviceRef.orderless_ofDocument.list.bind _).firstOfTwo (orderless_devices.bind _)).bind _

theorem Transition.orderless_ofDocument : Orderless Transition.ofDocument := by
  refine Orderless.bind (RecordFormat.orderless_table _ fun f => ?_) _
  cases f with
  | state => exact DeviceState.orderless_ofDocument
  | devices => exact DeviceRef.orderless_listOfDocument
  | wait => exact orderless_bool
  | pause => exact Pause.orderless_ofDocument

/-! ### Steps -/

section Steps

variable {readStep : Document → Except ReadError Step}

theorem orderless_composite (h : Orderless readStep) (order : Order) :
    Orderless (compositeOfDocument readStep order) := by
  refine Orderless.bind (RecordFormat.orderless_table _ fun f => ?_) _
  cases f with
  | steps => exact h.list
  | loop => exact Loop.orderless_ofDocument
  | pause => exact Pause.orderless_ofDocument

theorem Step.orderless_ofBody (h : Orderless readStep) :
    ∀ kind : StepKind, Orderless (Step.ofBody readStep kind)
  | .transition => Transition.orderless_ofDocument.map _
  | .serial => orderless_composite h .serial
  | .parallel => orderless_composite h .parallel

variable {readBody : StepKind → Document → Except ReadError Step}

/-- One entry makes a record a step, if its key is a kind. -/
theorem Step.ofEntries_singleton (form : Form) (key d : Document) :
    Step.ofEntries readBody form [(key, d)]
      = StepKind.ofKey form key >>= fun kind => readBody kind d := by
  cases form with
  | settled | yaml => rfl
  | json =>
    show (StepKind.ofKey .json key >>= fun kind => readBody kind d >>= pure) = _
    simp only [bind_pure]

/-- A record with no entry, or with several, is no step. -/
theorem Step.ofEntries_of_length_ne_one (form : Form) {es : List (Document × Document)}
    (h : es.length ≠ 1) : (Step.ofEntries readBody form es).toOption = none := by
  match es, h with
  | [], _ => cases form <;> rfl
  | (key, d) :: e :: es, _ =>
    cases form with
    | settled | yaml => rfl
    | json =>
      -- the first entry is read before the second is refused
      show (StepKind.ofKey .json key >>= fun kind =>
        readBody kind d >>= fun _ => .error .malformed).toOption = none
      rw [toOption_bind]
      refine Option.bind_eq_none_iff.mpr fun kind _ => ?_
      rw [toOption_bind]
      exact Option.bind_fun_none _

theorem Step.orderless_ofNode (h : ∀ kind, Orderless (readBody kind)) (outer : Form) :
    Orderless (Step.ofNode readBody outer) := by
  intro d d' hd hreordered
  cases hreordered with
  | leaf => rfl
  | tagged => exact hd.elim
  | list form =>
    cases form with
    | settled | json => rfl
    | yaml => exact hd.1.elim
  | record form hentries hperm =>
    have hform : ∀ es, Step.ofNode readBody outer (.record form es)
        = Step.ofEntries readBody form es := by
      cases form with
      | settled | json => exact fun _ => rfl
      | yaml => exact hd.1.elim
    rw [hform, hform]
    match hentries, hd.2 with
    | .nil, _ => rw [List.nil_perm.mp hperm]
    | .cons key hvalue .nil, hjson =>
      obtain rfl := List.singleton_perm.mp hperm
      rw [Step.ofEntries_singleton, Step.ofEntries_singleton, toOption_bind, toOption_bind]
      exact congrArg _ (funext fun kind => h kind hjson.2.1 hvalue)
    | .cons _ _ (.cons _ _ _), _ =>
      have hseveral := hperm.length_eq
      rw [Step.ofEntries_of_length_ne_one form (by simp [← hseveral]),
        Step.ofEntries_of_length_ne_one form (by simp)]

theorem Step.orderless_ofDocumentWithin (outer : Form) :
    ∀ limit, Orderless (Step.ofDocumentWithin outer limit)
  | 0 => fun _ _ _ _ => rfl
  | limit + 1 => Step.orderless_ofNode
      (Step.orderless_ofBody (Step.orderless_ofDocumentWithin outer limit)) outer

/-- **The order of keys is nothing to a step**, at no depth. -/
theorem Step.orderless_ofDocument (outer : Form) : Orderless (Step.ofDocument outer) := by
  intro d d' hd h
  rw [Step.ofDocument, Step.ofDocument, h.depth]
  exact Step.orderless_ofDocumentWithin outer d.depth hd h

end Steps

/-! ### Programs -/

/-- The kind and the body of a step, if an entry is one. -/
def stepIn? (e : Document × Document) : Option (StepKind × Document) :=
  (e.1.asText.toOption.bind StepKind.ofWord?).map (·, e.2)

/-- The entries of an object that are steps. -/
def Document.stepEntries : Document → List (StepKind × Document)
  | .record _ es => es.filterMap stepIn?
  | _ => []

namespace ProgramParts

variable {β : Type}

/-- The name and the step among the parts of a program, the step as `see` shows it. -/
def seen (see : StepKind → Document → β) (parts : ProgramParts) :
    Option (Option String) × Option β :=
  (parts.name, (firstStep parts.others).map fun (kind, d) => see kind d)

/-- What is seen of a program after one more entry, unless the entry is refused. -/
def enter? (see : StepKind → Document → β) (found : Option (Option String) × Option β)
    (e : Document × Document) : Option (Option (Option String) × Option β) :=
  e.1.asText.toOption.bind fun key =>
    if key = "name" then
      if found.1.isSome then none
      else (asOptional asText e.2).toOption.map fun name => (some name, found.2)
    else e.2.settle.toOption.map fun d =>
      (found.1, found.2.or ((StepKind.ofWord? key).map fun kind => see kind d))

theorem firstStep_append_singleton (others : List (String × Document)) (key : String)
    (d : Document) : firstStep (others ++ [(key, d)])
      = (firstStep others).or ((StepKind.ofWord? key).map fun kind => (kind, d)) := by
  rw [firstStep, List.findSome?_append, List.findSome?_singleton]
  rfl

variable (see : StepKind → Document → β)

/-- The parts of a program are found entry by entry. -/
theorem seen_ofEntries (parts : ProgramParts) (es : List (Document × Document)) :
    (parts.ofEntries es).toOption.map (seen see) = es.foldlM (enter? see) (parts.seen see) := by
  induction es generalizing parts with
  | nil => rfl
  | cons e es ih =>
    obtain ⟨key, d⟩ := e
    rw [ofEntries, toOption_bind, List.foldlM_cons, enter?]
    cases key.asText.toOption with
    | none => rfl
    | some key =>
      simp only [Option.bind_some]
      split
      · show Option.map _ (Except.toOption (if parts.name.isSome then _ else _))
          = (if parts.name.isSome then _ else _) >>= _
        split
        · rfl
        · rw [toOption_bind]
          cases (asOptional asText d).toOption with
          | none => rfl
          | some name => exact ih { parts with name := some name }
      · rw [toOption_bind]
        cases d.settle.toOption with
        | none => rfl
        | some d =>
          refine (ih { parts with others := parts.others ++ [(key, d)] }).trans ?_
          congr 1
          simp only [seen, firstStep_append_singleton, Option.map_or, Option.map_map]
          rfl

/-- Two entries may change places, unless both of them are steps. -/
theorem enter?_comm (found : Option (Option String) × Option β) (e e' : Document × Document)
    (h : stepIn? e = none ∨ stepIn? e' = none) :
    (enter? see found e).bind (enter? see · e') = (enter? see found e').bind (enter? see · e) := by
  unfold enter?
  cases hkey : e.1.asText.toOption with
  | none => simp
  | some key =>
  cases hkey' : e'.1.asText.toOption with
  | none => simp
  | some key' =>
  simp only [stepIn?, hkey, hkey', Option.bind_some, Option.map_eq_none_iff] at h
  simp only [Option.bind_some]
  by_cases hname : key = "name" <;> by_cases hname' : key' = "name"
  · -- a second name is refused, whichever it is
    simp only [if_pos hname, if_pos hname']
    cases (asOptional asText e.2).toOption <;> cases (asOptional asText e'.2).toOption <;>
      cases found.1.isSome <;> simp
  · simp only [if_pos hname, if_neg hname']
    cases (asOptional asText e.2).toOption <;> cases e'.2.settle.toOption <;>
      cases hname : found.1.isSome <;> simp [hname]
  · simp only [if_neg hname, if_pos hname']
    cases e.2.settle.toOption <;> cases (asOptional asText e'.2).toOption <;>
      cases hname : found.1.isSome <;> simp [hname]
  · -- one of them adds no step
    simp only [if_neg hname, if_neg hname']
    cases e.2.settle.toOption <;> cases e'.2.settle.toOption <;>
      rcases h with h | h <;> simp [h]

/-- The order of entries is nothing to what is seen, if at most one of them is a step. -/
theorem foldlM_enter?_perm {es es' : List (Document × Document)} (h : es.Perm es') :
    (es.filterMap stepIn?).length ≤ 1 → ∀ found,
      es'.foldlM (enter? see) found = es.foldlM (enter? see) found := by
  induction h with
  | nil => exact fun _ _ => rfl
  | cons e _ ih =>
    intro hone found
    rw [List.foldlM_cons, List.foldlM_cons]
    have hrest := Nat.le_trans ((List.sublist_cons_self e _).filterMap stepIn?).length_le hone
    exact congrArg _ (funext fun found => ih hrest found)
  | swap e e' es =>
    intro hone found
    have hnone : stepIn? e = none ∨ stepIn? e' = none := by
      by_contra hboth
      simp only [not_or, ← ne_eq, Option.ne_none_iff_exists'] at hboth
      obtain ⟨⟨a, ha⟩, b, hb⟩ := hboth
      simp [ha, hb] at hone
    simp only [List.foldlM_cons]
    show _ >>= _ = _ >>= _
    rw [← bind_assoc, ← bind_assoc]
    exact congrArg (· >>= _) (enter?_comm see found e e' hnone)
  | trans h _ ih ih' =>
    intro hone found
    rw [ih' ((h.filterMap stepIn?).length_eq ▸ hone), ih hone]

/-- Nor is the order of keys further down, if what is shown of steps does not depend on it. -/
theorem foldlM_enter?_reordered (hsee : ∀ kind ⦃d d'⦄, d.IsJson → Reordered d d' →
    see kind d' = see kind d) : ∀ {es es' : List (Document × Document)}, HoldJson es →
      ReorderedEntries es es' → ∀ found,
        es'.foldlM (enter? see) found = es.foldlM (enter? see) found
  | _, _, _, .nil, _ => rfl
  | (key, d) :: es, (_, d') :: _, hes, .cons _ hvalue hentries, found => by
    rw [List.foldlM_cons, List.foldlM_cons]
    obtain ⟨v, v', hv, hv', hjson, hreordered⟩ := hvalue.settle hes.2.1
    have hd : d.settle.toOption = some v := congrArg Except.toOption hv
    have hd' : d'.settle.toOption = some v' := congrArg Except.toOption hv'
    have henter : enter? see found (key, d') = enter? see found (key, d) := by
      simp only [enter?, orderless_text.optional hes.2.1 hvalue, hd, hd', Option.map_some,
        hsee _ hjson hreordered]
    rw [henter]
    exact congrArg _ (funext fun found =>
      foldlM_enter?_reordered hsee hes.2.2 hentries found)

end ProgramParts

theorem Document.ReorderedEntries.length_stepEntries : ∀ {es es' : List (Document × Document)},
    ReorderedEntries es es' →
      (es'.filterMap stepIn?).length = (es.filterMap stepIn?).length
  | _, _, .nil => rfl
  | (key, _) :: _, _, .cons _ _ hrest => by
    simp only [List.filterMap_cons, stepIn?]
    cases key.asText.toOption.bind StepKind.ofWord? with
    | none => exact hrest.length_stepEntries
    | some kind => exact congrArg (· + 1) hrest.length_stepEntries

/-- The step of a kind that the entry of a program denotes, if there is one. -/
def Step.ofBody? (kind : StepKind) (d : Document) : Option Step :=
  (Step.ofBody (Step.ofDocument .settled) kind d).toOption

/-- A program is what is seen of its entries. -/
theorem Program.ofDocument_record (form : Form) (es : List (Document × Document)) :
    (Program.ofDocument (.record form es)).toOption
      = (es.foldlM (ProgramParts.enter? Step.ofBody?) (none, none)).bind
        fun found => found.2.join.map fun step => ⟨found.1.join, step⟩ := by
  rw [show (none, none) = ProgramParts.seen Step.ofBody? {} from rfl,
    ← ProgramParts.seen_ofEntries, Option.bind_map]
  show (ProgramParts.ofEntries {} es >>= _).toOption = _
  rw [toOption_bind]
  refine congrArg _ (funext fun parts => ?_)
  simp only [ProgramParts.seen, Function.comp]
  cases firstStep parts.others with
  | none => rfl
  | some entry =>
    obtain ⟨kind, body⟩ := entry
    show (Step.ofBody (Step.ofDocument .settled) kind body >>= _).toOption
      = (Step.ofBody? kind body).map (Program.mk parts.name.join)
    rw [toOption_bind, ← Step.ofBody?]
    cases Step.ofBody? kind body <;> rfl

/-- **The order of keys is nothing to a program** whose object gives at most one step. -/
theorem Program.ofDocument_reordered {d d' : Document} (hd : d.IsJson)
    (h : Reordered d d') (hone : d.stepEntries.length ≤ 1) :
    (Program.ofDocument d').toOption = (Program.ofDocument d).toOption := by
  cases h with
  | leaf => rfl
  | tagged => exact hd.elim
  | list => rfl
  | record form hentries hperm =>
    have hread := ProgramParts.foldlM_enter?_reordered Step.ofBody?
      (fun kind _ _ => @Step.orderless_ofBody _ (Step.orderless_ofDocument .settled) kind _ _)
      hd.2 hentries
    rw [Program.ofDocument_record, Program.ofDocument_record,
      ProgramParts.foldlM_enter?_perm _ hperm (hentries.length_stepEntries ▸ hone), hread]

/-- **The order of keys never matters.**  Two documents of JSON that differ in nothing else, and
give at most one step, are both refused as a program or denote the same one, and so do the texts
that spell them. -/
theorem Program.read_of_reordered {d d' : Document} (hd : d.IsJson) (h : d.Reordered d')
    (hone : d.stepEntries.length ≤ 1) :
    (Program.ofDocument d').toOption = (Program.ofDocument d).toOption ∧
      ∀ s s', Json.Spells s d → Json.Spells s' d' →
        (readJson Program.ofDocument s').toOption = (readJson Program.ofDocument s).toOption := by
  have hread := Program.ofDocument_reordered hd h hone
  refine ⟨hread, fun s s' hs hs' => ?_⟩
  rw [hs.readJson, hs'.readJson, hread]

/-- A program that lights all inputs, with its keys in one order and in another. -/
def Document.dawn : Document :=
  .record .json
    [(.text "name", .text "dawn"),
     (.text "transition", .record .json
       [(.text "wait", .bool true), (.text "state", .record .json [(.text "on", .bool true)])])]

@[inherit_doc Document.dawn] def Document.dawnReordered : Document :=
  .record .json
    [(.text "transition", .record .json
       [(.text "state", .record .json [(.text "on", .bool true)]), (.text "wait", .bool true)]),
     (.text "name", .text "dawn")]

/-- The texts of `Document.dawn` and `Document.dawnReordered`. -/
def Document.dawnText : String :=
  "\x7b\"name\":\"dawn\",\"transition\":\x7b\"wait\":true,\"state\":\x7b\"on\":true\x7d\x7d\x7d"

@[inherit_doc Document.dawnText] def Document.dawnTextReordered : String :=
  "\x7b\"transition\":\x7b\"state\":\x7b\"on\":true\x7d,\"wait\":true\x7d,\"name\":\"dawn\"\x7d"

theorem Program.dawn_read_of_reordered :
    Document.dawn.IsJson ∧ Document.dawn.Reordered Document.dawnReordered ∧
      Document.dawn.stepEntries.length ≤ 1 ∧
      (Program.ofDocument Document.dawn).toOption.isSome ∧
      (Program.ofDocument Document.dawnReordered).toOption
        = (Program.ofDocument Document.dawn).toOption ∧
      (readJson Program.ofDocument Document.dawnTextReordered).toOption
        = (readJson Program.ofDocument Document.dawnText).toOption := by
  have hspells : Json.Spells Document.dawnText Document.dawn := ⟨[], by cbv, rfl⟩
  have hspells' : Json.Spells Document.dawnTextReordered Document.dawnReordered :=
    ⟨[], by cbv, rfl⟩
  have hreordered : Document.dawn.Reordered Document.dawnReordered :=
    .record .json (.cons _ (.leaf trivial) (.cons _ (.record .json (.refl _) (.swap _ _ [])) .nil))
      (.swap _ _ [])
  obtain ⟨hread, htexts⟩ := Program.read_of_reordered hspells.isJson hreordered (by decide)
  exact ⟨hspells.isJson, hreordered, by decide, by decide, hread, htexts _ _ hspells hspells'⟩

end Lightshow
