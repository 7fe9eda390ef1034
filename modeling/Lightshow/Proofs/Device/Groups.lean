import Lightshow.Proofs.Reading.Program
import Lightshow.Proofs.Reading.Steps
import Lightshow.Proofs.Written.Program

/-!
# Devices in groups

The devices of a transition are given as a list of references or as a record of three lists, the
inputs, the lights and the groups.  Both forms make the same references, but not in the same way.
In the list every reference is a text that is read as such, so the blanks around a name are
dropped and a name of blanks is refused.  In the record only the inputs are read as references;
**the names of lights and groups are taken as they stand, and no name is refused.**

So the two forms agree if all names are bare, and for no other names unless both are refused.
What the list accepts the record accepts too, with the same references but for the blanks around
names.

A reader first settles what it reads and then tries the list before the record.  A list may stand
for a record, so a list that is no list of references might still be read as a record.  It never
is: its first item would have to be the inputs, and then it is a reference.

## Main definitions

* `DeviceRef.groupedDocument`, `DeviceRef.flatDocument` — the two forms.

## Main results

* `DeviceRef.listOfDocument_listDocument`, `DeviceRef.listOfDocument_groupedDocument` — what is
  read of either form.
* `DeviceRef.groups_as_list` — **when the two forms agree.**
-/

namespace Lightshow

open Document Text

/-- What a choice of forms finds is decided by the settled document. -/
theorem Document.firstFit_settle {α : Type} (readers : List (Document → Except ReadError α))
    {d e : Document} (h : d.settle = .ok e) : firstFit readers d = firstFit readers e := by
  rw [firstFit, firstFit, h, settle_settle h]

theorem Document.asList_texts (names : List String) :
    asList asText (.list .settled (names.map .text)) = .ok names := by
  show (names.map Document.text).mapM asText = .ok names
  rw [mapM_eq_ok_iff, List.forall₂_map_left_iff, List.forall₂_same]
  exact fun _ _ => rfl

theorem Document.settle_texts (names : List String) :
    (Document.list .settled (names.map .text)).settle = .ok (.list .settled (names.map .text)) := by
  refine settle_list fun d hd => ?_
  obtain ⟨name, -, rfl⟩ := List.mem_map.mp hd
  rfl

theorem Document.isJson_texts (names : List String) :
    (Document.list .settled (names.map .text)).IsJson := by
  refine ⟨trivial, ?_⟩
  induction names with
  | nil => trivial
  | cons name names ih => exact ⟨trivial, ih⟩

namespace DeviceRef

/-- The record of inputs, lights and groups. -/
def groupedDocument (inputs : List DeviceRef) (lights groups : List String) : Document :=
  .object [("inputs", .list .settled ((inputs.map text).map .text)),
    ("lights", .list .settled (lights.map .text)), ("groups", .list .settled (groups.map .text))]

/-- The list of the texts of inputs, lights and groups. -/
def flatDocument (inputs : List DeviceRef) (lights groups : List String) : Document :=
  .list .settled ((inputs.map text ++ lights.map ("light:" ++ ·)
    ++ groups.map ("group:" ++ ·)).map .text)

/-! ### The list -/

theorem listDocument_eq (refs : List DeviceRef) :
    listDocument refs = .list .settled ((refs.map text).map .text) := by
  rw [List.map_map]
  rfl

/-- A list of references is read reference by reference. -/
theorem asList_listDocument {refs refs' : List DeviceRef} :
    asList ofDocument (listDocument refs) = .ok refs' ↔
      (∀ r ∈ refs, r.Legible) ∧ refs' = refs.map tidy := by
  show (refs.map fun r => Document.text r.text).mapM ofDocument = .ok refs' ↔ _
  have hread : ∀ r r' : DeviceRef, ofDocument (.text r.text) = .ok r' ↔ r.Legible ∧ r' = r.tidy :=
    fun r r' => read_text_iff
  rw [mapM_eq_ok_iff, List.forall₂_map_left_iff]
  simp only [hread]
  induction refs generalizing refs' with
  | nil => simp
  | cons r refs ih =>
    rw [List.forall₂_cons_left_iff]
    simp only [ih, List.forall_mem_cons, List.map_cons]
    constructor
    · rintro ⟨_, _, ⟨hr, rfl⟩, ⟨hrefs, rfl⟩, rfl⟩
      exact ⟨⟨hr, hrefs⟩, rfl⟩
    · rintro ⟨⟨hr, hrefs⟩, rfl⟩
      exact ⟨_, _, ⟨hr, rfl⟩, ⟨hrefs, rfl⟩, rfl⟩

theorem settle_listDocument (refs : List DeviceRef) :
    (listDocument refs).settle = .ok (listDocument refs) := by
  rw [listDocument_eq]
  exact settle_texts _

/-- A text that is no reference is no list of inputs either. -/
theorem read_inputs_text {s : String} (h : (ofDocument (.text s)).toOption = none) :
    (devicesFormat.read .inputs (.text s)).toOption = none := by
  show (some <$> firstFit [fun d => return [← ofDocument d], asList ofDocument]
    (.text s)).toOption = none
  rw [toOption_map, firstFit_of_settle _ rfl, List.findSome?_cons, toOption_bind, h]
  rfl

theorem asList_singleton (r : DeviceRef) :
    (asList ofDocument (listDocument [r])).toOption
      = (ofDocument (.text r.text)).toOption.map ([·]) := by
  show ([Document.text r.text].mapM ofDocument).toOption = _
  rw [List.mapM_cons]
  cases ofDocument (.text r.text) <;> rfl

/-- A list of references that is refused is no record of groups either. -/
theorem table_listDocument {refs : List DeviceRef}
    (h : (asList ofDocument (listDocument refs)).toOption = none) :
    (devicesFormat.table (listDocument refs)).toOption = none := by
  cases refs with
  | nil => cases h
  | cons r refs =>
    show (devicesFormat.read .inputs (.text r.text) >>= fun inputs =>
      devicesFormat.readItems .wrongLength (devicesFormat.noField.insert .inputs inputs)
        [.lights, .groups] (refs.map fun r => .text r.text)).toOption = none
    rw [toOption_bind]
    cases refs with
    | nil =>
      -- the one text that there is stands for the inputs, and is no reference
      rw [asList_singleton, Option.map_eq_none_iff] at h
      rw [read_inputs_text h]
      rfl
    | cons r' refs =>
      -- the second text stands for the lights, and a text is no list
      cases (devicesFormat.read .inputs (.text r.text)).toOption <;> rfl

/-- **A list is read as the tidy references**, if all of them can be read. -/
theorem listOfDocument_listDocument {refs refs' : List DeviceRef} :
    listOfDocument (listDocument refs) = .ok refs' ↔
      (∀ r ∈ refs, r.Legible) ∧ refs' = refs.map tidy := by
  rw [← asList_listDocument, listOfDocument, bind_eq_ok]
  simp only [firstFit_pair_eq_ok_iff (settle_listDocument refs)]
  cases hlist : asList ofDocument (listDocument refs) with
  | ok found =>
    constructor
    · rintro ⟨choice, hchoice | ⟨hnone, -⟩, h⟩
      · cases hchoice
        exact h
      · cases hnone
    · intro h
      exact ⟨.inl found, .inl rfl, h⟩
  | error e =>
    have htable : (devicesFormat.table (listDocument refs)).toOption = none :=
      table_listDocument (by rw [hlist]; rfl)
    constructor
    · rintro ⟨choice, hchoice | ⟨-, hchoice⟩, h⟩
      · cases hchoice
      · obtain ⟨t, ht, -⟩ := bind_eq_ok.mp hchoice
        rw [ht] at htable
        cases htable
    · intro h
      cases h

/-! ### The record -/

/-- A list of inputs is no single reference. -/
theorem read_inputs {refs : List DeviceRef} {inputs : Option (List DeviceRef)} :
    devicesFormat.read .inputs (listDocument refs) = .ok inputs ↔
      (∀ r ∈ refs, r.Legible) ∧ inputs = some (refs.map tidy) := by
  show (some <$> firstFit [fun d => return [← ofDocument d], asList ofDocument] (listDocument refs))
    = .ok inputs ↔ _
  have hfit : ∀ refs', firstFit [fun d => return [← ofDocument d], asList ofDocument]
      (listDocument refs) = .ok refs' ↔ (∀ r ∈ refs, r.Legible) ∧ refs' = refs.map tidy := by
    intro refs'
    rw [firstFit_pair_eq_ok_iff (settle_listDocument refs), asList_listDocument]
    exact ⟨fun h => h.elim nofun And.right, fun h => .inr ⟨rfl, h⟩⟩
  rw [← bind_pure_comp, bind_eq_ok]
  simp only [hfit]
  constructor
  · rintro ⟨_, ⟨hrefs, rfl⟩, h⟩
    exact ⟨hrefs, (Except.ok.inj h).symm⟩
  · rintro ⟨hrefs, rfl⟩
    exact ⟨_, ⟨hrefs, rfl⟩, rfl⟩

/-- The fields of the record are read one after the other. -/
theorem table_object (i l g : Document) :
    devicesFormat.table (.object [("inputs", i), ("lights", l), ("groups", g)]) = (do
      let inputs ← devicesFormat.read .inputs i
      let lights ← devicesFormat.read .lights l
      let groups ← devicesFormat.read .groups g
      return ((devicesFormat.noField.insert .inputs inputs).insert .lights lights).insert
        .groups groups) := by
  have hentries : devicesFormat.readEntries .settled devicesFormat.noField
      [(.text "inputs", i), (.text "lights", l), (.text "groups", g)] = (do
        let inputs ← devicesFormat.read .inputs i
        let lights ← devicesFormat.read .lights l
        let groups ← devicesFormat.read .groups g
        return ((devicesFormat.noField.insert .inputs inputs).insert .lights lights).insert
          .groups groups) := rfl
  show (devicesFormat.readEntries .settled devicesFormat.noField
      [(.text "inputs", i), (.text "lights", l), (.text "groups", g)] >>= devicesFormat.complete) = _
  rw [hentries]
  cases devicesFormat.read .inputs i with
  | error e => rfl
  | ok inputs =>
    cases devicesFormat.read .lights l with
    | error e => rfl
    | ok lights => cases devicesFormat.read .groups g <;> rfl

/-- The table of a record of groups. -/
def groupsTable (inputs : List DeviceRef) (lights groups : List String) : devicesFormat.Table
  | .inputs => some (some inputs)
  | .lights => some lights
  | .groups => some groups

theorem table_groupedDocument {inputs : List DeviceRef} {lights groups : List String}
    {t : devicesFormat.Table} :
    devicesFormat.table (groupedDocument inputs lights groups) = .ok t ↔
      (∀ r ∈ inputs, r.Legible) ∧ t = groupsTable (inputs.map tidy) lights groups := by
  have hlights : devicesFormat.read .lights (.list .settled (lights.map .text)) = .ok lights :=
    asList_texts lights
  have hgroups : devicesFormat.read .groups (.list .settled (groups.map .text)) = .ok groups :=
    asList_texts groups
  have htable : ∀ found : List DeviceRef,
      ((devicesFormat.noField.insert .inputs (some found)).insert .lights lights).insert
        .groups groups = groupsTable found lights groups := by
    intro found
    funext f
    cases f <;> rfl
  rw [groupedDocument, ← listDocument_eq, table_object]
  constructor
  · intro h
    obtain ⟨found, hfound, h⟩ := bind_eq_ok.mp h
    obtain ⟨l, hl, h⟩ := bind_eq_ok.mp h
    obtain ⟨g, hg, h⟩ := bind_eq_ok.mp h
    obtain rfl : lights = l := Except.ok.inj (hlights.symm.trans hl)
    obtain rfl : groups = g := Except.ok.inj (hgroups.symm.trans hg)
    obtain ⟨hinputs, rfl⟩ := read_inputs.mp hfound
    exact ⟨hinputs, (Except.ok.inj h).symm.trans (htable _)⟩
  · rintro ⟨hinputs, rfl⟩
    exact bind_eq_ok.mpr ⟨_, read_inputs.mpr ⟨hinputs, rfl⟩, bind_eq_ok.mpr
      ⟨_, hlights, bind_eq_ok.mpr ⟨_, hgroups, congrArg Except.ok (htable _)⟩⟩⟩

theorem settle_groupedDocument (inputs : List DeviceRef) (lights groups : List String) :
    (groupedDocument inputs lights groups).settle = .ok (groupedDocument inputs lights groups) := by
  refine settle_record fun e he => ?_
  simp only [List.map_cons, List.map_nil, List.mem_cons, List.not_mem_nil, or_false] at he
  rcases he with rfl | rfl | rfl <;> exact ⟨rfl, settle_texts _⟩

theorem isJson_groupedDocument (inputs : List DeviceRef) (lights groups : List String) :
    (groupedDocument inputs lights groups).IsJson :=
  ⟨trivial, ⟨_, rfl⟩, isJson_texts _, ⟨_, rfl⟩, isJson_texts _, ⟨_, rfl⟩, isJson_texts _, trivial⟩

theorem tidy_of_isInput {r : DeviceRef} (h : r.isInput) : r.tidy = r := by
  cases r with
  | light | group => cases h
  | input | allInputs => rfl

theorem map_tidy_inputs {inputs : List DeviceRef} (h : ∀ r ∈ inputs, r.isInput) :
    inputs.map tidy = inputs :=
  (List.map_congr_left fun r hr => tidy_of_isInput (h r hr)).trans (List.map_id _)

/-- **A record is read as its inputs, and the names as they stand**, if all inputs can be read. -/
theorem listOfDocument_groupedDocument {inputs refs : List DeviceRef} {lights groups : List String}
    (h : ∀ r ∈ inputs, r.isInput) :
    listOfDocument (groupedDocument inputs lights groups) = .ok refs ↔
      (∀ r ∈ inputs, r.Legible) ∧ refs = inputs ++ lights.map light ++ groups.map group := by
  have htidy := map_tidy_inputs h
  have hgroups : ofGroups inputs lights groups
      = .ok (inputs ++ lights.map light ++ groups.map group) := if_pos (List.all_eq_true.mpr h)
  rw [listOfDocument, bind_eq_ok]
  simp only [firstFit_pair_eq_ok_iff (settle_groupedDocument inputs lights groups)]
  constructor
  · rintro ⟨choice, hchoice | ⟨-, hchoice⟩, hrefs⟩
    · cases hchoice
    · obtain ⟨t, ht, hchoice⟩ := bind_eq_ok.mp hchoice
      obtain ⟨hinputs, rfl⟩ := table_groupedDocument.mp ht
      cases hchoice
      have hof : ofGroups (inputs.map tidy) lights groups = .ok refs := hrefs
      rw [htidy, hgroups] at hof
      exact ⟨hinputs, (Except.ok.inj hof).symm⟩
  · rintro ⟨hinputs, rfl⟩
    refine ⟨.inr (groupsTable (inputs.map tidy) lights groups), .inr ⟨rfl, ?_⟩, ?_⟩
    · exact bind_eq_ok.mpr ⟨_, table_groupedDocument.mpr ⟨hinputs, rfl⟩, rfl⟩
    · show ofGroups (inputs.map tidy) lights groups = _
      rw [htidy, hgroups]

/-! ### Both forms -/

section Both

variable {inputs : List DeviceRef} {lights groups : List String}

theorem flatDocument_eq : flatDocument inputs lights groups
    = listDocument (inputs ++ lights.map light ++ groups.map group) := by
  have htexts : (inputs ++ lights.map light ++ groups.map group).map text
      = inputs.map text ++ lights.map ("light:" ++ ·) ++ groups.map ("group:" ++ ·) := by
    rw [List.map_append, List.map_append, List.map_map, List.map_map]
    rfl
  rw [listDocument_eq, htexts, flatDocument]

theorem forall_legible : (∀ r ∈ inputs ++ lights.map light ++ groups.map group, r.Legible) ↔
    (∀ r ∈ inputs, r.Legible) ∧ ∀ name ∈ lights ++ groups, trimmed name ≠ "" := by
  simp only [List.forall_mem_append, List.forall_mem_map, and_assoc]
  rfl

theorem map_tidy (hinputs : ∀ r ∈ inputs, r.isInput) :
    (inputs ++ lights.map light ++ groups.map group).map tidy
      = inputs ++ lights.map (fun name => .light (trimmed name))
        ++ groups.map fun name => .group (trimmed name) := by
  rw [List.map_append, List.map_append, List.map_map, List.map_map, map_tidy_inputs hinputs]
  rfl

/-- The texts of all references are read back if the inputs are read and the names are bare. -/
theorem forall_writable (hinputs : ∀ r ∈ inputs, r.isInput) :
    (∀ r ∈ inputs ++ lights.map light ++ groups.map group, r.Writable) ↔
      (∀ r ∈ inputs, r.Legible) ∧ ∀ name ∈ lights ++ groups, Bare name := by
  have hinput : ∀ r ∈ inputs, r.Writable ↔ r.Legible := fun r hr =>
    writable_iff.trans (and_iff_left (tidy_of_isInput (hinputs r hr)))
  simp only [List.forall_mem_append, List.forall_mem_map, and_assoc, forall₂_congr hinput, bare_iff]
  rfl

/-- A record whose keys stand in any order is read like the one in which they are in order. -/
theorem listOfDocument_of_record (hinputs : ∀ r ∈ inputs, r.isInput) {record grouped : Document}
    (hrecord : Reordered (groupedDocument inputs lights groups) record)
    (hgrouped : grouped.settle = .ok record) {refs : List DeviceRef} :
    listOfDocument grouped = .ok refs ↔
      (∀ r ∈ inputs, r.Legible) ∧ refs = inputs ++ lights.map light ++ groups.map group := by
  have hsettled : listOfDocument grouped = listOfDocument record := by
    rw [listOfDocument, firstFit_settle _ hgrouped, ← listOfDocument]
  rw [hsettled, ← listOfDocument_groupedDocument hinputs, ← toOption_eq_some, ← toOption_eq_some,
    orderless_listOfDocument (isJson_groupedDocument inputs lights groups) hrecord]

theorem listOfDocument_of_list {flat : Document}
    (hflat : flat.settle = .ok (flatDocument inputs lights groups)) {refs : List DeviceRef} :
    listOfDocument flat = .ok refs ↔
      (∀ r ∈ inputs ++ lights.map light ++ groups.map group, r.Legible) ∧
        refs = (inputs ++ lights.map light ++ groups.map group).map tidy := by
  rw [← listOfDocument_listDocument, ← flatDocument_eq, listOfDocument, firstFit_settle _ hflat,
    ← listOfDocument]

/-- The references that texts were written from are those that are read, just when all of them are
writable. -/
theorem forall_writable_of_same {refs : List DeviceRef} {p : Prop}
    (hp : (∀ r ∈ refs, r.Legible) → p) :
    (∀ found, p ∧ found = refs ↔ (∀ r ∈ refs, r.Legible) ∧ found = refs.map tidy) ↔
      (p → ∀ r ∈ refs, r.Writable) := by
  constructor
  · -- the references themselves are then read, so they are tidy
    intro hsame hholds r hr
    obtain ⟨hlegible, hrefs⟩ := (hsame refs).mp ⟨hholds, rfl⟩
    exact writable_iff.mpr
      ⟨hlegible r hr, List.map_inj_left.mp (hrefs.symm.trans (List.map_id _).symm) r hr⟩
  · intro hwritable found
    by_cases hholds : p
    · have hrefs : refs.map tidy = refs :=
        (List.map_congr_left fun r hr => (writable_iff.mp (hwritable hholds r hr)).2).trans
          (List.map_id _)
      rw [hrefs]
      exact and_congr_left fun _ =>
        iff_of_true hholds fun r hr => (writable_iff.mp (hwritable hholds r hr)).1
    · exact iff_of_false (fun h => hholds h.1) fun h => hholds (hp h.1)

/-- **Grouped devices and the list of their texts.**  If all inputs can be read, the record is read
as the inputs, lights and groups as they stand, in whatever order its keys are given.  The list is
read if no name is all blank besides, and loses the blanks around names.  So unless an input is
refused, the forms agree just when every name is bare. -/
theorem groups_as_list (hinputs : ∀ r ∈ inputs, r.isInput) {record grouped flat : Document}
    (hrecord : Reordered (groupedDocument inputs lights groups) record)
    (hgrouped : grouped.settle = .ok record)
    (hflat : flat.settle = .ok (flatDocument inputs lights groups)) :
    (∀ refs, listOfDocument grouped = .ok refs ↔
      (∀ r ∈ inputs, r.Legible) ∧ refs = inputs ++ lights.map light ++ groups.map group) ∧
    (∀ refs, listOfDocument flat = .ok refs ↔
      ((∀ r ∈ inputs, r.Legible) ∧ ∀ name ∈ lights ++ groups, trimmed name ≠ "") ∧
        refs = inputs ++ lights.map (fun name => .light (trimmed name))
          ++ groups.map fun name => .group (trimmed name)) ∧
    ((∀ refs, listOfDocument grouped = .ok refs ↔ listOfDocument flat = .ok refs) ↔
      ((∀ r ∈ inputs, r.Legible) → ∀ name ∈ lights ++ groups, Bare name)) := by
  refine ⟨fun refs => listOfDocument_of_record hinputs hrecord hgrouped, fun refs => ?_, ?_⟩
  · rw [listOfDocument_of_list hflat, forall_legible, map_tidy hinputs]
  · simp only [listOfDocument_of_record hinputs hrecord hgrouped, listOfDocument_of_list hflat]
    rw [forall_writable_of_same fun h => (forall_legible.mp h).1, forall_writable hinputs]
    exact forall_congr' fun hlegible => and_iff_right hlegible

end Both

/-- Devices in groups, the lights first. -/
def mixedDevices : Document :=
  .record .json [(.text "lights", .list .json [.text "Desk", .text " 7"]),
    (.text "inputs", .list .json [.text "$2", .text "$all"]),
    (.text "groups", .list .json [.text "Hall"])]

/-- A name with a blank is another name in the list. -/
theorem mixedDevices_as_list :
    listOfDocument mixedDevices
        = .ok [.input 2, .allInputs, .light "Desk", .light " 7", .group "Hall"] ∧
      listOfDocument (flatDocument [.input 2, .allInputs] ["Desk", " 7"] ["Hall"])
        = .ok [.input 2, .allInputs, .light "Desk", .light "7", .group "Hall"] := by
  have hinputs : ∀ r ∈ [DeviceRef.input 2, .allInputs], r.isInput := by decide
  have hlegible : ∀ r ∈ [DeviceRef.input 2, .allInputs], r.Legible := by
    simp [Legible, UInt64.size]
  have hgrouped : mixedDevices.settle = .ok (.record .settled
      [(.text "lights", .list .settled [.text "Desk", .text " 7"]),
        (.text "inputs", .list .settled [.text "$2", .text "$all"]),
        (.text "groups", .list .settled [.text "Hall"])]) := by rfl
  have hflat : (flatDocument [.input 2, .allInputs] ["Desk", " 7"] ["Hall"]).settle
      = .ok (flatDocument [.input 2, .allInputs] ["Desk", " 7"] ["Hall"]) := settle_texts _
  have hboth := groups_as_list hinputs (.record .settled (.refl _) (.swap _ _ _)) hgrouped hflat
  exact ⟨(hboth.1 _).mpr ⟨hlegible, rfl⟩, (hboth.2.1 _).mpr ⟨⟨hlegible, by decide⟩, by rfl⟩⟩

/-- A light without a name is accepted in a group, though a text cannot name it. -/
theorem nameless_light_grouped :
    ¬∀ inputs lights groups, (∀ r ∈ inputs, r.isInput) →
      ∀ refs, listOfDocument (groupedDocument inputs lights groups) = .ok refs →
        listOfDocument (flatDocument inputs lights groups) = .ok refs := by
  intro h
  have hflat := h [] [""] [] (fun r hr => absurd hr List.not_mem_nil) [.light ""] (by rfl)
  cases hflat

end DeviceRef

end Lightshow
