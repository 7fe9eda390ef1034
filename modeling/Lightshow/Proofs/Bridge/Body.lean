import Lightshow.Bridge.Gateway
import Lightshow.Document.Value
import Lightshow.Proofs.Number.Binary
import Lightshow.Proofs.Reading.Settings
import Lightshow.Proofs.State.JsonValue

/-!
# What a bridge is told about a state

A state has nine fields and a bridge is told of eight.  A brightness goes under one of two names,
two ways to give a colour temperature share one, and so do two ways to give a fade.  Each name has
a value of its own, or none, and the record is the table of these values.  So two records are equal
just if the values under each name are, and what is told can be compared name by name.

Values may be compared as they are, or as numbers are compared, where zero equals negative zero.
Both come to the same for states as long as their colours are compared in the same way.

## Main definitions

* `BodyField`, `BodyField.entries` — the names, and the entries of a table.
* `DeviceState.told` — what a state tells under each name.
* `DeviceState.sets` — the names under which a state has something to tell.
* `DeviceState.Agrees` — two states ask for the same.

## Main results

* `BodyField.field?_entries`, `BodyField.same_entries_iff` — tables are told apart by their entries.
* `DeviceState.told_agree_iff` — what is told is the same if the states ask for the same.
* `DeviceState.body_exactly` — **a bridge is told all that a state asks for, and nothing else.**
-/

namespace Lightshow

/-! ### Equal values -/

namespace Document

@[simp] theorem same_bool {a b : Bool} : same (bool a) (bool b) = true ↔ a = b := by
  simp [same]

@[simp] theorem same_int {m n : Int} : same (int m) (int n) = true ↔ m = n := by
  rw [same]
  exact decide_eq_true_iff

@[simp] theorem same_text {s t : String} : same (text s) (text t) = true ↔ s = t := by
  simp [same]

theorem same_pairDocument {p q : Float × Float} :
    same (pairDocument p) (pairDocument q) = true
      ↔ sameFloat p.1 q.1 = true ∧ sameFloat p.2 q.2 = true := by
  simp [pairDocument, same, sameItems]

/-- All entries of a first record are in a second one. -/
theorem sameEntries_iff {xs ys : List (Document × Document)} : sameEntries xs ys = true ↔
    ∀ e ∈ xs, ∃ e' ∈ ys, same e.1 e'.1 = true ∧ same e.2 e'.2 = true := by
  induction xs with
  | nil => simp [sameEntries]
  | cons e xs ih =>
    rw [sameEntries, Bool.and_eq_true, ih, List.forall_mem_cons, List.any_eq_true]
    simp only [Bool.and_eq_true]

end Document

/-! ### Tables -/

/-- What is there on the left is related to what is there on the right, and nothing is there on the
right only. -/
theorem rel_iff {α β : Type} {R : α → β → Prop} {x : Option α} {y : Option β} : Option.Rel R x y ↔
    (∀ a, x = some a → ∃ b, y = some b ∧ R a b) ∧ (y.isSome = true → x.isSome = true) := by
  cases x <;> cases y <;> simp

theorem rel_eq_iff {α : Type} {x y : Option α} : Option.Rel (· = ·) x y ↔ x = y := by
  cases x <;> cases y <;> simp

/-- The names under which a bridge is told of a state. -/
inductive BodyField where
  | on
  | level
  | step
  | hue
  | sat
  | xy
  | ct
  | fade
  deriving DecidableEq, Repr

namespace BodyField

open Document

/-- All names, in their order. -/
def all : List BodyField := [.on, .level, .step, .hue, .sat, .xy, .ct, .fade]

/-- How a name is written. -/
def name : BodyField → String
  | .on => "on"
  | .level => "bri"
  | .step => "bri_inc"
  | .hue => "hue"
  | .sat => "sat"
  | .xy => "xy"
  | .ct => "ct"
  | .fade => "transitiontime"

theorem mem_all (f : BodyField) : f ∈ all := by cases f <;> decide

theorem name_injective {f g : BodyField} (h : f.name = g.name) : f = g := by
  revert h
  cases f <;> cases g <;> decide

/-- The entries of a table. -/
def entries (t : BodyField → Option Document) : List (Document × Document) :=
  all.filterMap fun f => (t f).map fun d => (text f.name, d)

variable {t t' : BodyField → Option Document}

theorem mem_entries {e : Document × Document} :
    e ∈ entries t ↔ ∃ f d, t f = some d ∧ e = (text f.name, d) := by
  unfold entries
  rw [List.mem_filterMap]
  constructor
  · rintro ⟨f, -, he⟩
    obtain ⟨d, hd, rfl⟩ := Option.map_eq_some_iff.mp he
    exact ⟨f, d, hd, rfl⟩
  · rintro ⟨f, d, hd, rfl⟩
    exact ⟨f, mem_all f, by rw [hd, Option.map_some]⟩

theorem map_fst_entries (t : BodyField → Option Document) :
    (entries t).map Prod.fst = (all.filter fun f => (t f).isSome).map fun f => text f.name := by
  unfold entries
  induction all with
  | nil => rfl
  | cons f fs ih =>
    cases hf : t f with
    | none => simpa [hf] using ih
    | some d => simpa [hf] using ih

/-- **A table is found again in its entries.** -/
theorem field?_entries (t : BodyField → Option Document) (f : BodyField) :
    Response.field? f.name (record .settled (entries t)) = t f := by
  have hfind : (entries t).reverse.find? (fun e => Response.isKey f.name e.1)
      = (t f).map fun d => (text f.name, d) := by
    unfold entries
    rw [← List.filterMap_reverse]
    refine find?_filterMap (List.mem_reverse.mpr (mem_all f)) fun g e he => ?_
    obtain ⟨d, -, rfl⟩ := Option.map_eq_some_iff.mp he
    rw [Response.isKey, decide_eq_true_iff]
    exact ⟨name_injective, congrArg name⟩
  rw [Response.field?, hfind, Option.map_map]
  exact Option.map_id'

/-- A table holds the entries of another one just if it has the same values at least. -/
theorem sameEntries_entries_iff : sameEntries (entries t) (entries t') = true ↔
    ∀ f d, t f = some d → ∃ d', t' f = some d' ∧ same d d' = true := by
  rw [sameEntries_iff]
  constructor
  · intro h f d hd
    obtain ⟨e', he', hkey, hsame⟩ := h _ (mem_entries.mpr ⟨f, d, hd, rfl⟩)
    obtain ⟨g, d', hd', rfl⟩ := mem_entries.mp he'
    obtain rfl := name_injective (same_text.mp hkey)
    exact ⟨d', hd', hsame⟩
  · intro h e he
    obtain ⟨f, d, hd, rfl⟩ := mem_entries.mp he
    obtain ⟨d', hd', hsame⟩ := h f d hd
    exact ⟨_, mem_entries.mpr ⟨f, d', hd', rfl⟩, same_text.mpr rfl, hsame⟩

/-- **Records of tables are equal just if the values under each name are.** -/
theorem same_entries_iff :
    same (record .settled (entries t)) (record .settled (entries t')) = true ↔
      ∀ f, Option.Rel (fun d d' => same d d' = true) (t f) (t' f) := by
  have hlength : ∀ t : BodyField → Option Document,
      (entries t).length = (all.filter fun f => (t f).isSome).length := by
    intro t
    rw [← List.length_map Prod.fst, map_fst_entries, List.length_map]
  rw [same, Bool.and_eq_true, decide_eq_true_iff, sameEntries_entries_iff, hlength, hlength]
  simp only [rel_iff]
  constructor
  · rintro ⟨hlen, h⟩ f
    -- no name is left over, since there are as many on both sides
    have hsub : (all.filter fun f => (t f).isSome).Sublist (all.filter fun f => (t' f).isSome) := by
      apply List.monotone_filter_right
      intro g hg
      obtain ⟨d, hd⟩ := Option.isSome_iff_exists.mp hg
      obtain ⟨d', hd', -⟩ := h g d hd
      exact Option.isSome_iff_exists.mpr ⟨d', hd'⟩
    refine ⟨h f, fun hsome => ?_⟩
    have hmem : f ∈ all.filter fun f => (t' f).isSome := List.mem_filter.mpr ⟨mem_all f, hsome⟩
    rw [← hsub.eq_of_length hlen] at hmem
    exact (List.mem_filter.mp hmem).2
  · intro h
    refine ⟨?_, fun f => (h f).1⟩
    congr 2
    funext f
    rw [Bool.eq_iff_iff]
    refine ⟨fun hsome => ?_, (h f).2⟩
    obtain ⟨d, hd⟩ := Option.isSome_iff_exists.mp hsome
    obtain ⟨d', hd', -⟩ := (h f).1 d hd
    exact Option.isSome_iff_exists.mpr ⟨d', hd'⟩

end BodyField

/-! ### States -/

/-- Whether a brightness is a level. -/
def Brightness.isLevel : Brightness → Bool
  | .level _ => true
  | .step _ => false

namespace DeviceState

open Document

/-- What a state tells under each name. -/
def told (s : DeviceState) : BodyField → Option Document
  | .on => s.on.map bool
  | .level => (s.bri.filter Brightness.isLevel).map fun b => int b.bodyValue
  | .step => (s.bri.filter fun b => !b.isLevel).map fun b => int b.bodyValue
  | .hue => s.hue.map fun n => int n.toNat
  | .sat => s.sat.map fun n => int n.toNat
  | .xy => s.xy.map pairDocument
  | .ct => s.mireds.map fun n : ℕ => int n
  | .fade => some (int s.fade)

/-- The names under which a state has something to tell. -/
def sets (s : DeviceState) : BodyField → Bool
  | .on => s.on.isSome
  | .level => s.bri.any Brightness.isLevel
  | .step => s.bri.any fun b => !b.isLevel
  | .hue => s.hue.isSome
  | .sat => s.sat.isSome
  | .xy => s.xy.isSome
  | .ct => s.ct.isSome || s.ctk.isSome
  | .fade => true

/-- The record for a state is the table of what it tells. -/
theorem body_eq (s : DeviceState) : s.body = record .settled (BodyField.entries s.told) := by
  have hbri : brightnessEntry s.bri
      = ((s.told .level).map fun d => (text BodyField.level.name, d)).toList
        ++ ((s.told .step).map fun d => (text BodyField.step.name, d)).toList := by
    unfold brightnessEntry told
    cases s.bri with
    | none => rfl
    | some b => cases b <;> rfl
  have hct : fieldEntry "ct" (fun n => int n) s.mireds
      = ((s.told .ct).map fun d => (text BodyField.ct.name, d)).toList := by
    unfold fieldEntry told
    cases s.mireds <;> rfl
  have hentry : ∀ {α : Type} (name : String) (write : α → Document) (o : Option α),
      fieldEntry name write o = ((o.map write).map fun d => (text name, d)).toList := by
    intro α name write o
    cases o <;> rfl
  unfold body BodyField.entries BodyField.all
  rw [List.filterMap_eq_flatMap_toList, hbri, hct]
  simp only [hentry, List.append_assoc, List.flatMap_cons, List.flatMap_nil, List.append_nil]
  rfl

/-- What a state tells under a name is found there. -/
theorem field?_name_body (s : DeviceState) (f : BodyField) :
    Response.field? f.name s.body = s.told f := by
  rw [body_eq, BodyField.field?_entries]

/-- Two states ask for the same, if their colours are compared by `R`. -/
structure Agrees (R : Float × Float → Float × Float → Prop) (s s' : DeviceState) : Prop where
  on : s.on = s'.on
  bri : s.bri = s'.bri
  hue : s.hue = s'.hue
  sat : s.sat = s'.sat
  xy : Option.Rel R s.xy s'.xy
  mireds : s.mireds = s'.mireds
  fade : s.fade = s'.fade

section Agreement

variable {S : Document → Document → Prop} {R : Float × Float → Float × Float → Prop}
  {s s' : DeviceState}

/-- Values that are told apart are told apart in the same way by what is told of them. -/
theorem rel_map_iff {α : Type} {f : α → Document} (hf : ∀ a b, S (f a) (f b) ↔ a = b)
    {x y : Option α} : Option.Rel S (x.map f) (y.map f) ↔ x = y := by
  cases x <;> cases y <;> simp [hf]

theorem rel_bri_iff (hint : ∀ m n, S (int m) (int n) ↔ m = n) :
    Option.Rel S (s.told .level) (s'.told .level) ∧ Option.Rel S (s.told .step) (s'.told .step)
      ↔ s.bri = s'.bri := by
  unfold told
  cases s.bri with
  | none =>
    cases s'.bri with
    | none => simp
    | some b => cases b <;> simp [Option.filter, Brightness.isLevel]
  | some a =>
    cases s'.bri with
    | none => cases a <;> simp [Option.filter, Brightness.isLevel]
    | some b =>
      cases a <;> cases b <;>
        simp [Option.filter, Brightness.isLevel, Brightness.bodyValue, hint, UInt8.toNat_inj]

/-- **What is told is the same if the states ask for the same**, provided that truth values and
numbers are told apart and colours are compared alike. -/
theorem told_agree_iff (hbool : ∀ a b, S (bool a) (bool b) ↔ a = b)
    (hint : ∀ m n, S (int m) (int n) ↔ m = n)
    (hpair : ∀ p ∈ s.xy, ∀ q ∈ s'.xy, S (pairDocument p) (pairDocument q) ↔ R p q) :
    (∀ f, Option.Rel S (s.told f) (s'.told f)) ↔ s.Agrees R s' := by
  have hxy : Option.Rel S (s.told .xy) (s'.told .xy) ↔ Option.Rel R s.xy s'.xy := by
    unfold told
    cases hp : s.xy <;> cases hq : s'.xy <;> simp
    exact hpair _ hp _ hq
  have hon : Option.Rel S (s.told .on) (s'.told .on) ↔ s.on = s'.on := rel_map_iff hbool
  have hhue : Option.Rel S (s.told .hue) (s'.told .hue) ↔ s.hue = s'.hue :=
    rel_map_iff fun a b => by simp [hint, UInt16.toNat_inj]
  have hsat : Option.Rel S (s.told .sat) (s'.told .sat) ↔ s.sat = s'.sat :=
    rel_map_iff fun a b => by simp [hint, UInt8.toNat_inj]
  have hct : Option.Rel S (s.told .ct) (s'.told .ct) ↔ s.mireds = s'.mireds :=
    rel_map_iff fun (a b : ℕ) => (hint a b).trans Int.ofNat_inj
  have hfade : Option.Rel S (s.told .fade) (s'.told .fade) ↔ s.fade = s'.fade := by
    simp [told, hint]
  constructor
  · intro h
    exact ⟨hon.mp (h .on), (rel_bri_iff hint).mp ⟨h .level, h .step⟩, hhue.mp (h .hue),
      hsat.mp (h .sat), hxy.mp (h .xy), hct.mp (h .ct), hfade.mp (h .fade)⟩
  · intro h f
    cases f with
    | on => exact hon.mpr h.on
    | level => exact ((rel_bri_iff hint).mpr h.bri).1
    | step => exact ((rel_bri_iff hint).mpr h.bri).2
    | hue => exact hhue.mpr h.hue
    | sat => exact hsat.mpr h.sat
    | xy => exact hxy.mpr h.xy
    | ct => exact hct.mpr h.mireds
    | fade => exact hfade.mpr h.fade

end Agreement

/-! ### Valid states -/

section Valid

variable {s s' : DeviceState}

/-- The floats of a valid state are finite. -/
theorem WellFormed.finite (h : s.WellFormed) : s.Finite := by
  refine ⟨fun p hp => ?_, fun x hx => (h.1 x hx).1⟩
  obtain ⟨hx, hy⟩ := h.2.1 p hp
  have hzero : (0 : Float).isFinite = true := by decide
  have hone : (1 : Float).isFinite = true := by decide
  exact ⟨isFinite_of_le_of_le hzero hone hx.1 hx.2, isFinite_of_le_of_le hzero hone hy.1 hy.2⟩

/-- A valid state has something to tell under a name just if it sets what the name is for. -/
theorem WellFormed.isSome_told (h : s.WellFormed) (f : BodyField) :
    (s.told f).isSome = s.sets f := by
  cases f with
  | level | step =>
    unfold told sets
    cases s.bri with
    | none => rfl
    | some b => cases b <;> rfl
  | ct =>
    have hkelvin := h.2.2
    unfold told sets mireds
    cases s.ct with
    | some m => rfl
    | none =>
      cases hk : s.ctk with
      | none => rfl
      | some k =>
        have hpos : k.toNat ≠ 0 := by
          intro hzero
          have hk0 : k = 0 := UInt32.toNat_inj.mp hzero
          rw [hk, hk0] at hkelvin
          exact hkelvin rfl
        simp [miredsOfKelvin, hpos]
  | fade => rfl
  | on | hue | sat | xy => simp [told, sets]

/-- No float is equal to one that is no number, and finite floats are numbers. -/
theorem sameFloat_iff {x y : Float} (hx : x.isFinite = true) : sameFloat x y = true ↔ x == y := by
  have hnan : x.isNaN = false := by
    have hfinite : x.toModel.unpack.isFinite = true := hx
    show x.toModel.unpack.isNaN = false
    cases hu : x.toModel.unpack with
    | notANumber =>
      rw [hu] at hfinite
      cases hfinite
    | _ => rfl
  rw [sameFloat, hnan, Bool.false_and, Bool.or_false]

/-- The record of a valid state is one of JSON. -/
theorem WellFormed.jsonValue_body (h : s.WellFormed) : s.body.jsonValue = s.body := by
  have hleaf : ∀ f d, s.told f = some d → d.jsonValue = d := by
    intro f d hd
    cases f with
    | xy =>
      obtain ⟨p, hp, rfl⟩ := Option.map_eq_some_iff.mp hd
      exact jsonValue_pairDocument (h.finite.1 p hp).1 (h.finite.1 p hp).2
    | fade =>
      cases hd
      rfl
    | on | level | step | hue | sat | ct =>
      obtain ⟨a, -, rfl⟩ := Option.map_eq_some_iff.mp hd
      rfl
  rw [body_eq, Document.jsonValue, BodyField.entries, RecordFormat.jsonEntries_filterMap]
  congr 2
  funext f
  cases hd : s.told f with
  | none => rfl
  | some d => rw [Option.map_some, Option.map_some, hleaf f d hd]

end Valid

/-- **A bridge is told all that a valid state asks for, and nothing else.**  The records for two
states are equal just if the states agree on what is set, whether floats are compared bit by bit or
as numbers.  A record can be held by JSON as it is.  Its names are those under which the state has
something to tell, each once and never both names for a brightness, and the fade is always told: in
tenths of a second it is the span that the run reckons with, and no more than `65535`. -/
theorem body_exactly (s s' : DeviceState) (hs : s.flaw? = none) (hs' : s'.flaw? = none) :
    (s.body = s'.body ↔ s.Agrees (· = ·) s') ∧
    (s.body.same s'.body = true ↔ s.Agrees (fun p q => p.1 == q.1 ∧ p.2 == q.2) s') ∧
    s.body.jsonValue = s.body ∧
    (∃ es, s.body = .record .settled es ∧
      es.map Prod.fst = (BodyField.all.filter s.sets).map fun f => .text f.name) ∧
    ¬(s.sets .level = true ∧ s.sets .step = true) ∧
    ∃ n : ℕ, Response.field? "transitiontime" s.body = some (.int n) ∧
      s.fadeDuration = Duration.millis (n * 100) ∧ n ≤ 65535 := by
  have hwell := (flaw?_eq_none_iff s).mp hs
  have hwell' := (flaw?_eq_none_iff s').mp hs'
  refine ⟨?_, ?_, hwell.jsonValue_body, ⟨_, body_eq s, ?_⟩, ?_,
    s.fade, s.field?_name_body .fade, rfl, s.fade_le⟩
  · have hbodies : s.body = s'.body ↔ ∀ f, Option.Rel (· = ·) (s.told f) (s'.told f) := by
      simp only [rel_eq_iff]
      constructor
      · intro h f
        rw [← field?_name_body, h, field?_name_body]
      · intro h
        rw [body_eq, body_eq, funext h]
    rw [hbodies]
    refine told_agree_iff (fun a b => by simp) (fun m n => by simp) fun p _ q _ => ?_
    simp [pairDocument, Prod.ext_iff]
  · rw [body_eq, body_eq, BodyField.same_entries_iff]
    refine told_agree_iff (fun a b => same_bool) (fun m n => same_int) fun p hp q _ => ?_
    obtain ⟨hx, hy⟩ := hwell.finite.1 p hp
    rw [same_pairDocument, sameFloat_iff hx, sameFloat_iff hy]
  · rw [BodyField.map_fst_entries]
    simp only [hwell.isSome_told]
  · unfold sets
    cases s.bri with
    | none => simp
    | some b => cases b <;> simp [Brightness.isLevel]

/-- A level, a colour, a temperature in kelvin and a fade in seconds. -/
def dusk : DeviceState where
  bri := some (.level 200)
  xy := some (0.0, 0.5)
  ctk := some 2000
  time := some 1.5

/-- The same with a zero of the other sign, in mireds and in tenths of a second. -/
def duskAgain : DeviceState where
  bri := some (.level 200)
  xy := some (-0.0, 0.5)
  ct := some 500
  transitionTime := some 15

theorem dusk_told_twice : dusk.flaw? = none ∧ duskAgain.flaw? = none ∧ dusk ≠ duskAgain ∧
    dusk.body.same duskAgain.body = true ∧ dusk.body ≠ duskAgain.body ∧
    ∃ n : ℕ, Response.field? "transitiontime" dusk.body = some (.int n) ∧
      dusk.fadeDuration = Duration.millis (n * 100) ∧ n ≤ 65535 := by
  have hdusk : dusk.flaw? = none := by decide +kernel
  have hagain : duskAgain.flaw? = none := by decide +kernel
  obtain ⟨hequal, hsame, -, -, -, hfade⟩ := body_exactly dusk duskAgain hdusk hagain
  refine ⟨hdusk, hagain, by decide, hsame.mpr ⟨rfl, rfl, rfl, rfl, .some ?_, ?_, ?_⟩, ?_, hfade⟩
  · decide
  · decide
  · decide +kernel
  · intro hbodies
    have hxy : dusk.xy = duskAgain.xy := rel_eq_iff.mp (hequal.mp hbodies).xy
    revert hxy
    decide

end DeviceState

end Lightshow
