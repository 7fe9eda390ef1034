import Mathlib.Data.List.Basic
import Lightshow.Bridge.Response

/-!
# What the answers of a bridge come to

An answer is judged by its status first, and only the body of an answer that promises success is
read.  There the entries are looked through for errors.  Which error is found first has no say in
what the answer comes to: an error for an unknown user outweighs all others wherever it stands, and
without one any error at all means that the state was refused.  So only the set of errors matters.
Their order is seen in the text of a refusal alone, and entries without an error are seen nowhere.

## Main definitions

* `Response.Kind`, `Response.kind` — what an answer comes to, without what it says.
* `Response.kindOf` — what a body with some errors comes to.
* `Response.Rearranged` — the same entries in another order, but for entries without an error.

## Main results

* `Response.kind_judgeBody` — what a body comes to depends on its errors.
* `Response.kindOf_congr` — **and only on the set of them.**
* `Response.judged_exactly` — **what answers come to.**
-/

namespace Lightshow.Response

/-! ### Entries -/

/-- An entry tells an error. -/
def Tells (e error : Document) : Prop := field? "error" e = some error

/-- An error is that of a user who is not known. -/
def Unknown (error : Document) : Prop := field? "type" error = some (.int 1)

theorem isUnknownUser_iff {error : Document} : isUnknownUser error = true ↔ Unknown error := by
  unfold isUnknownUser Unknown
  cases field? "type" error with
  | none => simp
  | some d =>
    cases d with
    | int n =>
      rw [Option.some.injEq, Document.int.injEq]
      exact decide_eq_true_iff
    | _ => simp

theorem mem_errors {d error : Document} : error ∈ errors d ↔ ∃ e ∈ entries d, Tells e error :=
  List.mem_filterMap

theorem errors_eq_nil_iff {d : Document} :
    errors d = [] ↔ ∀ e ∈ entries d, field? "error" e = none :=
  List.filterMap_eq_nil_iff

/-- The same entries in another order, where entries without an error may be added or removed. -/
def Rearranged (xs ys : List Document) : Prop :=
  ∃ added removed, (∀ e ∈ added ++ removed, field? "error" e = none) ∧
    (xs ++ added).Perm (ys ++ removed)

theorem filterMap_append_of_none {xs added : List Document}
    (h : ∀ e ∈ added, field? "error" e = none) :
    (xs ++ added).filterMap (field? "error") = xs.filterMap (field? "error") := by
  rw [List.filterMap_append, List.filterMap_eq_nil_iff.mpr h, List.append_nil]

/-- Entries that are rearranged tell the same errors, each as often. -/
theorem Rearranged.errors_perm {d d' : Document} (h : Rearranged (entries d) (entries d')) :
    (errors d).Perm (errors d') := by
  obtain ⟨added, removed, hnone, hperm⟩ := h
  obtain ⟨hadded, hremoved⟩ := List.forall_mem_append.mp hnone
  have herrors := hperm.filterMap (field? "error")
  rwa [filterMap_append_of_none hadded, filterMap_append_of_none hremoved] at herrors

/-! ### Bodies -/

/-- What an answer comes to, without what it says. -/
inductive Kind where
  | taken
  | refused
  /-- No device can be served any more. -/
  | fatal
  /-- The answer tells nothing about the state. -/
  | lost
  deriving DecidableEq, Repr

/-- What a judgement comes to. -/
def kind : Except GatewayError Unit → Kind
  | .ok () => .taken
  | .error (.rejected _) => .refused
  | .error cause => if cause.isFatal then .fatal else .lost

theorem eq_ok_iff_kind {r : Except GatewayError Unit} : r = .ok () ↔ kind r = .taken := by
  cases r with
  | ok => simp [kind]
  | error cause => cases cause <;> simp [kind, GatewayError.isFatal]

theorem fatal_iff_kind {r : Except GatewayError Unit} :
    (∃ cause, r = .error cause ∧ cause.isFatal = true) ↔ kind r = .fatal := by
  cases r with
  | ok => simp [kind]
  | error cause => cases cause <;> simp [kind, GatewayError.isFatal]

/-- What a body with some errors comes to. -/
def kindOf (errors : List Document) : Kind :=
  if errors.any isUnknownUser then .fatal else if errors.isEmpty then .taken else .refused

/-- Without an error for an unknown user, other errors mean a refusal that tells all of them. -/
theorem judgeBody_of_refused {d : Document} (h : ∀ error ∈ errors d, ¬Unknown error)
    (herrors : errors d ≠ []) :
    judgeBody d = .error (.rejected ("; ".intercalate ((errors d).map errorText))) := by
  have hfind : (errors d).find? isUnknownUser = none :=
    List.find?_eq_none.mpr fun error hmem hu => h error hmem (isUnknownUser_iff.mp hu)
  -- the search finds no error for an unknown user, so all of them are told
  rw [judgeBody, hfind]
  cases hlist : errors d with
  | nil => exact absurd hlist herrors
  | cons error rest => rfl

/-- **What a body comes to** depends on its errors. -/
theorem kind_judgeBody (d : Document) : kind (judgeBody d) = kindOf (errors d) := by
  unfold judgeBody kindOf
  cases hfind : (errors d).find? isUnknownUser with
  | some error =>
    have hany : (errors d).any isUnknownUser = true :=
      List.any_eq_true.mpr ⟨error, List.mem_of_find?_eq_some hfind, List.find?_some hfind⟩
    rw [if_pos hany]
    rfl
  | none =>
    have hany : ¬(errors d).any isUnknownUser = true := by
      rw [List.any_eq_true]
      rintro ⟨error, hmem, hu⟩
      exact List.find?_eq_none.mp hfind error hmem hu
    rw [if_neg hany]
    cases errors d with
    | nil => rfl
    | cons error rest => rfl

theorem kindOf_eq_fatal_iff {es : List Document} :
    kindOf es = .fatal ↔ ∃ error ∈ es, Unknown error := by
  simp only [← isUnknownUser_iff]
  rw [← List.any_eq_true, kindOf]
  split
  · next h => exact iff_of_true rfl h
  · next h =>
    refine iff_of_false ?_ h
    split <;> exact nofun

theorem kindOf_eq_taken_iff {es : List Document} : kindOf es = .taken ↔ es = [] := by
  cases es with
  | nil => simp [kindOf]
  | cons error rest =>
    refine iff_of_false ?_ (List.cons_ne_nil error rest)
    unfold kindOf
    split <;> exact nofun

/-- **Only the set of errors matters.** -/
theorem kindOf_congr {xs ys : List Document} (h : ∀ error, error ∈ xs ↔ error ∈ ys) :
    kindOf xs = kindOf ys := by
  have hany : xs.any isUnknownUser = ys.any isUnknownUser := by
    rw [Bool.eq_iff_iff, List.any_eq_true, List.any_eq_true]
    simp only [h]
  have hempty : xs.isEmpty = ys.isEmpty := by
    rw [Bool.eq_iff_iff, List.isEmpty_iff, List.isEmpty_iff, List.eq_nil_iff_forall_not_mem,
      List.eq_nil_iff_forall_not_mem]
    simp only [h]
  rw [kindOf, kindOf, hany, hempty]

/-! ### Answers -/

/-- A status that promises that the state was taken, if the body agrees. -/
def Promises (status : ℕ) : Prop := 200 ≤ status ∧ status < 300

/-- A status that refuses the user. -/
def Forbids (status : ℕ) : Prop := status = 401 ∨ status = 403

theorem Promises.not_forbids {status : ℕ} (h : Promises status) : ¬Forbids status := by
  unfold Promises at h
  unfold Forbids
  omega

section Answers

variable {read : String → Except String Document} {status : ℕ} {body : String}

/-- An answer with a body that is to be read comes to what the body does. -/
theorem judgeWith_of_read {d : Document} (hstatus : Promises status) (hread : read body = .ok d) :
    judgeWith read status body = judgeBody d := by
  have hforbids : ¬(status = 401 ∨ status = 403) := hstatus.not_forbids
  have hpromises : 200 ≤ status ∧ status < 300 := hstatus
  rw [judgeWith, if_neg hforbids, if_pos hpromises, hread]

/-- Any other answer was not taken, and it is fatal if the status refuses the user. -/
theorem kind_judgeWith_of_unread (hbody : ¬∃ d, Promises status ∧ read body = .ok d) :
    kind (judgeWith read status body) ≠ .taken ∧
      (kind (judgeWith read status body) = .fatal ↔ Forbids status) := by
  unfold judgeWith
  split
  · next hforbids => exact ⟨nofun, iff_of_true rfl hforbids⟩
  · next hforbids =>
    split
    · next hstatus =>
      cases hread : read body with
      | error reason => exact ⟨nofun, iff_of_false nofun hforbids⟩
      | ok d => exact absurd ⟨d, hstatus, hread⟩ hbody
    · split
      · exact ⟨nofun, iff_of_false nofun hforbids⟩
      · exact ⟨nofun, iff_of_false nofun hforbids⟩

theorem judgeWith_eq_ok_iff : judgeWith read status body = .ok () ↔
    Promises status ∧ ∃ d, read body = .ok d ∧ ∀ e ∈ entries d, field? "error" e = none := by
  rw [eq_ok_iff_kind]
  by_cases hbody : ∃ d, Promises status ∧ read body = .ok d
  · obtain ⟨d, hstatus, hread⟩ := hbody
    rw [judgeWith_of_read hstatus hread, kind_judgeBody, kindOf_eq_taken_iff, errors_eq_nil_iff]
    simp [hstatus, hread]
  · refine iff_of_false (kind_judgeWith_of_unread hbody).1 ?_
    rintro ⟨hstatus, d, hread, -⟩
    exact hbody ⟨d, hstatus, hread⟩

theorem judgeWith_fatal_iff :
    (∃ cause, judgeWith read status body = .error cause ∧ cause.isFatal = true) ↔
      Forbids status ∨ Promises status ∧ ∃ d, read body = .ok d ∧
        ∃ e ∈ entries d, ∃ error, Tells e error ∧ Unknown error := by
  rw [fatal_iff_kind]
  by_cases hbody : ∃ d, Promises status ∧ read body = .ok d
  · obtain ⟨d, hstatus, hread⟩ := hbody
    rw [judgeWith_of_read hstatus hread, kind_judgeBody, kindOf_eq_fatal_iff]
    simp only [hstatus.not_forbids, hstatus, hread, mem_errors, Except.ok.injEq, false_or,
      true_and, exists_eq_left']
    exact ⟨fun ⟨error, ⟨e, he, htells⟩, hunknown⟩ => ⟨e, he, error, htells, hunknown⟩,
      fun ⟨e, he, error, htells, hunknown⟩ => ⟨error, ⟨e, he, htells⟩, hunknown⟩⟩
  · rw [(kind_judgeWith_of_unread hbody).2]
    refine ⟨.inl, fun h => h.resolve_right ?_⟩
    rintro ⟨hstatus, d, hread, -⟩
    exact hbody ⟨d, hstatus, hread⟩

/-- Answers of one status come to the same if their bodies are read and tell the same errors. -/
theorem kind_judgeWith_congr {body' : String} {d d' : Document} (hread : read body = .ok d)
    (hread' : read body' = .ok d') (h : ∀ error, error ∈ errors d ↔ error ∈ errors d') :
    kind (judgeWith read status body) = kind (judgeWith read status body') := by
  by_cases hstatus : Promises status
  · rw [judgeWith_of_read hstatus hread, judgeWith_of_read hstatus hread', kind_judgeBody,
      kind_judgeBody, kindOf_congr h]
  · have hpromises : ¬(200 ≤ status ∧ status < 300) := hstatus
    rw [judgeWith, judgeWith, if_neg hpromises, if_neg hpromises]

end Answers

/-- **What answers come to**, whatever reads their bodies.  A state was taken just if the status
promises so and the body can be read and has no entry with an error.  An answer is fatal just if the
status refuses the user, or if it promises success and some error, wherever its entry stands, has
the type `1`.  Any other body that is read under such a status is a refusal that tells all errors in
the order of their entries.  So what an answer comes to does not change if its entries are given in
another order, or if entries without an error are added or removed. -/
theorem judged_exactly (read : String → Except String Document) (status : ℕ) (body : String) :
    (judgeWith read status body = .ok () ↔
      Promises status ∧ ∃ d, read body = .ok d ∧ ∀ e ∈ entries d, field? "error" e = none) ∧
    ((∃ cause, judgeWith read status body = .error cause ∧ cause.isFatal = true) ↔
      Forbids status ∨ Promises status ∧ ∃ d, read body = .ok d ∧
        ∃ e ∈ entries d, ∃ error, Tells e error ∧ Unknown error) ∧
    (∀ d, Promises status → read body = .ok d →
      (∃ e ∈ entries d, ∃ error, Tells e error) →
      (∀ e ∈ entries d, ∀ error, Tells e error → ¬Unknown error) →
      judgeWith read status body
        = .error (.rejected ("; ".intercalate ((errors d).map errorText)))) ∧
    ∀ body' d d', read body = .ok d → read body' = .ok d' →
      Rearranged (entries d) (entries d') →
      kind (judgeWith read status body) = kind (judgeWith read status body') := by
  refine ⟨judgeWith_eq_ok_iff, judgeWith_fatal_iff, ?_, ?_⟩
  · rintro d hstatus hread ⟨e, he, error, htells⟩ hnone
    rw [judgeWith_of_read hstatus hread]
    apply judgeBody_of_refused
    · intro error' hmem
      obtain ⟨e', he', htells'⟩ := mem_errors.mp hmem
      exact hnone e' he' error' htells'
    · exact List.ne_nil_of_mem (mem_errors.mpr ⟨e, he, htells⟩)
  · intro body' d d' hread hread' h
    exact kind_judgeWith_congr hread hread' fun error => h.errors_perm.mem_iff

/-- An entry that tells a success. -/
def lampOn : Document := .record .settled [(.text "success", .null)]

/-- An entry that tells an error with its address. -/
def lampOff : Document :=
  .record .settled
    [(.text "error", .record .settled
      [(.text "address", .text "/bri"), (.text "description", .text "off")])]

/-- An entry that tells an error and nothing about it. -/
def lampLost : Document := .record .settled [(.text "error", .null)]

/-- The text of an answer with these entries. -/
def lampText : String :=
  "[\x7b\"success\":null\x7d,\x7b\"error\":\x7b\"address\":\"/bri\",\"description\":\"off\"\x7d\x7d,"
    ++ "\x7b\"error\":null\x7d]"

/-- The text of an answer with the errors in another order and without the success. -/
def lampTextRearranged : String :=
  "[\x7b\"error\":null\x7d,\x7b\"error\":\x7b\"address\":\"/bri\",\"description\":\"off\"\x7d\x7d]"

theorem lamp_judged : Promises 200 ∧
    readBody lampText = .ok (.list .settled [lampOn, lampOff, lampLost]) ∧
    readBody lampTextRearranged = .ok (.list .settled [lampLost, lampOff]) ∧
    Rearranged [lampOn, lampOff, lampLost] [lampLost, lampOff] ∧
    judge 200 lampText = .error (.rejected "/bri: off; unknown error") ∧
    kind (judge 200 lampTextRearranged) = .refused := by
  have hstatus : Promises 200 := by
    unfold Promises
    decide
  have hread : readBody lampText = .ok (.list .settled [lampOn, lampOff, lampLost]) := by cbv
  have hread' : readBody lampTextRearranged = .ok (.list .settled [lampLost, lampOff]) := by cbv
  have hrearranged : Rearranged [lampOn, lampOff, lampLost] [lampLost, lampOff] := by
    refine ⟨[], [lampOn], ?_, ?_⟩
    · intro e he
      rw [List.mem_singleton.mp he]
      rfl
    · exact List.reverse_perm [lampLost, lampOff, lampOn]
  have hmild : ∀ e ∈ [lampOn, lampOff, lampLost], ∀ error, Tells e error → ¬Unknown error := by
    intro e he error htells hunknown
    simp only [List.mem_cons, List.not_mem_nil, or_false] at he
    rcases he with rfl | rfl | rfl
    · cases htells
    · cases htells
      cases hunknown
    · cases htells
      cases hunknown
  have hjudged := judged_exactly readBody 200 lampText
  have hlost : lampLost ∈ [lampOn, lampOff, lampLost] := by simp
  have hrefused : judge 200 lampText = .error (.rejected "/bri: off; unknown error") :=
    hjudged.2.2.1 _ hstatus hread ⟨lampLost, hlost, _, rfl⟩ hmild
  refine ⟨hstatus, hread, hread', hrearranged, hrefused, ?_⟩
  have hsame := hjudged.2.2.2 lampTextRearranged _ _ hread hread' hrearranged
  rw [show judgeWith readBody 200 lampText = _ from hrefused] at hsame
  exact hsame.symm

end Lightshow.Response
