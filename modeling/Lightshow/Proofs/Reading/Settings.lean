import Lightshow.Proofs.Reading.Steps
import Lightshow.Proofs.Time.Alarm
import Lightshow.Proofs.Time.Delay
import Lightshow.Settings.Reading

/-!
# The timeout of accepted settings

A file gives the timeout of acknowledgements as a number of seconds, and settings are accepted if
the timeout is a span and not empty.  While an acknowledgement is waited for, the fade comes on top
of it.  A fade takes no longer than 6553.5 seconds, and floats just below `2 ^ 64` are `2 ^ 11`
apart, so the sum is a span again for all but the three greatest timeouts.  Those are accepted
nevertheless, and with long fades the sum leaves the range of spans.

## Main results

* `RecordFormat.table_read` — what a table holds was read from some value.
* `Duration.ofSeconds?_far_or_near` — the spans of seconds next to the limit.
* `Settings.window_of_accepted` — **which fades there is room for.**
* `Settings.window_too_long` — accepted settings and a fade for which there is none.
-/

namespace Lightshow

/-! ### Fields -/

namespace RecordFormat

variable {φ : Type} [DecidableEq φ] {format : RecordFormat φ}

/-- Every field of a table holds what its reader found in some value. -/
def Found (t : format.Table) : Prop := ∀ f v, t f = some v → ∃ d, format.read f d = .ok v

omit [DecidableEq φ] in
theorem found_noField : Found format.noField := nofun

theorem Found.insert {t : format.Table} (ht : Found t) {f : φ} {v : format.Value f}
    {d : Document} (hv : format.read f d = .ok v) : Found (t.insert f v) := by
  intro g u hu
  by_cases hfg : f = g
  · subst hfg
    rw [Table.insert_self, Option.some.injEq] at hu
    exact ⟨d, hu ▸ hv⟩
  · rw [Table.insert_of_ne _ _ hfg] at hu
    exact ht g u hu

theorem Found.readEntries {form : Form} : ∀ {es : List (Document × Document)}
    {t t' : format.Table}, Found t → format.readEntries form t es = .ok t' → Found t'
  | [], _, _, ht, h => by
    cases h
    exact ht
  | (key, d) :: es, t, t', ht, h => by
    rw [RecordFormat.readEntries] at h
    obtain ⟨f, -, h⟩ := bind_eq_ok.mp h
    split at h
    · cases h
    · obtain ⟨v, hv, h⟩ := bind_eq_ok.mp h
      exact (ht.insert hv).readEntries h

theorem Found.readItems {excess : ReadError} : ∀ {fs : List φ} {ds : List Document}
    {t t' : format.Table}, Found t → format.readItems excess t fs ds = .ok t' → Found t'
  | [], [], _, _, ht, h => by
    cases h
    exact ht
  | [], d :: _, _, _, _, h => by
    cases d <;> cases h
  | _ :: _, [], _, _, ht, h => by
    simp only [RecordFormat.readItems] at h
    split at h
    · cases h
    · cases h
      exact ht
  | f :: fs, d :: ds, t, t', ht, h => by
    rw [RecordFormat.readItems] at h
    obtain ⟨v, hv, h⟩ := bind_eq_ok.mp h
    exact (ht.insert hv).readItems h

/-- **What a table holds was read from some value.** -/
theorem table_read {d : Document} {t : format.Table} (h : format.table d = .ok t) : Found t := by
  have habsent : format.complete format.noField = .ok t → Found t := by
    intro h
    rw [complete_inv h]
    exact found_noField
  cases d with
  | record form es =>
    obtain ⟨t', ht', h⟩ := bind_eq_ok.mp h
    rw [complete_inv h]
    exact found_noField.readEntries ht'
  | list form ds =>
    cases form with
    | yaml => cases h
    | json | settled => exact found_noField.readItems h
  | absent => exact habsent h
  | scalar s =>
    simp only [table] at h
    split at h
    · exact habsent h
    · cases h
  | null | bool | int | float | text | tagged | broken => cases h

end RecordFormat

/-! ### Spans next to the limit -/

namespace Duration

/-- A number of seconds with an exponent of eleven falls short of the limit by a multiple of
`2 ^ 11` seconds. -/
theorem roundScaled_eleven {m : ℕ} (hm : m < 2 ^ 53) :
    roundScaled perSecond m 11 = limit - seconds (2 ^ 11 * (2 ^ 53 - m)) := by
  have hexact : roundScaled perSecond m 11 = m * 2 ^ 11 * perSecond := by
    show roundDiv ((m <<< 11) * perSecond) 1 = _
    rw [roundDiv_one, Nat.shiftLeft_eq]
  rw [hexact]
  unfold limit seconds perSecond UInt64.size
  omega

/-- **The span of a number of seconds falls short of the limit by four times `2 ^ 11` seconds or
more, or else by one, two or three times as much.** -/
theorem ofSeconds?_far_or_near {x : Float} {d : Duration} (h : ofSeconds? x = some d) :
    d ≤ limit - seconds (2 ^ 11 * 4) ∨
      ∃ k ∈ [1, 2, 3], d = limit - seconds (2 ^ 11 * k) := by
  cases hx : x.toModel.unpack with
  | finite s m e hpos =>
    cases s with
    | negative =>
      rw [ofSeconds?, hx] at h
      cases h
    | positive =>
      rw [ofSeconds?_of_unpack hx] at h
      split at h
      · next hlt =>
        have hm : Canonical m e := by
          have hcanonical := canonicalFloat_toModel x
          rwa [hx] at hcanonical
        cases h
        rcases lt_trichotomy e 11 with hsmall | rfl | hlarge
        · -- with a smaller exponent even the greatest mantissa is far from the limit
          left
          have hmant : (m : ℚ) ≤ (2 ^ 53 - 1 : ℕ) := by exact_mod_cast Nat.le_pred_of_lt hm.lt
          have hexp : (2 : ℚ) ^ e ≤ 2 ^ (10 : ℤ) := zpow_le_zpow_right₀ one_le_two (by omega)
          have hle : (m : ℚ) * 2 ^ e ≤ (2 ^ 53 - 1 : ℕ) * 2 ^ (10 : ℤ) := by gcongr
          exact (roundScaled_le_roundScaled _ hle).trans (by decide)
        · rw [roundScaled_eleven hm.lt]
          by_cases hk : 4 ≤ 2 ^ 53 - m
          · left
            unfold seconds
            gcongr
          · refine .inr ⟨2 ^ 53 - m, ?_, rfl⟩
            have hlt := hm.lt
            simp only [List.mem_cons, List.not_mem_nil, or_false]
            omega
        · -- a greater exponent is beyond the limit, since the mantissa is full
          have hmant : (2 : ℚ) ^ 52 ≤ m := by exact_mod_cast hm.full.resolve_right (by omega)
          have hexp : (2 : ℚ) ^ (12 : ℤ) ≤ 2 ^ e := zpow_le_zpow_right₀ one_le_two hlarge
          have hlong : (2 : ℚ) ^ 52 * 2 ^ (12 : ℤ) ≤ m * 2 ^ e := by gcongr
          norm_num at hlong hlt
          exact absurd hlt hlong.not_gt
      · cases h
  | zero s =>
    rw [ofSeconds?, hx] at h
    cases h
    exact .inl (Nat.zero_le _)
  | _ =>
    rw [ofSeconds?, hx] at h
    cases h

/-- A short span may follow one that is far from the limit, and one next to the limit only if it
is shorter than the rest. -/
theorem representable_add_iff {a d : ℕ} (ha : a < seconds (2 ^ 11 * 4))
    (hd : d ≤ limit - seconds (2 ^ 11 * 4) ∨ ∃ k ∈ [1, 2, 3], d = limit - seconds (2 ^ 11 * k)) :
    Representable (a + d) ↔
      ∀ k ∈ [1, 2, 3], d = limit - seconds (2 ^ 11 * k) → a < seconds (2 ^ 11 * k) := by
  simp only [List.mem_cons, List.not_mem_nil, or_false, exists_eq_or_imp, exists_eq_left,
    forall_eq_or_imp, forall_eq] at hd ⊢
  simp only [Representable, limit, seconds, perSecond, UInt64.size, Duration] at ha hd ⊢
  omega

end Duration

/-! ### Accepted settings -/

/-- A state that gives nothing but a fade of some tenths of a second. -/
def DeviceState.fading (tenths : UInt16) : DeviceState := { transitionTime := some tenths }

/-- A timeout is the standard one or the span of a number of seconds. -/
theorem RunSettings.ackTimeout_of_ofDocument {d : Document} {r : RunSettings}
    (h : RunSettings.ofDocument d = .ok r) :
    r.ackTimeout = Duration.seconds 10 ∨ ∃ x, Duration.ofSeconds? x = some r.ackTimeout := by
  obtain ⟨t, ht, h⟩ := bind_eq_ok.mp h
  cases h
  cases hfield : t .ackTimeout with
  | none => exact .inl rfl
  | some span =>
    right
    obtain ⟨e, he⟩ := RecordFormat.table_read ht .ackTimeout span hfield
    obtain ⟨x, -, hx⟩ := bind_eq_ok.mp he
    refine ⟨x, ?_⟩
    split at hx
    · next hspan =>
      cases hx
      exact hspan
    · cases hx

namespace Settings

theorem ackTimeout_of_ofDocument {d : Document} {s : Settings}
    (h : Settings.ofDocument d = .ok s) :
    s.run.ackTimeout = Duration.seconds 10 ∨
      ∃ x, Duration.ofSeconds? x = some s.run.ackTimeout := by
  obtain ⟨t, ht, h⟩ := bind_eq_ok.mp h
  cases h
  cases hfield : t .run with
  | none => exact .inl rfl
  | some r =>
    obtain ⟨e, he⟩ := RecordFormat.table_read ht .run r hfield
    exact RunSettings.ackTimeout_of_ofDocument he

theorem documentResult_eq_ok {α : Type} {x : Except ReadError α} {a : α} :
    documentResult x = .ok a ↔ x = .ok a := by
  cases x <;> simp [documentResult]

/-- Settings of a text were read from a value and checked. -/
theorem ofText_inv {vars : Variables} {text : String} {s : Settings}
    (h : Settings.ofText vars text = .ok s) :
    (∃ d, Settings.ofDocument d = .ok s) ∧ s.check = .ok () := by
  rw [ofText] at h
  obtain ⟨d, -, h⟩ := bind_eq_ok.mp h
  obtain ⟨s', hread, h⟩ := bind_eq_ok.mp h
  obtain ⟨⟨⟩, hcheck, h⟩ := bind_eq_ok.mp h
  cases h
  exact ⟨⟨d, documentResult_eq_ok.mp hread⟩, hcheck⟩

/-- A timeout that passes the check is not empty. -/
theorem ackTimeout_pos {s : Settings} (h : s.check = .ok ()) : 0 < s.run.ackTimeout := by
  refine Nat.pos_of_ne_zero fun hzero => ?_
  unfold check checkSpan at h
  rw [if_pos hzero] at h
  cases h

/-- **The timeout of accepted settings is a span, and there is room for every fade after it,
unless the timeout is one of the three greatest.  For these there is room for fades of less than
one, two or three times `2 ^ 11` seconds.** -/
theorem window_of_accepted {vars : Variables} {text : String} {s : Settings}
    (h : Settings.ofText vars text = .ok s) :
    (0 < s.run.ackTimeout ∧ Duration.Representable s.run.ackTimeout) ∧
      ∀ state : DeviceState,
        Duration.Representable (state.fadeDuration + s.run.ackTimeout) ↔
          ∀ k ∈ [1, 2, 3], s.run.ackTimeout = Duration.limit - Duration.seconds (2 ^ 11 * k) →
            state.fadeDuration < Duration.seconds (2 ^ 11 * k) := by
  obtain ⟨⟨d, hread⟩, hcheck⟩ := ofText_inv h
  have hspan : s.run.ackTimeout ≤ Duration.limit - Duration.seconds (2 ^ 11 * 4) ∨
      ∃ k ∈ [1, 2, 3], s.run.ackTimeout = Duration.limit - Duration.seconds (2 ^ 11 * k) := by
    rcases ackTimeout_of_ofDocument hread with hstandard | ⟨x, hx⟩
    · rw [hstandard]
      exact .inl (by decide)
    · exact Duration.ofSeconds?_far_or_near hx
  have hfade (state : DeviceState) : state.fadeDuration < Duration.seconds (2 ^ 11 * 4) :=
    Nat.lt_of_le_of_lt state.fadeDuration_le (by decide)
  have hrepresentable : Duration.Representable s.run.ackTimeout := by
    unfold Duration.Representable
    rcases hspan with hfar | ⟨k, hk, hnear⟩
    · exact hfar.trans_lt (by decide)
    · rw [hnear]
      have hpos : 0 < k := Nat.pos_of_ne_zero (ne_of_mem_of_not_mem hk (by decide))
      exact Nat.sub_lt (by decide) (Nat.mul_pos (Nat.mul_pos (by decide) hpos) (by decide))
  exact ⟨⟨ackTimeout_pos hcheck, hrepresentable⟩, fun state =>
    Duration.representable_add_iff (hfade state) hspan⟩

/-- A file with the greatest timeout that there can be. -/
def longest : String := "interpreter:\n  ack_timeout: 18446744073709549568\n"

theorem longest_accepted :
    Settings.ofText (fun _ => none) longest =
      .ok { run := { ackTimeout := Duration.limit - Duration.seconds (2 ^ 11) } } :=
  toOption_eq_some.mp (by decide +kernel)

theorem longest_with_fades :
    ∃ s, Settings.ofText (fun _ => none) longest = .ok s ∧
      Duration.Representable ((DeviceState.fading 20479).fadeDuration + s.run.ackTimeout) ∧
      ¬Duration.Representable ((DeviceState.fading 20480).fadeDuration + s.run.ackTimeout) := by
  have hroom := (window_of_accepted longest_accepted).2
  refine ⟨_, longest_accepted, (hroom _).mpr ?_, fun h => ?_⟩
  · decide +kernel
  · exact absurd ((hroom _).mp h 1 (by decide) rfl) (by decide +kernel)

/-- The greatest timeout is accepted, and there is nothing wrong with a step that waits for an
acknowledgement of the longest fade, but the fade and the timeout together are no span. -/
theorem window_too_long :
    ∃ s, Settings.ofText (fun _ => none) longest = .ok s ∧
      (Step.transition
        { state := .fading 65535, devices := some [.light "lamp"], wait := true }).faults = [] ∧
      ¬Duration.Representable ((DeviceState.fading 65535).fadeDuration + s.run.ackTimeout) :=
  ⟨_, longest_accepted, by decide +kernel, by decide +kernel⟩

end Settings

end Lightshow
