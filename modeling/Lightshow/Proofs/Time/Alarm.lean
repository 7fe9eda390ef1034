import Lightshow.Run.World
import Mathlib.Order.Nat
import Mathlib.Order.MinMax

/-!
# Alarms

An alarm rings on a whole millisecond: on the first one that is not before the instant for which
it is set.  So it is never early, it is exact if it is set to a whole millisecond, and of two alarms
the one that is set to the later instant does not ring before the other one.

All of this holds up to the last tick, at which all later alarms ring as well.  An alarm for an
instant that no clock shows is set to the far future instead, so it rings although its span has not
passed; but it does not ring before alarms with spans that are shorter than the far future is away.
Fades are that short.

## Main results

* `le_wholeMillis`, `wholeMillis_le` — the first whole millisecond that is not before an instant.
* `alarm_of_range` — alarms until the last tick.
* `alarm_mono` — alarms ring in the order of their spans.
* `add_le_alarm` — **no alarm is early**, as long as there are ticks.
* `alarm_lt` — alarms that do not ring at one instant.
* `spanEnds_of_range` — how long a span takes.
* `DeviceState.fade_le`, `DeviceState.fade_le_farFuture` — fades are short.
-/

namespace Lightshow

/-! ### Whole milliseconds -/

/-- A clock fires no earlier than at the instant that is waited for. -/
theorem le_wholeMillis (t : ℕ) : t ≤ wholeMillis t := by
  have hpos : 0 < Duration.perMilli := by decide
  have hnext := Nat.lt_div_mul_add hpos (a := t + (Duration.perMilli - 1))
  unfold wholeMillis
  omega

theorem dvd_wholeMillis (t : Instant) : Duration.perMilli ∣ wholeMillis t := Nat.dvd_mul_left _ _

/-- There is no whole millisecond between an instant and the one at which a clock fires for it. -/
theorem wholeMillis_le {t u : Instant} (h : t ≤ u) (hu : Duration.perMilli ∣ u) :
    wholeMillis t ≤ u := by
  obtain ⟨k, rfl⟩ := hu
  have hle : (t + (Duration.perMilli - 1)) / Duration.perMilli ≤ k := by
    rw [Nat.div_le_iff_le_mul_add_pred (by decide)]
    exact Nat.add_le_add_right h _
  rw [wholeMillis, Nat.mul_comm]
  exact Nat.mul_le_mul_left _ hle

/-- A clock fires less than a millisecond after the instant that is waited for. -/
theorem wholeMillis_lt (t : Instant) : wholeMillis t < t + Duration.perMilli := by
  have hle : wholeMillis t ≤ t + (Duration.perMilli - 1) := Nat.div_mul_le_self _ _
  exact Nat.lt_of_le_of_lt hle (Nat.add_lt_add_left (by decide) t)

/-- An instant that is a whole number of milliseconds is waited for exactly. -/
theorem wholeMillis_of_dvd {t : Instant} (h : Duration.perMilli ∣ t) : wholeMillis t = t :=
  Nat.le_antisymm (wholeMillis_le (Nat.le_refl t) h) (le_wholeMillis t)

theorem wholeMillis_mono {t u : Instant} (h : t ≤ u) : wholeMillis t ≤ wholeMillis u :=
  wholeMillis_le (Nat.le_trans h (le_wholeMillis u)) (dvd_wholeMillis u)

/-- Whole milliseconds that pass before make no difference. -/
theorem wholeMillis_add {t u : Instant} (h : Duration.perMilli ∣ t) :
    wholeMillis (t + u) = t + wholeMillis u := by
  obtain ⟨k, rfl⟩ := h
  have hsum : Duration.perMilli * k + u + (Duration.perMilli - 1)
      = Duration.perMilli * k + (u + (Duration.perMilli - 1)) := Nat.add_assoc _ _ _
  rw [wholeMillis, wholeMillis, hsum, Nat.mul_add_div (by decide), Nat.add_mul, Nat.mul_comm k]

/-! ### Alarms -/

variable {now : Instant} {span span' : Duration}

theorem dvd_lastTick : Duration.perMilli ∣ lastTick := Nat.dvd_mul_left _ _

/-- No alarm rings before it is set. -/
theorem le_alarm (now : Instant) (span : Duration) : now ≤ alarm now span := Nat.le_max_left ..

theorem dvd_alarm (hnow : Duration.perMilli ∣ now) (span : Duration) :
    Duration.perMilli ∣ alarm now span := by
  have hrings : ∀ t, Duration.perMilli ∣ min (wholeMillis t) lastTick := by
    intro t
    rcases min_choice (wholeMillis t) lastTick with h | h
    · rw [h]
      exact dvd_wholeMillis t
    · rw [h]
      exact dvd_lastTick
  unfold alarm
  rcases max_choice now (min (wholeMillis (now + _)) lastTick) with h | h
  · rw [h]
    exact hnow
  · rw [h]
    exact hrings _

/-- An alarm that is to ring until the last tick rings when its span has passed. -/
theorem alarm_of_range (h : now + span ≤ lastTick) : alarm now span = wholeMillis (now + span) := by
  have hclock : now + span < Bound.clockRange := Nat.lt_of_le_of_lt h (by decide)
  have hlast : wholeMillis (now + span) ≤ lastTick := wholeMillis_le h dvd_lastTick
  have hnow : now ≤ wholeMillis (now + span) :=
    Nat.le_trans (Nat.le_add_right now span) (le_wholeMillis _)
  rw [alarm, if_pos hclock, Nat.min_eq_left hlast, Nat.max_eq_right hnow]

/-- An alarm that rings before the last tick was to ring until then, unless no clock shows when. -/
theorem add_le_lastTick (hclock : now + span < Bound.clockRange) (h : alarm now span < lastTick) :
    now + span ≤ lastTick := by
  rw [alarm, if_pos hclock] at h
  have hrings : wholeMillis (now + span) < lastTick :=
    (min_lt_iff.mp (max_lt_iff.mp h).2).resolve_right (Nat.lt_irrefl _)
  exact Nat.le_trans (le_wholeMillis _) (Nat.le_of_lt hrings)

/-- And if this is a whole millisecond it rings at once. -/
theorem alarm_of_dvd (hnow : Duration.perMilli ∣ now) (hspan : Duration.perMilli ∣ span)
    (h : now + span ≤ lastTick) : alarm now span = now + span := by
  rw [alarm_of_range h, wholeMillis_of_dvd (Nat.dvd_add hnow hspan)]

/-- **Alarms ring in the order of their spans**, if the shorter one is shorter than the far future
is away. -/
theorem alarm_mono (hspan : span ≤ span') (hfar : span ≤ farFuture) :
    alarm now span ≤ alarm now span' := by
  have hrings : (if now + span < Bound.clockRange then span else farFuture)
      ≤ if now + span' < Bound.clockRange then span' else farFuture := by
    split
    · split
      · exact hspan
      · exact hfar
    · next h =>
      -- then neither of the two is within the range of the clock
      rw [if_neg fun hlt => h (Nat.lt_of_le_of_lt (Nat.add_le_add_left hspan now) hlt)]
  exact max_le_max_left now
    (min_le_min_right lastTick (wholeMillis_mono (Nat.add_le_add_left hrings now)))

/-- **No alarm is early** that is to ring until the last tick, nor is any one with a longer span. -/
theorem add_le_alarm (hspan : span ≤ span') (hfar : span ≤ farFuture)
    (hrange : now + span ≤ lastTick) : now + span ≤ alarm now span' :=
  Nat.le_trans (Nat.le_trans (le_wholeMillis _) (Nat.le_of_eq (alarm_of_range hrange).symm))
    (alarm_mono hspan hfar)

/-- **Of two alarms the one with the shorter span rings first**, if its own rounding does not take as
long as the spans differ. -/
theorem alarm_lt {part : Duration} (hspan : span + part ≤ span') (hpart : part ≤ Duration.perMilli)
    (hrings : wholeMillis (now + span) < now + span + part)
    (hfar : span + Duration.perMilli ≤ farFuture)
    (hticks : now + span + Duration.perMilli ≤ lastTick) : alarm now span < alarm now span' := by
  have hticks' : now + span + part ≤ lastTick := Nat.le_trans (Nat.add_le_add_left hpart _) hticks
  have hfar' : span + part ≤ farFuture := Nat.le_trans (Nat.add_le_add_left hpart _) hfar
  calc alarm now span = wholeMillis (now + span) :=
        alarm_of_range (Nat.le_trans (Nat.le_add_right _ _) hticks)
    _ < now + span + part := hrings
    _ = now + (span + part) := Nat.add_assoc ..
    _ ≤ alarm now span' := add_le_alarm hspan hfar' (Nat.add_assoc now span part ▸ hticks')

/-- A span is not over before it begins. -/
theorem le_spanEnds (now : Instant) (span : Duration) : now ≤ spanEnds now span := by
  unfold spanEnds
  split
  · exact Nat.le_refl now
  · exact le_alarm now span

/-- Nor is it over before it has passed, as long as there are ticks. -/
theorem add_le_spanEnds (hfar : span ≤ farFuture) (hrange : now + span ≤ lastTick) :
    now + span ≤ spanEnds now span := by
  unfold spanEnds
  split
  · next hspan => exact Nat.le_of_eq (congrArg (now + ·) hspan)
  · exact add_le_alarm (Nat.le_refl _) hfar hrange

theorem dvd_spanEnds (hnow : Duration.perMilli ∣ now) (span : Duration) :
    Duration.perMilli ∣ spanEnds now span := by
  unfold spanEnds
  split
  · exact hnow
  · exact dvd_alarm hnow span

/-- From a whole millisecond on a span takes as many milliseconds as it does at the start of the
clock. -/
theorem spanEnds_of_range (hnow : Duration.perMilli ∣ now) (h : now + span ≤ lastTick) :
    spanEnds now span = now + wholeMillis span := by
  unfold spanEnds
  split
  · next hspan =>
    rw [hspan]
    rfl
  · rw [alarm_of_range h, wholeMillis_add hnow]

/-! ### Fades -/

namespace DeviceState

/-- A fade is no longer than a bridge can count. -/
theorem fade_le (s : DeviceState) : s.fade ≤ wordMax := by
  unfold fade
  split
  · unfold roundCapped
    split
    · exact Nat.zero_le _
    · exact Nat.min_le_left _ _
    · exact Nat.le_refl _
  · cases s.transitionTime with
    | none => decide
    | some t => exact Nat.le_of_lt_succ t.toNat_lt

theorem fadeDuration_le (s : DeviceState) : s.fadeDuration ≤ Duration.millis (wordMax * 100) :=
  Nat.mul_le_mul_right _ (Nat.mul_le_mul_right 100 s.fade_le)

/-- A fade is over before the far future. -/
theorem fade_le_farFuture (s : DeviceState) : s.fadeDuration ≤ farFuture :=
  Nat.le_trans s.fadeDuration_le (by decide)

/-- A fade is a whole number of milliseconds. -/
theorem dvd_fadeDuration (s : DeviceState) : Duration.perMilli ∣ s.fadeDuration :=
  Nat.dvd_mul_left _ _

end DeviceState

end Lightshow
