import Lightshow.Proofs.Run.Uses
import Mathlib.Tactic.Ring
import Mathlib.Algebra.Order.Group.Unbundled.Int

/-!
# Loops and their bounds

When a loop is entered its mode becomes a bound, and the bound is all that is asked afterwards.
What the mode itself asks for can be said without it: a timer lasts as long as its hours, minutes
and seconds add up to, however much that is, and a deadline is there when the clock on the wall
shows it.  The bound is computed with sums that are cut off, on a clock that has an end, and from
the difference of two readings.  Here it is shown to decide as the mode asks, at every instant that
the clock can show.

Leap seconds are left out of the count of seconds since 1970, and the difference of two readings
agrees with that count as long as no leap second is counted between them.

When clocks are put back they show a moment twice, and the deadline is then the reading that the
zone tells first.  This is the earlier one for a zone that keeps the order of time, which is asked of
a zone where it is needed and nowhere else.

## Main definitions

* `UtcTime.count`, `UtcTime.Regular` — readings as a count of nanoseconds.
* `Zone.Told`, `Zone.First` — the reading for a moment that a zone tells first, and the one at which
  local clocks show the moment first.
* `Zone.Ordered` — a zone keeps the order of time.
* `LoopMode.GoesOn`, `LoopMode.Barred` — what a mode asks for.

## Main results

* `Bound.lasting_continues` — a span ends when it has passed.
* `Zone.Told.first` — what is told first is first, if the zone keeps the order of time.
* `LoopMode.continues_iff` — **a bound decides as its mode asks.**
* `Bound.over_forever` — a loop that is over stays so.
-/

namespace Lightshow

/-! ### Readings -/

namespace UtcTime

/-- The nanoseconds since the start of 1970, leap seconds left out. -/
def count (t : UtcTime) : ℤ := (perDay * t.day + t.second) * perSecond + t.nanos

/-- A leap second is the last second of its day. -/
def Regular (t : UtcTime) : Prop := t.isLeap = true → t.second = perDay - 1

/-- No leap second is counted between a reading that is none and one at the end of a day. -/
theorem since_eq {t u : UtcTime} (ht : t.isLeap = false) (hsecond : t.second < perDay)
    (hu : u.Regular) : t.since u = t.count - u.count := by
  have hseconds : t.secondsSince u = perDay * (t.day - u.day) + (t.second - u.second) := by
    unfold secondsSince
    split
    · next hlater =>
      -- a leap second is the last of its day, and no second is later
      refine if_neg fun hleap => ?_
      rw [hu hleap] at hlater
      omega
    · split
      · exact if_neg (ht ▸ Bool.false_ne_true)
      · rfl
  rw [since, hseconds, count, count]
  ring

end UtcTime

namespace Zone

variable {z : Zone} {m : Moment}

/-- The reading that a zone tells first for a moment. -/
def Told (z : Zone) (m : Moment) (t : UtcTime) : Prop := (z.readings m).head? = some t

/-- A zone tells the readings for a moment in the order of time. -/
def Ordered (z : Zone) (m : Moment) : Prop :=
  (z.readings m).Pairwise fun t u => t.count ≤ u.count

/-- Local clocks show a moment at a reading, and not before. -/
structure First (z : Zone) (m : Moment) (t : UtcTime) : Prop where
  mem : t ∈ z.readings m
  le : ∀ u ∈ z.readings m, t.count ≤ u.count

/-- A moment that is no leap second is read as none. -/
theorem reading_proper (hm : m.time.second ≠ 60) (ahead : ℤ) :
    (reading m ahead).isLeap = false ∧ (reading m ahead).second < UtcTime.perDay := by
  have hday : (UtcTime.perDay : ℤ) ≠ 0 := by decide
  simp only [reading, hm, if_false]
  refine ⟨rfl, ?_⟩
  rw [UtcTime.ofSeconds, Int.toNat_lt (Int.emod_nonneg _ hday)]
  exact Int.emod_lt_of_pos _ (by decide)

theorem readings_proper (hm : m.time.second ≠ 60) : ∀ t ∈ z.readings m,
    t.isLeap = false ∧ t.second < UtcTime.perDay := by
  intro t ht
  simp only [readings] at ht
  split at ht
  · obtain ⟨ahead, -, rfl⟩ := List.mem_map.mp ht
    exact reading_proper hm ahead
  · exact absurd ht List.not_mem_nil

/-- **A zone that keeps the order of time tells first when local clocks show a moment first.** -/
theorem Told.first {t : UtcTime} (h : z.Told m t) (hz : z.Ordered m) : z.First m t := by
  obtain ⟨rest, hreadings⟩ := List.head?_eq_some_iff.mp h
  rw [Ordered, hreadings, List.pairwise_cons] at hz
  refine ⟨List.mem_of_mem_head? h, ?_⟩
  rw [hreadings, List.forall_mem_cons]
  exact ⟨le_rfl, hz.1⟩

/-- Two readings at which a moment is shown first are the same instant. -/
theorem First.count_eq {t u : UtcTime} (ht : z.First m t) (hu : z.First m u) :
    t.count = u.count := le_antisymm (ht.le u hu.mem) (hu.le t ht.mem)

end Zone

/-! ### Bounds -/

namespace Bound

/-- A loop that lasts for a span is over when the span has passed, whether or not the clock can
show that instant. -/
theorem lasting_continues {started now span completed : ℕ} (hstarted : started ≤ now)
    (hnow : now < clockRange) :
    (lasting started span).continues completed now = true ↔ now - started < span := by
  unfold lasting
  split
  · rw [continues, decide_eq_true_iff]
    exact (Nat.sub_lt_iff_lt_add' hstarted).symm
  · next hlong =>
    -- no clock shows the instant at which the span has passed
    have hrange : now < started + span := hnow.trans_le (Nat.le_of_not_lt hlong)
    exact iff_of_true rfl ((Nat.sub_lt_iff_lt_add' hstarted).mpr hrange)

/-- **A loop that is over stays so**, whatever is completed and however much time passes. -/
theorem over_forever {bound : Bound} {completed completed' : ℕ} {now now' : Instant}
    (h : bound.continues completed now = false) (hcompleted : completed ≤ completed')
    (hnow : now ≤ now') : bound.continues completed' now' = false := by
  cases bound with
  | endless => exact h
  | count times =>
    exact decide_eq_false (Nat.not_lt_of_le ((Nat.le_of_not_lt (of_decide_eq_false h)).trans hcompleted))
  | stop t => exact decide_eq_false (Nat.not_lt_of_le ((Nat.le_of_not_lt (of_decide_eq_false h)).trans hnow))

end Bound

/-! ### Modes -/

namespace LoopMode

/-- Whether a loop asks for another iteration, given how many are completed and how much time has
passed since it was entered.  `wall` is what a clock of universal time showed then, and `drawn` the
number that was drawn.  A deadline is the reading for its moment that the zone tells first. -/
def GoesOn (zone : Zone) (wall : UtcTime) (drawn : UInt64) (completed : ℕ) (passed : Duration) :
    LoopMode → Prop
  | infinite => True
  | counted n => completed < n.toNat
  | random _ _ => completed < drawn.toNat
  | timer t =>
    passed < Duration.seconds (3600 * t.hours.toNat + 60 * t.minutes.toNat + t.seconds.toNat)
  | deadline m => ∃ t, zone.Told m t ∧ wall.count + passed < t.count

/-- A loop cannot be entered: its range is empty, or local clocks never show its deadline. -/
def Barred (zone : Zone) : LoopMode → Prop
  | random min max => max < min
  | deadline m => zone.readings m = []
  | _ => False

/-- A number that may be drawn for a mode. -/
def Admits (drawn : UInt64) : LoopMode → Prop
  | random min max => min ≤ drawn ∧ drawn ≤ max
  | _ => True

/-- The deadline of a mode, if it has one, is no leap second. -/
def Leapless : LoopMode → Prop
  | deadline m => m.time.second ≠ 60
  | _ => True

variable {zone : Zone} {mode : LoopMode} {started now completed : ℕ} {wall : UtcTime}
  {drawn : UInt64} {bound : Bound}

/-- **A loop has no bound just if it cannot be entered.** -/
theorem bound_error_iff :
    (∃ cause, mode.bound zone started wall drawn = .error cause) ↔ mode.Barred zone := by
  cases mode with
  | random min max =>
    simp only [bound, Barred]
    split
    · next h => exact iff_of_true ⟨_, rfl⟩ h
    · next h => exact iff_of_false (fun ⟨_, he⟩ => absurd he nofun) h
  | deadline m =>
    simp only [bound, Barred, Zone.earliest?]
    cases zone.readings m with
    | nil => exact iff_of_true ⟨_, rfl⟩ rfl
    | cons t rest => exact iff_of_false (fun ⟨_, he⟩ => absurd he nofun) nofun
  | _ => exact iff_of_false (fun ⟨_, he⟩ => absurd he nofun) id

/-- The length of a timer is cut off where no clock can tell. -/
theorem timer_continues (t : Timer) (hstarted : started ≤ now) (hnow : now < Bound.clockRange) :
    (Bound.lasting started (Duration.seconds t.totalSeconds)).continues completed now = true ↔
      (timer t).GoesOn zone wall drawn completed (now - started) := by
  rw [Bound.lasting_continues hstarted hnow]
  unfold GoesOn Timer.totalSeconds
  simp only [Bound.clockRange, Duration.seconds, Duration.perSecond, UInt64.size, Duration]
    at hnow ⊢
  omega

/-- A deadline is there when the wall clock has counted up to it. -/
theorem deadline_continues {m : Moment} {t : UtcTime} (hm : m.time.second ≠ 60)
    (hwall : wall.Regular) (ht : zone.Told m t) (hstarted : started ≤ now)
    (hnow : now < Bound.clockRange) :
    (Bound.ofDeadline started wall t).continues completed now = true ↔
      (deadline m).GoesOn zone wall drawn completed (now - started) := by
  obtain ⟨hleap, hsecond⟩ := zone.readings_proper hm t (List.mem_of_mem_head? ht)
  have hsince : t.since wall = t.count - wall.count := UtcTime.since_eq hleap hsecond hwall
  rw [Bound.ofDeadline, Bound.lasting_continues hstarted hnow, hsince, Int.lt_toNat]
  constructor
  · intro h
    exact ⟨t, ht, by omega⟩
  · rintro ⟨u, hu, hlt⟩
    obtain rfl : t = u := Option.some.inj (ht.symm.trans hu)
    omega

/-- **A deadline is the earlier of two readings**, if the zone keeps the order of time: the mode goes
on until local clocks show the moment for the first time. -/
theorem goesOn_deadline_iff {m : Moment} (hz : zone.Ordered m) {passed : Duration} :
    (deadline m).GoesOn zone wall drawn completed passed ↔
      ∃ t, zone.First m t ∧ wall.count + passed < t.count := by
  refine ⟨fun ⟨t, ht, hlt⟩ => ⟨t, ht.first hz, hlt⟩, fun ⟨t, ht, hlt⟩ => ?_⟩
  obtain ⟨u, hu⟩ : ∃ u, zone.Told m u :=
    Option.isSome_iff_exists.mp (List.isSome_head?.mpr (List.ne_nil_of_mem ht.mem))
  exact ⟨u, hu, ht.count_eq (hu.first hz) ▸ hlt⟩

/-- **The bound of a loop decides as its mode asks**, at every instant that the clock can show. -/
theorem continues_iff (h : mode.bound zone started wall drawn = .ok bound) (hmode : mode.Leapless)
    (hwall : wall.Regular) (hstarted : started ≤ now) (hnow : now < Bound.clockRange) :
    bound.continues completed now = true ↔
      mode.GoesOn zone wall drawn completed (now - started) := by
  cases mode with
  | infinite =>
    cases h
    exact iff_of_true rfl trivial
  | counted n =>
    cases h
    exact decide_eq_true_iff
  | random min max =>
    simp only [LoopMode.bound] at h
    split at h
    · cases h
    · cases h
      exact decide_eq_true_iff
  | timer t =>
    cases h
    exact timer_continues t hstarted hnow
  | deadline m =>
    simp only [LoopMode.bound] at h
    split at h
    · next ht =>
      cases h
      exact deadline_continues hmode hwall ht hstarted hnow
    · cases h

end LoopMode

end Lightshow
