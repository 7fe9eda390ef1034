import Lightshow.Proofs.Number.Sum
import Lightshow.Run.World

/-!
# The length of a pause

A time option comes to its seconds and whatever is drawn, added as floats, and the pause that it
makes is the span nearest to that, or none if it is negative.  There is one exception, which the
check of a program does not exclude: `2 ^ 64` seconds or more are no span, and a time option that
comes to so much makes no pause at all.  Short of this, a pause does not get shorter when its
seconds or its draw grow; past it, it does.

## Main definitions

* `TimeOption.total` — the seconds that a time option comes to.
* `TimeOption.Fits` — it comes to less than `2 ^ 64` seconds.
* `TimeOption.Admits` — a draw that a time option allows.

## Main results

* `TimeOption.duration_nearest`, `TimeOption.duration_le_duration` — the length of a pause that
  fits, and the order of two of them.
* `TimeOption.duration_of_accepted` — **the pauses of options without flaws.**
* `World.drawDuration_admits` — a fair source draws what is admitted.
-/

namespace Lightshow

open Float.Model (UnpackedFloat)

/-! ### Seconds as spans -/

theorem zero_unpack : (0 : Float).toModel.unpack = .zero .positive := rfl

theorem zero_lt_of_unpack {x : Float} {m : ℕ} {e : ℤ} {h : 0 < m}
    (hx : x.toModel.unpack = .finite .positive m e h) : 0 < x := by
  rw [float_lt_iff, hx, zero_unpack]
  rfl

/-- A positive number of seconds below `2 ^ 64` is a span. -/
theorem ofSeconds?_of_unpack {x : Float} {m : ℕ} {e : ℤ} {h : 0 < m}
    (hx : x.toModel.unpack = .finite .positive m e h) :
    Duration.ofSeconds? x =
      if (m : ℚ) * 2 ^ e < 2 ^ 64 then some (roundScaled Duration.perSecond m e) else none := by
  have hiff : m <<< e.toNat < UInt64.size <<< (-e).toNat ↔ (m : ℚ) * 2 ^ e < 2 ^ 64 := by
    have hpos : (0 : ℚ) < (1 <<< (-e).toNat : ℕ) := by exact_mod_cast one_shiftLeft_pos _
    rw [← shift_div_shift, div_lt_iff₀ hpos, Nat.shiftLeft_eq UInt64.size, ← Nat.one_shiftLeft]
    exact_mod_cast Iff.rfl
  rw [Duration.ofSeconds?, hx]
  simp only [hiff]

namespace TimeOption

/-- The seconds that a time option comes to, the draw included. -/
def total (o : TimeOption) (part : Float) : ℚ := floatValue (o.seconds + part)

/-- What a time option comes to is a number of seconds that a span can have. -/
structure Fits (o : TimeOption) (part : Float) : Prop where
  isFinite : (o.seconds + part).isFinite = true
  lt : o.total part < 2 ^ 64

/-- A draw that a time option allows: within its bounds, and nothing if it has none. -/
def Admits (o : TimeOption) (part : Float) : Prop :=
  o.jitter.elim (part = 0) fun j => j.min ≤ part ∧ part ≤ j.max

/-- What comes to nothing or less makes no pause. -/
theorem duration_of_total_nonpos {o : TimeOption} {part : Float} (h : o.total part ≤ 0) :
    o.duration part = 0 := by
  by_cases hpos : 0 < o.seconds + part
  · cases hx : (o.seconds + part).toModel.unpack with
    | finite s m e hm =>
      cases s with
      | positive =>
        rw [total, floatValue, hx] at h
        exact absurd h (magnitude_pos hm e).not_ge
      | negative =>
        rw [float_lt_iff, hx] at hpos
        exact absurd hpos nofun
    | infinity s =>
      have hnone : Duration.ofSeconds? (o.seconds + part) = none := by
        rw [Duration.ofSeconds?, hx]
      rw [duration, if_pos hpos, hnone]
      rfl
    | _ =>
      rw [float_lt_iff, hx] at hpos
      exact absurd hpos nofun
  · exact if_neg hpos

/-- What comes to a positive number of seconds lasts that long, if it fits. -/
theorem duration_of_total_pos {o : TimeOption} {part : Float} (h : 0 < o.total part) :
    ∃ m e, Canonical m e ∧ o.total part = m * 2 ^ e ∧
      o.duration part =
        if o.total part < 2 ^ 64 then roundScaled Duration.perSecond m e else 0 := by
  cases hx : (o.seconds + part).toModel.unpack with
  | finite s m e hm =>
    cases s with
    | positive =>
      have htotal : o.total part = m * 2 ^ e := by rw [total, floatValue, hx]; rfl
      have hcanonical := canonicalFloat_toModel (o.seconds + part)
      rw [hx] at hcanonical
      refine ⟨m, e, hcanonical, htotal, ?_⟩
      rw [duration, if_pos (zero_lt_of_unpack hx), ofSeconds?_of_unpack hx, htotal]
      split
      · exact Option.getD_some
      · exact Option.getD_none
    | negative =>
      rw [total, floatValue, hx] at h
      exact absurd h (neg_nonpos.mpr (magnitude_pos hm e).le).not_gt
  | _ =>
    rw [total, floatValue, hx] at h
    exact absurd h (lt_irrefl 0)

/-- What comes to more than a span can have makes no pause at all. -/
theorem duration_of_not_fits {o : TimeOption} {part : Float} (h : ¬o.Fits part) :
    o.duration part = 0 := by
  by_cases hfinite : (o.seconds + part).isFinite = true
  · have hlong : ¬o.total part < 2 ^ 64 := fun hlt => h ⟨hfinite, hlt⟩
    have hpos : 0 < o.total part := lt_of_lt_of_le (by norm_num) (not_lt.mp hlong)
    obtain ⟨m, e, -, -, hduration⟩ := duration_of_total_pos hpos
    rw [hduration, if_neg hlong]
  · -- an infinite sum counts as nothing here, and the length of the pause agrees with that
    refine duration_of_total_nonpos (le_of_eq ?_)
    rw [total, floatValue]
    cases hx : (o.seconds + part).toModel.unpack with
    | infinity s => rfl
    | notANumber => rfl
    | _ => exact absurd ((congrArg UnpackedFloat.isFinite hx).trans rfl) hfinite

/-- A canonical number of seconds below `2 ^ 64` is still below when it is rounded. -/
theorem roundScaled_representable {m : ℕ} {e : ℤ} (hm : Canonical m e)
    (h : (m : ℚ) * 2 ^ e < 2 ^ 64) :
    Duration.Representable (roundScaled Duration.perSecond m e) := by
  -- the greatest number below the limit has all its bits set
  have hmax : (m : ℚ) * 2 ^ e ≤ (2 ^ 53 - 1 : ℕ) * 2 ^ (11 : ℤ) := by
    rcases le_or_gt e 11 with hle | hgt
    · have hmant : (m : ℚ) ≤ (2 ^ 53 - 1 : ℕ) := by exact_mod_cast Nat.le_pred_of_lt hm.lt
      have hexp : (2 : ℚ) ^ e ≤ 2 ^ (11 : ℤ) := zpow_le_zpow_right₀ one_le_two hle
      gcongr
    · have hmant : (2 : ℚ) ^ 52 ≤ m := by exact_mod_cast hm.full.resolve_right (by omega)
      have hexp : (2 : ℚ) ^ (12 : ℤ) ≤ 2 ^ e := zpow_le_zpow_right₀ one_le_two hgt
      have hlong : (2 : ℚ) ^ 52 * 2 ^ (12 : ℤ) ≤ m * 2 ^ e := by gcongr
      norm_num at hlong h
      exact absurd h hlong.not_gt
  calc roundScaled Duration.perSecond m e
      ≤ roundScaled Duration.perSecond (2 ^ 53 - 1) 11 := roundScaled_le_roundScaled _ hmax
    _ < Duration.limit := by decide

/-- **A pause that fits has the length nearest to what it comes to.** -/
theorem duration_nearest {o : TimeOption} {part : Float} (h : o.Fits part) :
    NearestNat (Duration.perSecond * max 0 (o.total part)) (o.duration part) := by
  rcases le_or_gt (o.total part) 0 with hle | hpos
  · rw [duration_of_total_nonpos hle, max_eq_left hle, mul_zero]
    exact .of_abs_le (by norm_num)
  · obtain ⟨m, e, -, htotal, hduration⟩ := duration_of_total_pos hpos
    rw [hduration, if_pos h.lt, max_eq_right hpos.le, htotal]
    exact roundScaled_nearest _ _ _

/-- Every pause is a span that can be had. -/
theorem duration_representable (o : TimeOption) (part : Float) :
    Duration.Representable (o.duration part) := by
  rcases le_or_gt (o.total part) 0 with hle | hpos
  · rw [duration_of_total_nonpos hle]
    decide
  · obtain ⟨m, e, hm, htotal, hduration⟩ := duration_of_total_pos hpos
    rw [hduration]
    split
    · next hlt => exact roundScaled_representable hm (htotal ▸ hlt)
    · decide

/-- **Of two pauses the one that comes to more is no shorter, if it fits.** -/
theorem duration_le_duration {o o' : TimeOption} {part part' : Float}
    (hle : o.total part ≤ o'.total part') (h : o'.Fits part') :
    o.duration part ≤ o'.duration part' := by
  rcases le_or_gt (o.total part) 0 with hnonpos | hpos
  · rw [duration_of_total_nonpos hnonpos]
    exact Nat.zero_le _
  · obtain ⟨m, e, -, htotal, hduration⟩ := duration_of_total_pos hpos
    obtain ⟨m', e', -, htotal', hduration'⟩ := duration_of_total_pos (hpos.trans_le hle)
    rw [hduration, if_pos (hle.trans_lt h.lt), hduration', if_pos h.lt]
    rw [htotal, htotal'] at hle
    exact roundScaled_le_roundScaled _ hle

/-! ### Accepted options -/

/-- What is drawn between finite bounds is finite. -/
theorem Admits.isFinite {o : TimeOption} (ho : o.WellFormed) {part : Float} (h : o.Admits part) :
    part.isFinite = true := by
  unfold Admits at h
  cases hj : o.jitter with
  | none =>
    rw [hj] at h
    rw [show part = 0 from h]
    rfl
  | some j =>
    rw [hj] at h
    obtain ⟨hmin, hmax, -⟩ := ho.2 j hj
    exact isFinite_of_le_of_le hmin hmax h.1 h.2

/-- **A time option without flaws makes a pause that is as near as can be to what it comes to, if
that fits, and none otherwise; and it makes no longer a pause than one with no fewer seconds and
no smaller a draw, if that one fits.** -/
theorem duration_of_accepted {o : TimeOption} (ho : o.flaw? = none) {part : Float}
    (hpart : o.Admits part) :
    (o.Fits part → Duration.Representable (o.duration part) ∧
      NearestNat (Duration.perSecond * max 0 (o.total part)) (o.duration part)) ∧
    (¬o.Fits part → o.duration part = 0) ∧
    ∀ o' part', flaw? o' = none → o'.Admits part' → o.seconds ≤ o'.seconds → part ≤ part' →
      o'.Fits part' → o.duration part ≤ o'.duration part' := by
  refine ⟨fun h => ⟨duration_representable o part, duration_nearest h⟩, duration_of_not_fits, ?_⟩
  intro o' part' ho' hpart' hseconds hparts hfits'
  have hwell := (flaw?_eq_none_iff o).mp ho
  have hwell' := (flaw?_eq_none_iff o').mp ho'
  -- adding keeps order among finite sums only, but the other sums make no pause
  by_cases hfits : o.Fits part
  · exact duration_le_duration (floatValue_add_le hwell.1.1 hwell'.1.1 (hpart.isFinite hwell)
      (hpart'.isFinite hwell') hseconds hparts hfits.isFinite hfits'.isFinite) hfits'
  · rw [duration_of_not_fits hfits]
    exact Nat.zero_le _

/-- Some seconds, give or take half a second. -/
def around (seconds : Float) : TimeOption := ⟨seconds, some ⟨-0.5, 0.5⟩⟩

theorem around_accepted :
    (around 1.5).duration 0.25 = 1750000000 ∧
      NearestNat (Duration.perSecond * max 0 ((around 1.5).total 0.25))
        ((around 1.5).duration 0.25) ∧
      (around 1.5).duration 0.25 ≤ (around 2).duration 0.5 ∧ (fixed 1e20).duration 0 = 0 := by
  have hsmall : (around 1.5).flaw? = none := by decide +kernel
  have hgreat : (around 2).flaw? = none := by decide +kernel
  have hdraw : (around 1.5).Admits 0.25 := ⟨by decide +kernel, by decide +kernel⟩
  have hdraw' : (around 2).Admits 0.5 := ⟨by decide +kernel, by decide +kernel⟩
  have hfits : (around 1.5).Fits 0.25 := ⟨by decide +kernel, by decide +kernel⟩
  have hfits' : (around 2).Fits 0.5 := ⟨by decide +kernel, by decide +kernel⟩
  have hfixed : (fixed 1e20).flaw? = none := by decide +kernel
  have hlong : ¬(fixed 1e20).Fits 0 := fun h => absurd h.lt (by decide +kernel)
  obtain ⟨hnear, -, hmono⟩ := duration_of_accepted hsmall hdraw
  obtain ⟨-, hdropped, -⟩ := duration_of_accepted hfixed (rfl : (fixed 1e20).Admits 0)
  exact ⟨by decide +kernel, (hnear hfits).2,
    hmono _ _ hgreat hdraw' (by decide +kernel) (by decide +kernel) hfits', hdropped hlong⟩

/-- A pause of `10 ^ 20` seconds is accepted and is not made, though there are spans much closer
to it and a shorter pause is made. -/
theorem long_pause_dropped :
    (fixed 1e20).flaw? = none ∧ (fixed 1e20).Admits 0 ∧ (fixed 1e20).total 0 = 10 ^ 20 ∧
      (fixed 1e20).duration 0 = 0 ∧
      (∃ d, Duration.Representable d ∧
        |(d : ℚ) - Duration.perSecond * max 0 ((fixed 1e20).total 0)| <
          |((fixed 1e20).duration 0 : ℚ) - Duration.perSecond * max 0 ((fixed 1e20).total 0)|) ∧
      (fixed 1e19).flaw? = none ∧ (1e19 : Float) ≤ 1e20 ∧
      (fixed 1e20).duration 0 < (fixed 1e19).duration 0 := by
  exact ⟨by decide +kernel, rfl, by decide +kernel, by decide +kernel,
    ⟨Duration.limit - 1, by decide, by decide +kernel⟩, by decide +kernel, by decide +kernel,
    by decide +kernel⟩

end TimeOption

/-- **A pause of a run is made with a draw that its time option allows.** -/
theorem World.drawDuration_admits {env : Environment} (henv : env.random.Fair) {o : TimeOption}
    (ho : o.flaw? = none) (w : World) :
    ∃ part, o.Admits part ∧ (w.drawDuration env o).1 = o.duration part := by
  have hwell := (o.flaw?_eq_none_iff).mp ho
  unfold drawDuration TimeOption.Admits
  cases hj : o.jitter with
  | none => exact ⟨0, rfl, rfl⟩
  | some j => exact ⟨_, henv.real_bounds _ _ _ (hwell.2 j hj).2.2, rfl⟩

end Lightshow
