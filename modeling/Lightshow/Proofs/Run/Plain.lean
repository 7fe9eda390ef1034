import Lightshow.Run.Machine

/-!
# A plain world

What is shown about runs sometimes rests on what is asked of a source of random numbers.  Here
we see that this can be had: the source that always answers with the lower bound is fair.  With
it comes a plain world, in which lights are known by their names, every call succeeds at once
and nobody cancels, and the simplest of programs.

## Main definitions

* `RandomSource.least` — the source of lower bounds.
* `Environment.plain` — the plain world.
* `Program.lamp`, `Program.lampAndSpot` — the programs.

## Main results

* `RandomSource.least_fair` — the source of lower bounds is fair.
-/

namespace Lightshow

open Float.Model (UnpackedFloat)

/-- What can be compared with something can be compared with itself. -/
theorem unpacked_le_self {a b : UnpackedFloat} (h : a.le b = true) : a.le a = true := by
  cases a with
  | notANumber => exact absurd h Bool.false_ne_true
  | infinity s => cases s <;> rfl
  | zero s => rfl
  | finite s m e hm =>
    cases s with
    | negative =>
      show (((compare e e).then (compare m m)).swap).isLE = true
      rw [Std.compare_self, Std.compare_self]
      rfl
    | positive =>
      show ((compare e e).then (compare m m)).isLE = true
      rw [Std.compare_self, Std.compare_self]
      rfl

theorem float_le_self {x y : Float} (h : x ≤ y) : x ≤ x := by
  have hmodel : x.toModel ≤ y.toModel := of_decide_eq_true h
  exact decide_eq_true (p := x.toModel ≤ x.toModel) (unpacked_le_self hmodel)

namespace RandomSource

/-- The source that answers with the lower bound. -/
def least : RandomSource := ⟨fun _ min _ => min, fun _ min _ => min⟩

theorem least_fair : least.Fair where
  whole_degenerate _ _ _ _ := rfl
  whole_bounds _ _ _ h := ⟨UInt64.le_refl _, h⟩
  real_degenerate _ _ _ _ := rfl
  real_bounds _ _ _ h := ⟨float_le_self h, h⟩

end RandomSource

/-- The world in which lights are known by their names and nothing goes wrong. -/
def Environment.plain : Environment where
  resolve
    | .light name => .ok [⟨.light, 1, name⟩]
    | .group name => .error (.group name)
    | .input n => .error (.input n)
    | .allInputs => .error .noInputs
  gateway _ _ := {}
  random := .least
  zone := ⟨fun _ => [0]⟩
  wall _ := ⟨0, 0, 0⟩
  ackTimeout := 0
  runId := "run"

/-- A light is served as often as a loop says. -/
def Step.light (name : String) (mode : LoopMode) : Step :=
  .composite .serial [.transition { state := {}, devices := some [.light name] }] { mode := mode } {}

/-- The program that serves a lamp as often as a loop says. -/
def Program.lamp (mode : LoopMode) : Program where
  step := .light "lamp" mode

/-- The program that serves a lamp for ever and a spot once, side by side. -/
def Program.lampAndSpot : Program where
  step := .composite .parallel [.light "lamp" .infinite, .light "spot" (.counted 1)] {} {}

end Lightshow
