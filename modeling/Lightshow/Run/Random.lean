/-!
# Random numbers

A run draws whole numbers for its random loops and floats for the random parts of its
pauses. Where the numbers come from is left open: a source answers the draw with a given
number, counted from zero, for given bounds.

* `Draw` — the request for a number.
* `RandomSource`, `RandomSource.Fair` — sources, and what is asked of them.
* `RandomSource.scripted` — the source that goes through a list again and again.
-/

namespace Lightshow

/-- A request for a number between two bounds, both included. -/
inductive Draw where
  | whole (min max : UInt64)
  | real (min max : Float)
  deriving DecidableEq, Repr

/-- A source of random numbers: the answers to the draws by their number. -/
structure RandomSource where
  whole : Nat → UInt64 → UInt64 → UInt64
  real : Nat → Float → Float → Float

namespace RandomSource

/-- A source keeps to the bounds. Where the lower bound is not below the upper one it
answers with the lower one. -/
structure Fair (source : RandomSource) : Prop where
  whole_degenerate : ∀ k min max, max ≤ min → source.whole k min max = min
  whole_bounds : ∀ k min max, min ≤ max → min ≤ source.whole k min max ∧
    source.whole k min max ≤ max
  real_degenerate : ∀ k min max, max ≤ min → source.real k min max = min
  real_bounds : ∀ k min max, min ≤ max → min ≤ source.real k min max ∧
    source.real k min max ≤ max

/-- The whole number between two bounds that a scripted number stands for. -/
def wholeOf (script min max : UInt64) : UInt64 :=
  if max ≤ min then min
  else UInt64.ofNat (min.toNat + script.toNat % (max.toNat - min.toNat + 1))

/-- The float between two bounds that a scripted number stands for: one of the thousand
and one points that divide the range evenly. -/
def realOf (script : UInt64) (min max : Float) : Float :=
  if max ≤ min then min
  else min + (max - min) * (Float.ofNat (script.toNat % 1001) / 1000)

/-- The source that goes through a list of numbers again and again. An empty list stands
for zeros. -/
def scripted (script : List UInt64) : RandomSource :=
  let number (k : Nat) : UInt64 := (script[k % script.length]?).getD 0
  ⟨fun k => wholeOf (number k), fun k => realOf (number k)⟩

end RandomSource

end Lightshow
