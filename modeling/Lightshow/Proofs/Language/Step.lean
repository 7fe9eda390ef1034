import Lightshow.Proofs.Language.Basic
import Lightshow.Proofs.Run.Writes

/-!
# The language of a step

What a step shows to an observer, by recursion on the tree.  A transition shows its pauses, that
it dispatches, and each of its devices as often as it was named, the devices shuffled.  A
composite shows each of its iterations with what its steps show, one after the other or
shuffled, and its pauses around each iteration or around all of them.

How often a composite repeats its steps depends on its loop: as often as it says, as often as
was drawn between its bounds, some number of times for a timer or a deadline, and without end
for an infinite loop.

## Main definitions

* `Transition.devicesSeen` — the devices that a transition names, each once.
* `LoopMode.times` — how often a loop may be repeated.
* `Step.language` — the language of a step.
-/

namespace Lightshow

open EventLanguage

/-- The devices that a transition names, each once, in the order in which they are first
seen. -/
def Transition.devicesSeen (resolve : DeviceRef → Except Unmapped (List Device))
    (t : Transition) : List Device := (t.named resolve).eraseDups

/-- Whether a loop may be repeated a number of times. -/
def LoopMode.times : LoopMode → ℕ∞ → Prop
  | .infinite, n => n = ⊤
  | .counted m, n => n = m.toNat
  | .random min max, n => min.toNat ≤ n ∧ n ≤ max.toNat
  | .timer _, n | .deadline _, n => n ≠ ⊤

namespace EventLanguage

/-- A pause at a path, if there is one. -/
def paused (path : Path) : Option TimeOption → EventLanguage
  | none => done
  | some _ => letter fun e => ∃ seconds, e = .paused path.text seconds

/-- A device is served `n` times, possibly in vain. -/
def served (path : Path) (d : Device) (n : ℕ) : EventLanguage :=
  concat (List.replicate n (letter fun e => ∃ error, e = .applied path.text d.label error))

/-- A transition dispatches, and each of its devices is served as often as it was named. -/
def dispatched (resolve : DeviceRef → Except Unmapped (List Device)) (path : Path)
    (t : Transition) : EventLanguage :=
  (letter (· = .transition path.text ((t.devicesSeen resolve).map Device.label))).seq
    (shuffle ((t.devicesSeen resolve).map fun d => served path d ((t.named resolve).count d)))

/-- Iteration `n` begins, and `body` follows. -/
def iteration (order : Order) (path : Path) (mode : LoopMode) (body : EventLanguage) (n : ℕ) :
    EventLanguage :=
  (letter (· = .iteration order path.text n mode.word)).seq body

end EventLanguage

mutual

/-- The language of a step at a path. -/
def Step.language (resolve : DeviceRef → Except Unmapped (List Device)) (scope : PauseScope)
    (path : Path) : Step → EventLanguage
  | .transition t =>
    (paused path t.pause.before).seq ((dispatched resolve path t).seq (paused path t.pause.after))
  | .composite order steps loop pause =>
    let children := Step.languages resolve scope path 0 steps
    let once := match order with
      | .serial => concat children
      | .parallel => shuffle children
    match scope with
    | .perIteration =>
      repeated loop.mode.times
        (iteration order path loop.mode
          ((paused path pause.before).seq
            (once.seq ((paused path pause.after).seq (paused path loop.pause))))) 0
    | .aroundLoop =>
      (paused path pause.before).seq
        ((repeated loop.mode.times
          (iteration order path loop.mode (once.seq (paused path loop.pause))) 0).seq
            (paused path pause.after))

/-- The languages of the steps of a composite at a path, of which the first has number
`index`. -/
def Step.languages (resolve : DeviceRef → Except Unmapped (List Device)) (scope : PauseScope)
    (path : Path) (index : ℕ) : List Step → List EventLanguage
  | [] => []
  | s :: rest =>
    Step.language resolve scope (.child path index s.kind) s
      :: Step.languages resolve scope path (index + 1) rest

end

end Lightshow
