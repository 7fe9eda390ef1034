import Lightshow.Program.Step
import Lightshow.State.Reading

/-!
# Reading programs

The parts of a program may be written in several forms: a pause as a number of seconds or
as a record, a loop as a truth value or as a record, devices as a list or grouped. A step
is an entry whose key is its kind. A program is a record with an optional name, whose
first entry that is a step is its step; all other entries are passed over.

## Main definitions

* `TimeOption.ofDocument`, `Pause.ofDocument`, `Loop.ofDocument` — pauses and loops.
* `DeviceRef.listOfDocument` — the devices of a transition.
* `Step.ofDocument`, `Program.ofDocument` — steps and programs.
-/

namespace Lightshow

open Document

/-! ### Pauses -/

/-- The fields of a range. -/
inductive RangeField where
  | min
  | max
  deriving DecidableEq, Repr

/-- Ranges as records, both bounds being required. -/
def rangeFormat (α : Type) (bound : Document → Except ReadError α) : RecordFormat RangeField where
  Value _ := α
  fields := [.min, .max]
  name
    | .min => "min"
    | .max => "max"
  aliases _ := []
  read _ := bound
  required _ := true

/-- The bounds that a document denotes. -/
def boundsOfDocument {α : Type} (bound : Document → Except ReadError α) (d : Document) :
    Except ReadError (α × α) := do
  let t ← (rangeFormat α bound).table d
  match t .min, t .max with
  | some min, some max => return (min, max)
  | _, _ => .error .wrongLength

/-- The range that a document denotes. -/
def Jitter.ofDocument (d : Document) : Except ReadError Jitter := do
  let (min, max) ← boundsOfDocument asFloat d
  return ⟨min, max⟩

/-- The fields of a time option. -/
inductive TimeField where
  | seconds
  | jitter
  deriving DecidableEq, Repr

/-- Time options as records. -/
def TimeOption.format : RecordFormat TimeField where
  Value
    | .seconds => Float
    | .jitter => Option Jitter
  fields := [.seconds, .jitter]
  name
    | .seconds => "seconds"
    | .jitter => "jitter"
  aliases
    | .seconds => []
    | .jitter => ["random"]
  read
    | .seconds => asFloat
    | .jitter => asOptional Jitter.ofDocument
  required _ := false

/-- The time option with the fields of a table. -/
def TimeOption.ofTable (t : TimeOption.format.Table) : TimeOption where
  seconds := (t .seconds).getD (0 : Float)
  jitter := (t .jitter).join

/-- The time option that a document denotes: a number of seconds, or a record. -/
def TimeOption.ofDocument : Document → Except ReadError TimeOption :=
  firstFit
    [fun d => TimeOption.fixed <$> d.asFloat,
     fun d => TimeOption.ofTable <$> TimeOption.format.table d]

/-- The fields of a pause. -/
inductive PauseField where
  | before
  | after
  deriving DecidableEq, Repr

/-- Pauses as records. -/
def Pause.format : RecordFormat PauseField where
  Value _ := Option TimeOption
  fields := [.before, .after]
  name
    | .before => "before"
    | .after => "after"
  aliases _ := []
  read _ := asOptional TimeOption.ofDocument
  required _ := false

/-- The pause with the fields of a table. -/
def Pause.ofTable (t : Pause.format.Table) : Pause where
  before := (t .before).join
  after := (t .after).join

/-- The pause that a document denotes: a number of seconds afterwards, or a record. -/
def Pause.ofDocument : Document → Except ReadError Pause :=
  firstFit
    [fun d => return { after := some (TimeOption.fixed (← d.asFloat)) },
     fun d => Pause.ofTable <$> Pause.format.table d]

/-! ### Loops -/

/-- A document asked for a whole number of 64 bits. -/
def asCount (d : Document) : Except ReadError UInt64 := UInt64.ofNat <$> d.asWord 64

/-- The fields of a timer. -/
inductive TimerField where
  | hours
  | minutes
  | seconds
  deriving DecidableEq, Repr

/-- Timers as records. -/
def Timer.format : RecordFormat TimerField where
  Value _ := UInt64
  fields := [.hours, .minutes, .seconds]
  name
    | .hours => "hours"
    | .minutes => "minutes"
    | .seconds => "seconds"
  aliases _ := []
  read _ := asCount
  required _ := false

/-- The timer that a document denotes. -/
def Timer.ofDocument (d : Document) : Except ReadError Timer := do
  let t ← Timer.format.table d
  return ⟨(t .hours).getD (0 : UInt64), (t .minutes).getD (0 : UInt64),
    (t .seconds).getD (0 : UInt64)⟩

/-- The fields of a deadline. -/
inductive DeadlineField where
  | date
  | time
  deriving DecidableEq, Repr

/-- Deadlines as records of two texts. -/
def Deadline.format : RecordFormat DeadlineField where
  Value _ := String
  fields := [.date, .time]
  name
    | .date => "date"
    | .time => "time"
  aliases _ := []
  read _ := asText
  required _ := true

/-- The deadline that a document denotes. -/
def Deadline.ofDocument (d : Document) : Except ReadError Deadline := do
  let t ← Deadline.format.table d
  match t .date, t .time with
  | some date, some time => Deadline.read date time
  | _, _ => .error .wrongLength

/-- The fields of a loop. -/
inductive LoopField where
  | infinite
  | count
  | random
  | timer
  | deadline
  | pause
  deriving DecidableEq, Repr

/-- What a field of a loop holds. -/
def LoopField.Value : LoopField → Type
  | infinite => Bool
  | count => Option UInt64
  | random => Option (UInt64 × UInt64)
  | timer => Option Timer
  | deadline => Option Deadline
  | pause => Option TimeOption

/-- The value of a field of a loop that a document denotes. -/
def LoopField.read : (f : LoopField) → Document → Except ReadError f.Value
  | infinite => asBool
  | count => asOptional asCount
  | random => asOptional (boundsOfDocument asCount)
  | timer => asOptional Timer.ofDocument
  | deadline => asOptional Deadline.ofDocument
  | pause => asOptional TimeOption.ofDocument

/-- Loops as records. -/
def Loop.format : RecordFormat LoopField where
  Value := LoopField.Value
  fields := [.infinite, .count, .random, .timer, .deadline, .pause]
  name
    | .infinite => "infinite"
    | .count => "count"
    | .random => "random"
    | .timer => "timer"
    | .deadline => "deadline"
    | .pause => "pause"
  aliases
    | .count => ["counted"]
    | _ => []
  read := LoopField.read
  required _ := false

/-- The modes that the fields of a table ask for. -/
def Loop.modes (t : Loop.format.Table) : List LoopMode :=
  (bif (t .infinite).getD false then [.infinite] else [])
    ++ ((t .count).join.map LoopMode.counted).toList
    ++ ((t .random).join.map fun (min, max) => LoopMode.random min max).toList
    ++ ((t .timer).join.map LoopMode.timer).toList
    ++ ((t .deadline).join.map LoopMode.deadline).toList

/-- The loop with the fields of a table: at most one mode, and one iteration if there is
none. -/
def Loop.ofTable (t : Loop.format.Table) : Except ReadError Loop :=
  match Loop.modes t with
  | [] => .ok ⟨.counted 1, (t .pause).join⟩
  | [mode] => .ok ⟨mode, (t .pause).join⟩
  | modes => .error (.loopModes (modes.map LoopMode.word))

/-- The loop that a document denotes: a truth value, or a record. -/
def Loop.ofDocument (d : Document) : Except ReadError Loop := do
  let choice ← firstFit
    [fun d => return Sum.inl (← d.asBool), fun d => return Sum.inr (← Loop.format.table d)] d
  match choice with
  | .inl true => return ⟨.infinite, none⟩
  | .inl false => return Loop.once
  | .inr t => Loop.ofTable t

/-! ### Transitions -/

/-- The reference that a document denotes. -/
def DeviceRef.ofDocument (d : Document) : Except ReadError DeviceRef := do
  DeviceRef.read (← d.asText)

/-- The fields of grouped devices. -/
inductive DevicesField where
  | inputs
  | lights
  | groups
  deriving DecidableEq, Repr

/-- What a field of grouped devices holds. -/
def DevicesField.Value : DevicesField → Type
  | inputs => Option (List DeviceRef)
  | lights | groups => List String

/-- Grouped devices as records. The inputs are one reference or a list. -/
def devicesFormat : RecordFormat DevicesField where
  Value := DevicesField.Value
  fields := [.inputs, .lights, .groups]
  name
    | .inputs => "inputs"
    | .lights => "lights"
    | .groups => "groups"
  aliases _ := []
  read
    | .inputs => asOptional (firstFit
        [fun d => return [← DeviceRef.ofDocument d], asList DeviceRef.ofDocument])
    | .lights => asList asText
    | .groups => asList asText
  required _ := false

/-- Whether a reference is to an input, or to all of them. -/
def DeviceRef.isInput : DeviceRef → Bool
  | .input _ | .allInputs => true
  | .light _ | .group _ => false

/-- The references of grouped devices: inputs, lights, groups. Names are taken as they
stand, and no light or group may stand among the inputs. -/
def DeviceRef.ofGroups (inputs : List DeviceRef) (lights groups : List String) :
    Except ReadError (List DeviceRef) :=
  if inputs.all DeviceRef.isInput then
    .ok (inputs ++ lights.map .light ++ groups.map .group)
  else .error .inputs

/-- The devices that a document denotes: a list of references, or a record of groups. -/
def DeviceRef.listOfDocument (d : Document) : Except ReadError (List DeviceRef) := do
  let choice ← firstFit
    [fun d => return Sum.inl (← d.asList DeviceRef.ofDocument),
     fun d => return Sum.inr (← devicesFormat.table d)] d
  match choice with
  | .inl refs => return refs
  | .inr t =>
    let lights : Option (List String) := t .lights
    let groups : Option (List String) := t .groups
    DeviceRef.ofGroups ((t .inputs).join.getD []) (lights.getD []) (groups.getD [])

/-- The fields of a transition. -/
inductive TransitionField where
  | state
  | devices
  | wait
  | pause
  deriving DecidableEq, Repr

/-- What a field of a transition holds. -/
def TransitionField.Value : TransitionField → Type
  | state => DeviceState
  | devices => List DeviceRef
  | wait => Bool
  | pause => Pause

/-- Transitions as records. -/
def Transition.format : RecordFormat TransitionField where
  Value := TransitionField.Value
  fields := [.state, .devices, .wait, .pause]
  name
    | .state => "state"
    | .devices => "devices"
    | .wait => "wait"
    | .pause => "pause"
  aliases _ := []
  read
    | .state => DeviceState.ofDocument
    | .devices => DeviceRef.listOfDocument
    | .wait => asBool
    | .pause => Pause.ofDocument
  required
    | .state => true
    | _ => false

/-- The transition that a document denotes. -/
def Transition.ofDocument (d : Document) : Except ReadError Transition := do
  let t ← Transition.format.table d
  match t .state with
  | some state => return {
      state := state
      devices := t .devices
      wait := (t .wait).getD false
      pause := (t .pause).getD {} }
  | none => .error .wrongLength

/-! ### Steps -/

/-- The fields of a composite. -/
inductive CompositeField where
  | steps
  | loop
  | pause
  deriving DecidableEq, Repr

/-- What a field of a composite holds. -/
def CompositeField.Value : CompositeField → Type
  | steps => List Step
  | loop => Loop
  | pause => Pause

/-- Composites as records, given a reader for the steps inside. -/
def compositeFormat (readStep : Document → Except ReadError Step) :
    RecordFormat CompositeField where
  Value := CompositeField.Value
  fields := [.steps, .loop, .pause]
  name
    | .steps => "steps"
    | .loop => "loop"
    | .pause => "pause"
  aliases _ := []
  read
    | .steps => asList readStep
    | .loop => Loop.ofDocument
    | .pause => Pause.ofDocument
  required
    | .steps => true
    | _ => false

/-- The composite that a document denotes. -/
def compositeOfDocument (readStep : Document → Except ReadError Step) (order : Order)
    (d : Document) : Except ReadError Step := do
  let t ← (compositeFormat readStep).table d
  match t .steps with
  | some steps => return .composite order steps ((t .loop).getD Loop.once) ((t .pause).getD {})
  | none => .error .wrongLength

/-- The step of a kind that a document denotes. -/
def Step.ofBody (readStep : Document → Except ReadError Step) (kind : StepKind) (d : Document) :
    Except ReadError Step :=
  match kind with
  | .transition => Step.transition <$> Transition.ofDocument d
  | .serial => compositeOfDocument readStep .serial d
  | .parallel => compositeOfDocument readStep .parallel d

/-- The kind that a text names. -/
def StepKind.ofText (word : String) : Except ReadError StepKind :=
  match StepKind.ofWord? word with
  | some kind => .ok kind
  | none => .error (.unknownVariant word)

/-- The kind that a key stands for. In a plain value a number stands for the kind with that
number. -/
def StepKind.ofKey (form : Form) (key : Document) : Except ReadError StepKind :=
  match form, key with
  | _, .text word => StepKind.ofText word
  | .settled, .int n =>
    if n < 0 then .error .wrongType
    else
      match StepKind.all[n.toNat]? with
      | some kind => .ok kind
      | none => .error .outOfRange
  | _, key => .error key.mismatch

/-- A text where a step should be: it lacks the body of the step. -/
def Step.refuseWord (word : String) : Except ReadError Step := do
  let _ ← StepKind.ofText word
  .error .wrongType

/-- A node of a YAML text as a step: its tag is the kind. -/
def Step.ofTag (readBody : StepKind → Document → Except ReadError Step) (tag : Option String)
    (d : Document) (untagged : Except ReadError Step) : Except ReadError Step :=
  match Scalar.ownTag? tag with
  | some word => do readBody (← StepKind.ofText word) d
  | none => untagged

/-- The entry that makes a record a step: its key is the kind. A plain value has one entry;
a JSON text is refused where a second one begins. -/
def Step.ofEntries (readBody : StepKind → Document → Except ReadError Step) (form : Form)
    (entries : List (Document × Document)) : Except ReadError Step :=
  match form, entries with
  | .json, [] => .error .malformed
  | .json, (key, d) :: rest => do
    let step ← readBody (← StepKind.ofKey .json key) d
    if rest.isEmpty then return step else .error .malformed
  | form, [(key, d)] => do readBody (← StepKind.ofKey form key) d
  | _, _ => .error .outOfRange

/-- A document as a step, given a reader for the bodies of steps. `outer` is the form of the
text that the document stands in. -/
def Step.ofNode (readBody : StepKind → Document → Except ReadError Step) (outer : Form)
    (d : Document) : Except ReadError Step :=
  match d with
  | .record (.yaml tag) _ => Step.ofTag readBody tag d (.error .wrongType)
  | .record form entries => Step.ofEntries readBody form entries
  | .list (.yaml tag) _ => Step.ofTag readBody tag d (.error .wrongType)
  | .scalar s => Step.ofTag readBody s.tag d (Step.refuseWord s.text)
  | .text word => Step.refuseWord word
  | .absent => .error .malformed
  | .broken e => .error e
  | _ => if outer = .json then .error .malformed else .error .wrongType

/-- The step that a document denotes, if it nests no deeper than `limit`. -/
def Step.ofDocumentWithin (outer : Form) : Nat → Document → Except ReadError Step
  | 0, _ => .error .tooDeep
  | limit + 1, d => Step.ofNode (Step.ofBody (Step.ofDocumentWithin outer limit)) outer d

/-- The step that a document denotes. -/
def Step.ofDocument (outer : Form) (d : Document) : Except ReadError Step :=
  Step.ofDocumentWithin outer d.depth d

/-! ### Programs -/

/-- What has been found of a program: its name, and the settled entries that are not its name. -/
structure ProgramParts where
  name : Option (Option String) := none
  others : List (String × Document) := []

/-- The parts of a program among its entries. -/
def ProgramParts.ofEntries (parts : ProgramParts) :
    List (Document × Document) → Except ReadError ProgramParts
  | [] => .ok parts
  | (key, d) :: rest => do
    let key ← key.asText
    if key = "name" then
      if parts.name.isSome then .error (.duplicateField "name")
      else do
        let name ← asOptional asText d
        ProgramParts.ofEntries { parts with name := some name } rest
    else do
      let d ← d.settle
      ProgramParts.ofEntries { parts with others := parts.others ++ [(key, d)] } rest

/-- The first entry whose key is a kind of step. -/
def firstStep (entries : List (String × Document)) : Option (StepKind × Document) :=
  entries.findSome? fun (key, d) => (StepKind.ofWord? key).map fun kind => (kind, d)

/-- The entries of a document that stands for a program. -/
def programEntries (d : Document) : Except ReadError (List (Document × Document)) :=
  match d with
  | .record _ entries => .ok entries
  | .absent => .ok []
  | .scalar s => if s.isVoid then .ok [] else .error s.mismatch
  | d => .error d.mismatch

/-- The program that a document denotes. -/
def Program.ofDocument (d : Document) : Except ReadError Program := do
  let parts ← ProgramParts.ofEntries {} (← programEntries d)
  match firstStep parts.others with
  | none => .error .noStep
  | some (kind, body) =>
    let step ← Step.ofBody (Step.ofDocument .settled) kind body
    return ⟨parts.name.join, step⟩

end Lightshow
