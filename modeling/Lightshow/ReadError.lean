import Lightshow.Decimal.Shortest

/-!
# Why a text or a document is refused

Everything that is read — a reference, a brightness, a program, the settings —
is refused for one of the causes below. Only some causes have a wording of their
own; the others are told by their kind alone.
-/

namespace Lightshow

/-- The cause of a refusal. -/
inductive ReadError where
  /-- A record lacks a field that it must have. -/
  | missingField (name : String)
  /-- A record has a field that it does not know. -/
  | unknownField (name : String)
  /-- A choice by name among names that do not include this one. -/
  | unknownVariant (name : String)
  /-- A record gives one field twice, under its own name or another. -/
  | duplicateField (name : String)
  /-- None of the forms that a value may take fits. -/
  | noVariant
  /-- A program has no step. -/
  | noStep
  /-- A value of another kind stands where it cannot. -/
  | wrongType
  /-- A whole number that does not fit, or a step with more or fewer kinds than one. -/
  | outOfRange
  /-- A list that stands for a record or a pair is too short or too long. -/
  | wrongLength
  /-- The text nests too deep. -/
  | tooDeep
  /-- The text is not in its format. -/
  | malformed
  /-- A mapping has one key twice. -/
  | duplicateKey
  /-- A brightness is no level and no step. -/
  | brightness (text : String)
  /-- A text names no device. -/
  | deviceRef (text : String)
  /-- A loop is given more than one mode. -/
  | loopModes (names : List String)
  /-- The date of a deadline is none. -/
  | deadlineDate (text : String)
  /-- The time of a deadline is none. -/
  | deadlineTime (text : String)
  /-- A light or a group stands among the inputs. -/
  | inputs
  /-- A number of seconds that is no span of time. -/
  | seconds (x : Float)
  deriving DecidableEq, Repr

/-- The wording of a cause, where it has one. -/
def ReadError.message : ReadError → Option String
  | .missingField name => some ("missing field `" ++ name ++ "`")
  | .unknownField name => some ("unknown field `" ++ name ++ "`")
  | .unknownVariant name => some ("unknown variant `" ++ name ++ "`")
  | .duplicateField name => some ("duplicate field `" ++ name ++ "`")
  | .brightness text =>
    some ("invalid brightness '" ++ text ++ "': expected 0-254 or a signed step such as '+20'")
  | .deviceRef text => some ("invalid device reference '" ++ text ++ "'")
  | .loopModes names => some ("loop may only use one of " ++ ", ".intercalate names)
  | .deadlineDate text => some ("invalid deadline date '" ++ text ++ "'")
  | .deadlineTime text => some ("invalid deadline time '" ++ text ++ "'")
  | .inputs =>
    some "'devices.inputs' must be '$all' or a list of input variables ($1, $2, ...)"
  | .seconds x =>
    some ("expected a non-negative number of seconds, got " ++ Decimal.plainText x)
  | .noVariant | .noStep | .wrongType | .outOfRange | .wrongLength | .tooDeep
  | .malformed | .duplicateKey => none

end Lightshow
