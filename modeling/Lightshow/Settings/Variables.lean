import Lightshow.Document.Value
import Lightshow.Document.Yaml
import Lightshow.Settings.Basic

/-!
# Variables in settings

A value under the tag `env_var` stands for a variable of the environment. It names the
variable and, after a blank, what to take if the variable is not set. What is found stays a
text unless it reads as a truth value or as a number, so it brings no lists, records, tags
or further variables with it.

Keys may be variables too. A key that becomes equal to one before it takes over that entry.

## Main definitions

* `Variables` — the variables that are set.
* `Variables.found` — what a value that names a variable stands for.
* `Document.substitute` — a value with all its variables replaced.
-/

namespace Lightshow

open Lightshow.Text

/-- The texts of the variables that are set. -/
abbrev Variables := String → Option String

/-- The tag of values that stand for variables. -/
def variableTag : String := "env_var"

namespace Variables

/-- The name of a variable and the default, if there is one. -/
def nameAndDefault (spec : String) : String × Option String :=
  let spec := trim spec.toList
  match splitBlank spec with
  | some (name, fallback) => (String.ofList name, some (String.ofList (trim fallback)))
  | none => (String.ofList spec, none)

/-- A text as a truth value or a number if it reads as one, and else as it stands. -/
def typed (s : String) : Document :=
  match readYaml Document.value s with
  | .ok (.bool b) => .bool b
  | .ok (.int n) => .int n
  | .ok (.float x) => .float x
  | _ => .text s

/-- What the text that names a variable stands for. -/
def found (vars : Variables) (spec : String) : Except SettingsError Document :=
  let (name, fallback) := nameAndDefault spec
  match (vars name).or fallback with
  | some s => .ok (typed s)
  | none => .error (.unsetVariable name)

/-- What a value under a tag stands for. -/
def replace (vars : Variables) (tag : String) (d : Document) : Except SettingsError Document :=
  if tag = variableTag then
    match d with
    | .text spec => vars.found spec
    | _ =>
      .error (.invalid ("!" ++ variableTag) "environment variable name must be a string")
  else .error (.tag tag)

end Variables

/-- Entries with one more entry, which takes over the one with an equal key. -/
def putEntry (key d : Document) : List (Document × Document) → List (Document × Document)
  | [] => [(key, d)]
  | (k, x) :: rest => if Document.same k key then (k, d) :: rest else (k, x) :: putEntry key d rest

namespace Document

mutual

/-- A value with all its variables replaced. Keys come before their values, and the first tag
that cannot be replaced is reported. -/
def substitute (vars : Variables) : Document → Except SettingsError Document
  | tagged tag d => vars.replace tag d
  | list form items => do
    return list form (← substituteItems vars items)
  | record form entries => do
    return record form (← substituteEntries vars [] entries)
  | d => .ok d

/-- `substitute` for the items of a list. -/
def substituteItems (vars : Variables) : List Document → Except SettingsError (List Document)
  | [] => .ok []
  | d :: rest => do
    let d ← substitute vars d
    let rest ← substituteItems vars rest
    return d :: rest

/-- `substitute` for the entries of a record after those of `before`. -/
def substituteEntries (vars : Variables) (before : List (Document × Document)) :
    List (Document × Document) → Except SettingsError (List (Document × Document))
  | [] => .ok before
  | (k, d) :: rest => do
    let k ← substitute vars k
    let d ← substitute vars d
    substituteEntries vars (putEntry k d before) rest

end

end Document

end Lightshow
