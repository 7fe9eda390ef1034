import Lightshow.Document.Record
import Lightshow.Settings.Variables

/-!
# Reading settings

Settings are read in four steps, and the first step that fails tells why: the text is read
as a value, its variables are replaced, the fields are read, and the settings are checked.
A text without a value stands for the settings that hold by default.

## Main definitions

* `Settings.ofDocument` — the settings that a value denotes.
* `Settings.tree` — the value of a text with its variables replaced.
* `Settings.ofText`, `Settings.ofFile` — the settings of a text and of a file.
-/

namespace Lightshow

open Document

/-- A number of seconds as a span. -/
def durationOfDocument (d : Document) : Except ReadError Duration := do
  let x ← d.asFloat
  match Duration.ofSeconds? x with
  | some span => return span
  | none => .error (.seconds x)

/-- The scope that a text names. -/
def PauseScope.ofDocument (d : Document) : Except ReadError PauseScope := do
  let word ← d.asText
  match [PauseScope.perIteration, .aroundLoop].find? (·.word = word) with
  | some scope => return scope
  | none => .error (.unknownVariant word)

/-- Where nothing is written a record has no fields. -/
def recordOrNothing : Document → Document
  | .null => .absent
  | d => d

/-- The fields of the settings of runs. -/
inductive RunField where
  | ackTimeout
  | pauseScope
  deriving DecidableEq, Repr

/-- The settings of runs as records. -/
def RunSettings.format : RecordFormat RunField where
  Value
    | .ackTimeout => Duration
    | .pauseScope => PauseScope
  fields := [.ackTimeout, .pauseScope]
  name
    | .ackTimeout => "ack_timeout"
    | .pauseScope => "pause_scope"
  aliases _ := []
  read
    | .ackTimeout => durationOfDocument
    | .pauseScope => PauseScope.ofDocument
  required _ := false

/-- The settings of runs that a value denotes. -/
def RunSettings.ofDocument (d : Document) : Except ReadError RunSettings := do
  let t ← RunSettings.format.table (recordOrNothing d)
  let standard : RunSettings := {}
  return ⟨(t .ackTimeout).getD standard.ackTimeout, (t .pauseScope).getD standard.pauseScope⟩

/-- The fields of the settings of a bridge. -/
inductive BridgeField where
  | address
  | username
  | requestTimeout
  deriving DecidableEq, Repr

/-- The settings of a bridge as records. -/
def BridgeSettings.format : RecordFormat BridgeField where
  Value
    | .address => String
    | .username => String
    | .requestTimeout => Duration
  fields := [.address, .username, .requestTimeout]
  name
    | .address => "address"
    | .username => "username"
    | .requestTimeout => "request_timeout"
  aliases _ := []
  read
    | .address => asText
    | .username => asText
    | .requestTimeout => durationOfDocument
  required
    | .requestTimeout => false
    | _ => true

/-- The settings of a bridge that a value denotes. -/
def BridgeSettings.ofDocument (d : Document) : Except ReadError BridgeSettings := do
  let t ← BridgeSettings.format.table (recordOrNothing d)
  match t .address, t .username with
  | some address, some username =>
    let standard : BridgeSettings := ⟨address, username, Duration.seconds 5⟩
    return { standard with requestTimeout := (t .requestTimeout).getD standard.requestTimeout }
  | _, _ => .error .wrongLength

/-- The fields of settings. -/
inductive SettingsField where
  | run
  | bridge
  deriving DecidableEq, Repr

/-- Settings as records. -/
def Settings.format : RecordFormat SettingsField where
  Value
    | .run => RunSettings
    | .bridge => Option BridgeSettings
  fields := [.run, .bridge]
  name
    | .run => "interpreter"
    | .bridge => "bridge"
  aliases _ := []
  read
    | .run => RunSettings.ofDocument
    | .bridge => asOptional BridgeSettings.ofDocument
  required _ := false

/-- The settings that a value denotes. -/
def Settings.ofDocument (d : Document) : Except ReadError Settings := do
  let t ← Settings.format.table (recordOrNothing d)
  return ⟨(t .run).getD ({} : RunSettings), (t .bridge).join⟩

/-- An error of a document among the errors of settings. -/
def documentResult {α : Type} : Except ReadError α → Except SettingsError α
  | .ok x => .ok x
  | .error e => .error (.document e)

/-- The value of a text with its variables replaced. -/
def Settings.tree (vars : Variables) (s : String) : Except SettingsError Document := do
  (← documentResult (readYaml Document.value s)).substitute vars

/-- The settings of a text. -/
def Settings.ofText (vars : Variables) (s : String) : Except SettingsError Settings := do
  let settings ← documentResult (Settings.ofDocument (← Settings.tree vars s))
  settings.check
  return settings

/-- The settings of a file. -/
def Settings.ofFile (vars : Variables) (content : Option ByteArray) :
    Except SettingsError Settings :=
  match content with
  | none => .error (.file .missing)
  | some bytes =>
    match String.fromUTF8? bytes with
    | none => .error (.file .notText)
    | some s => Settings.ofText vars s

end Lightshow
