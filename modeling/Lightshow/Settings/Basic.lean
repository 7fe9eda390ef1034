import Lightshow.Document.Basic
import Lightshow.Program.Pause
import Lightshow.Text.Blank

/-!
# Settings

Settings say how programs are run and where the bridge is. They come from a file in which
variables of the environment may stand for values.

## Main definitions

* `RunSettings`, `BridgeSettings`, `Settings` — the settings.
* `Settings.check` — whether they can be used.
* `SettingsError` — why settings are refused.
* `Settings.document` — settings as a document.
-/

namespace Lightshow

open Lightshow.Text

/-- How programs are run. -/
structure RunSettings where
  /-- How long to wait for an acknowledgement after the fade. -/
  ackTimeout : Duration := Duration.seconds 10
  pauseScope : PauseScope := .perIteration
  deriving DecidableEq, Repr

/-- Where the bridge is and how to talk to it. -/
structure BridgeSettings where
  /-- A host, possibly with a scheme before it and a port after it. -/
  address : String
  username : String
  requestTimeout : Duration := Duration.seconds 5
  deriving DecidableEq, Repr

/-- The settings of a file. -/
structure Settings where
  run : RunSettings := {}
  bridge : Option BridgeSettings := none
  deriving DecidableEq, Repr

/-! ### Refusals -/

/-- Why a file is not read. -/
inductive FileError where
  | missing
  | notText
  deriving DecidableEq, Repr

/-- The wording of a file that is not read. -/
def FileError.message : FileError → String
  | missing => "No such file or directory (os error 2)"
  | notText => "stream did not contain valid UTF-8"

/-- Why settings are refused. -/
inductive SettingsError where
  | file (cause : FileError)
  | document (cause : ReadError)
  /-- A variable is not set, and no default is given. -/
  | unsetVariable (name : String)
  /-- A tag that means nothing here. -/
  | tag (name : String)
  | invalid (key reason : String)
  deriving DecidableEq, Repr

/-- The wording of a refusal. `source` is what the settings are called. -/
def SettingsError.message (source : String) : SettingsError → String
  | file cause => "failed to read file " ++ source ++ ": " ++ cause.message
  | document cause => "failed to parse YAML in " ++ source ++ ": " ++ cause.message.getD ""
  | unsetVariable name => "environment variable '" ++ name ++ "' not set"
  | tag name => "unsupported YAML tag '!" ++ name ++ "'"
  | invalid key reason => "invalid configuration value for '" ++ key ++ "': " ++ reason

/-! ### Checking -/

/-- A text of nothing but blanks. -/
def isBlankText (s : String) : Bool := (trim s.toList).isEmpty

/-- Refuses a span of no time. -/
def checkSpan (key : String) (d : Duration) : Except SettingsError Unit :=
  if d = 0 then .error (.invalid key "must be greater than zero") else .ok ()

/-- Refuses a blank text. -/
def checkText (key s : String) : Except SettingsError Unit :=
  if isBlankText s then .error (.invalid key "must not be empty") else .ok ()

/-- Refuses settings of a bridge that cannot be used. -/
def BridgeSettings.check (b : BridgeSettings) : Except SettingsError Unit := do
  checkText "bridge.address" b.address
  checkText "bridge.username" b.username
  checkSpan "bridge.request_timeout" b.requestTimeout

/-- Refuses settings that cannot be used. -/
def Settings.check (s : Settings) : Except SettingsError Unit := do
  checkSpan "interpreter.ack_timeout" s.run.ackTimeout
  match s.bridge with
  | some b => b.check
  | none => .ok ()

/-! ### Writing -/

/-- A record with texts for its keys. -/
def recordOf (entries : List (String × Document)) : Document :=
  .record .settled (entries.map fun (key, d) => (.text key, d))

/-- The settings of runs as a document. -/
def RunSettings.document (r : RunSettings) : Document :=
  recordOf
    [("ack_timeout", .float r.ackTimeout.toSeconds), ("pause_scope", .text r.pauseScope.word)]

/-- The settings of a bridge as a document. -/
def BridgeSettings.document (b : BridgeSettings) : Document :=
  recordOf
    [("address", .text b.address), ("username", .text b.username),
     ("request_timeout", .float b.requestTimeout.toSeconds)]

/-- Settings as a document. A bridge is written only if there is one. -/
def Settings.document (s : Settings) : Document :=
  recordOf <|
    ("interpreter", s.run.document) :: (s.bridge.map fun b => ("bridge", b.document)).toList

end Lightshow
