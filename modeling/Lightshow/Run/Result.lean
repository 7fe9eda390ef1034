import Lightshow.Device.Roster
import Lightshow.Gateway.Error
import Lightshow.Program.Fault
import Lightshow.Run.Bound
import Lightshow.Run.Event

/-!
# Results

A run ends with a status, with the failures of single devices, which do not end it, and
with the error that ended it, if there was one.

* `DeviceError`, `Failure` — failures of single devices.
* `RunError` — what ends a run.
* `RunResult` — the result of a run, with `perDevice`, `isSuccess` and `exitCode`.
-/

namespace Lightshow

/-- Why a device was not served. -/
inductive DeviceError where
  | unresolved (cause : Unmapped)
  | gateway (cause : GatewayError)
  /-- No acknowledgement came in time. -/
  | ackTimeout (span : Duration)
  /-- The acknowledgement will never come. -/
  | ackDropped
  deriving DecidableEq, Repr

/-- The wording of a device error. -/
def DeviceError.message : DeviceError → String
  | unresolved cause => cause.message
  | gateway cause => cause.message
  | ackTimeout span => "no acknowledgement within " ++ span.text
  | ackDropped => "acknowledgement channel closed"

/-- A device error with the device, or the reference that means none, and the path of the
transition. -/
structure Failure where
  device : String
  step : String
  error : DeviceError
  deriving DecidableEq, Repr

/-- What ends a run. -/
inductive RunError where
  | invalidProgram (faults : List Fault)
  | loop (path : String) (cause : LoopError)
  | gateway (device : String) (cause : GatewayError)
  deriving DecidableEq, Repr

/-- The wording of what ends a run. -/
def RunError.message : RunError → String
  | invalidProgram faults => "invalid program: " ++ "; ".intercalate (faults.map Fault.message)
  | loop path cause => path ++ ": " ++ cause.message
  | gateway device cause => device ++ ": " ++ cause.message

/-- How a run went. -/
structure RunResult where
  status : Status
  failures : List Failure := []
  fatal : Option RunError := none
  deriving DecidableEq, Repr

namespace RunResult

/-- Errors grouped by device, with one more error. The devices are in order, and the errors
of a device keep the order in which they were added. -/
def addError (device : String) (error : DeviceError) :
    List (String × List DeviceError) → List (String × List DeviceError)
  | [] => [(device, [error])]
  | (d, errors) :: rest =>
    if device < d then (device, [error]) :: (d, errors) :: rest
    else if device = d then (d, errors ++ [error]) :: rest
    else (d, errors) :: addError device error rest

/-- The errors of each device. -/
def perDevice (r : RunResult) : List (String × List DeviceError) :=
  r.failures.foldl (fun groups f => addError f.device f.error groups) []

/-- Whether the run completed and no device failed. -/
def isSuccess (r : RunResult) : Bool := r.status = .completed && r.failures.isEmpty

/-- The exit code of a process that is cancelled. -/
def cancelledCode : Nat := 130

/-- The exit code of a process that does nothing but the run. -/
def exitCode (r : RunResult) : Nat :=
  match r.status with
  | .cancelled => cancelledCode
  | _ => if r.isSuccess then 0 else 1

end RunResult

end Lightshow
