import Lightshow.Bridge.Body
import Lightshow.Bridge.Response
import Lightshow.Bridge.Url
import Lightshow.Run.World

/-!
# A bridge as a gateway

To apply a state is to put its record to the address of the device. A state that the bridge
has taken is acknowledged when the fade is over, for which an alarm is set; without a fade
nothing is left to wait for.

How a request is carried to the bridge is left open: a `Carrier` tells what becomes of it.

## Main definitions

* `Request`, `Delivery`, `Carrier` — requests and what becomes of them.
* `BridgeSettings.gateway` — the gateway of a bridge.
-/

namespace Lightshow

/-- A state on its way to a device. -/
structure Request where
  url : String
  body : Document
  deriving Repr

/-- What becomes of a request. -/
inductive Delivery where
  /-- Nobody can be connected to. -/
  | refused (reason : String)
  /-- No answer in time. -/
  | expired
  /-- The connection breaks off. -/
  | cut (reason : String)
  | answered (status : Nat) (body : String)
  deriving DecidableEq, Repr

/-- What becomes of requests, and how long that takes, given what happened before. -/
abbrev Carrier := Journal → Request → Duration × Delivery

/-- How long after a call has returned at an instant an acknowledgement comes that waits for a
fade: until the alarm rings that is set for it. -/
def fadeAlarm (returns : Instant) (state : DeviceState) : Duration :=
  alarm returns state.fadeDuration - returns

/-- What a request for a state comes to that is answered at an instant. -/
def Delivery.dispatch (state : DeviceState) (returns : Instant) : Delivery → Dispatch
  | refused reason => .failed (.unreachable reason)
  | expired => .failed .timeout
  | cut reason => .failed (.transport reason)
  | answered status body =>
    match Response.judge status body with
    | .error cause => .failed cause
    | .ok () =>
      if state.fadeDuration = 0 then .done
      else .pending (some (fadeAlarm returns state, .succeeded))

/-- The request for a state of a device. -/
def BridgeSettings.request (b : BridgeSettings) (d : Device) (state : DeviceState) : Request :=
  ⟨b.urlFor d, state.body⟩

/-- The gateway of a bridge. -/
def BridgeSettings.gateway (b : BridgeSettings) (carry : Carrier) : Gateway := fun journal call =>
  let (latency, delivery) := carry journal (b.request call.device call.state)
  ⟨latency, delivery.dispatch call.state (call.time + latency)⟩

end Lightshow
