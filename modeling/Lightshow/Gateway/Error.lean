/-!
# Why a gateway fails

A gateway brings states to devices. When it fails for one device the run goes on; when it
can serve no device any more the run ends.
-/

namespace Lightshow

/-- The failure of a gateway. -/
inductive GatewayError where
  /-- The device or the bridge refused the state. -/
  | rejected (reason : String)
  /-- The request did not complete in time. -/
  | timeout
  /-- The bridge cannot be reached at all. -/
  | unreachable (reason : String)
  /-- The bridge does not accept the user any more. -/
  | unauthorized (reason : String)
  /-- Anything else on the way. -/
  | transport (reason : String)
  deriving DecidableEq, Repr

namespace GatewayError

/-- The wording of a failure. -/
def message : GatewayError → String
  | rejected reason => "rejected: " ++ reason
  | timeout => "request timed out"
  | unreachable reason => "gateway unreachable: " ++ reason
  | unauthorized reason => "unauthorized: " ++ reason
  | transport reason => "transport error: " ++ reason

/-- Whether no device can be served any more. -/
def isFatal : GatewayError → Bool
  | unreachable _ | unauthorized _ => true
  | _ => false

end GatewayError

end Lightshow
