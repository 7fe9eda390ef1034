import Lightshow.Device.Basic
import Lightshow.Settings.Basic

/-!
# Addresses of devices on a bridge

A bridge serves its devices over HTTP. Below the address of its interface, which names the
user, each light and each group has an address of its own that takes a state.

* `BridgeSettings.apiUrl` — where the interface of a bridge is.
* `Device.endpoint`, `BridgeSettings.urlFor` — where the state of a device is put.
-/

namespace Lightshow

open Lightshow.Text

/-- The schemes that an address may have. -/
def schemes : List String := ["http://", "https://"]

/-- Whether an address begins with a scheme. -/
def hasScheme (s : List Char) : Bool := schemes.any fun scheme => scheme.toList.isPrefixOf s

/-- An address without the slashes at its end. -/
def withoutSlashes (s : List Char) : List Char := (s.reverse.dropWhile (· = '/')).reverse

/-- Where the interface of a bridge is. An address without a scheme is one for plain HTTP. -/
def BridgeSettings.apiUrl (b : BridgeSettings) : String :=
  let address := withoutSlashes b.address.toList
  let base := if hasScheme address then address else "http://".toList ++ address
  String.ofList base ++ "/api/" ++ b.username

/-- Where the state of a device is put, below the interface of its bridge. -/
def Device.endpoint (d : Device) : String :=
  match d.kind with
  | .light => "lights/" ++ toString d.id.toNat ++ "/state"
  | .group => "groups/" ++ toString d.id.toNat ++ "/action"

/-- Where the state of a device is put. -/
def BridgeSettings.urlFor (b : BridgeSettings) (d : Device) : String :=
  b.apiUrl ++ "/" ++ d.endpoint

end Lightshow
