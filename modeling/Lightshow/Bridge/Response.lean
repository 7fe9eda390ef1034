import Lightshow.Document.Json
import Lightshow.Gateway.Error

/-!
# What a bridge answers

A bridge answers with a list of entries, each of which tells a success or an error. Any
error means that the state was not taken. An error of type one means that the bridge does
not know the user, which outweighs all other errors.

The status of the answer is looked at before its body.

## Main definitions

* `Response.errors` — the errors that a body tells.
* `Response.judge` — what an answer means.
-/

namespace Lightshow

namespace Response

/-- Whether a key of a record is a given text. -/
def isKey (key : String) : Document → Bool
  | .text s => s = key
  | _ => false

/-- The value that a record gives for a key. Of several the last one counts. -/
def field? (key : String) (d : Document) : Option Document :=
  match d with
  | .record _ entries => (entries.reverse.find? fun e => isKey key e.1).map (·.2)
  | _ => none

/-- The type of the error for a user that is not known. -/
def unknownUser : Int := 1

/-- Whether an error is that of a user who is not known. -/
def isUnknownUser (error : Document) : Bool :=
  match field? "type" error with
  | some (.int n) => n = unknownUser
  | _ => false

/-- A text that a record gives for a key. -/
def text? (key : String) (d : Document) : Option String :=
  match field? key d with
  | some (.text s) => some s
  | _ => none

/-- What an error says. -/
def description (error : Document) : String := (text? "description" error).getD "unknown error"

/-- What an error says, after what it is about. -/
def errorText (error : Document) : String :=
  match text? "address" error with
  | some address => address ++ ": " ++ description error
  | none => description error

/-- The entries of a body: its items, or else the body itself. -/
def entries (body : Document) : List Document :=
  match body with
  | .list _ items => items
  | d => [d]

/-- The errors among the entries of a body. -/
def errors (body : Document) : List Document := (entries body).filterMap (field? "error")

/-- What a body means. -/
def judgeBody (body : Document) : Except GatewayError Unit :=
  match (errors body).find? isUnknownUser with
  | some error => .error (.unauthorized (description error))
  | none =>
    match errors body with
    | [] => .ok ()
    | errors => .error (.rejected ("; ".intercalate (errors.map errorText)))

/-- The text of a status. -/
def statusText (status : Nat) : String := "HTTP " ++ toString status

/-- What an answer means, given a reader for its body, which tells what it does not
understand. -/
def judgeWith (read : String → Except String Document) (status : Nat) (body : String) :
    Except GatewayError Unit :=
  if status = 401 ∨ status = 403 then .error (.unauthorized (statusText status))
  else if 200 ≤ status ∧ status < 300 then
    match read body with
    | .ok d => judgeBody d
    | .error reason => .error (.transport ("invalid bridge response: " ++ reason))
  else if 500 ≤ status ∧ status < 600 then .error (.transport (statusText status))
  else .error (.rejected (statusText status))

/-- A reader for bodies that is sparing of words: it says nothing of what it does not
understand. -/
def readBody (body : String) : Except String Document := (parseJson body).mapError fun _ => ""

/-- What an answer means. -/
def judge : (status : Nat) → (body : String) → Except GatewayError Unit := judgeWith readBody

end Response

end Lightshow
