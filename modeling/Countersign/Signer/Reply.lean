import Countersign.Message.Response
import Countersign.Message.Version
import Countersign.Signer.Event

/-!
# States and replies

The signer is always in one of six states, and a reply that is not an answer in itself gives the
state and the number of elements to review. Written to a buffer, a reply is the matching message.
-/

namespace Countersign

/-- What the signer is doing. -/
inductive State where
  /-- Nothing yet. -/
  | init
  /-- A transaction is coming in. -/
  | decoding
  /-- A hash waits for the user. -/
  | pending
  /-- The user has agreed. -/
  | complete
  /-- The user has said no. -/
  | deny
  /-- A transaction was refused. -/
  | error
deriving DecidableEq

namespace State

/-- All states, in the order in which they are listed. -/
def all : List State := [init, decoding, pending, complete, deny, error]

/-- The name of a state. -/
def name : State → String
  | init => "Init"
  | decoding => "Decoding"
  | pending => "Pending"
  | complete => "Complete"
  | deny => "Deny"
  | error => "Error"

/-- The state with this name. -/
def ofName? (n : String) : Option State := all.find? (·.name = n)

/-- The state as the host is told. -/
def phase : State → Phase
  | init => .init
  | decoding => .decoding
  | pending => .pending
  | complete => .complete
  | deny => .denied
  | error => .error

/-- The host knows each state by its name; the one after a denial is called denied. -/
theorem name_phase (s : State) : s.phase.name = if s = deny then "Denied" else s.name := by
  cases s <;> rfl

/-- The host can tell all states apart. -/
@[simp] theorem phase_inj {s t : State} : s.phase = t.phase ↔ s = t := by
  cases s <;> cases t <;> decide

end State

/-- What the signer replies to an event or gives to the user's consent. -/
inductive Reply where
  | none
  | state (state : State) (elements : UInt16)
  | version (version : Version)
  | publicKey (key : PublicKey) (address : Address) (display : KeyView)
  | hash (hash : Digest)
  | signature (signature : Signature)
deriving DecidableEq

namespace Reply

/-- Writes the message of a reply to the front of a buffer. -/
def write (r : Reply) (buffer : Bytes) : Except CodecError (Nat × Bytes) :=
  match r with
  | none => .ok (0, buffer)
  | state s elements => Codec.write (Progress.mk s.phase elements) buffer
  | version v => Codec.write v buffer
  | publicKey key address _ => Codec.write (KeyResponse.mk key address.textBytes) buffer
  | hash h => Codec.write (HashResponse.mk h) buffer
  | signature s => Codec.write (SignatureResponse.mk s) buffer

/-- The state in a reply that gives one. -/
def state? : Reply → Option State
  | state s _ => some s
  | _ => Option.none

/-- The reply gives this state. -/
def isState (r : Reply) (s : State) : Bool := r.state? = some s

end Reply

end Countersign
