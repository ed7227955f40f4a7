import Countersign.Message.Code
import Countersign.Txn.DecodeError

/-!
# Reasons for refusing a request
-/

namespace Countersign

/-- A reason for refusing a request or a user's action. -/
inductive Refusal where
  /-- A payload or a chunk has the wrong length. -/
  | invalidLength
  /-- The request does not fit what is going on. -/
  | unexpectedEvent
  /-- Part of a transaction came out of order. -/
  | improperInit
  /-- A parameter has a value without a meaning. -/
  | invalidParam
  /-- The instruction is not known. -/
  | notSupported
  /-- The transaction pays more than can be reviewed. -/
  | tooManyElements
  /-- The user has not allowed it yet. -/
  | approvalPending
  /-- There is nothing it could apply to. -/
  | invalidState
  /-- An answer cannot be written. -/
  | encodingFailed
  /-- The transaction is refused. -/
  | decode (e : DecodeError)
deriving DecidableEq

namespace Refusal

/-- All reasons but the refusals of a transaction. -/
def plain : List Refusal :=
  [invalidLength, unexpectedEvent, improperInit, invalidParam, notSupported, tooManyElements,
   approvalPending, invalidState, encodingFailed]

/-- The name of a reason. -/
def name : Refusal → String
  | invalidLength => "InvalidLength"
  | unexpectedEvent => "UnexpectedEvent"
  | improperInit => "ImproperInit"
  | invalidParam => "InvalidParam"
  | notSupported => "InsNotSupported"
  | tooManyElements => "TooManyElements"
  | approvalPending => "ApprovalPending"
  | invalidState => "InvalidState"
  | encodingFailed => "EncodingFailed"
  | decode e => "Decode(" ++ e.name ++ ")"

/-- The text of a reason. -/
def message : Refusal → String
  | invalidLength => "Invalid argument length"
  | unexpectedEvent => "Unexpected event"
  | improperInit => "improper transaction initialisation"
  | invalidParam => "invalid parameter"
  | notSupported => "instruction not supported"
  | tooManyElements => "too many transaction elements"
  | approvalPending => "pending user approval"
  | invalidState => "invalid engine state"
  | encodingFailed => "message encoding failed"
  | decode e => "transaction decode failed: " ++ e.name

/-- The reason as the host is told. -/
def status : Refusal → StatusWord
  | improperInit => .improperInit
  | notSupported => .notSupported
  | invalidLength | encodingFailed => .developerError
  | decode e => if e.isStructural then .invalidParam else .developerError
  | unexpectedEvent | invalidParam | tooManyElements | approvalPending | invalidState =>
    .invalidParam

end Refusal

end Countersign
