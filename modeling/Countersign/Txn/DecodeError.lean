/-!
# Reasons for refusing a transaction

All of these are final for the transaction at hand. Too little data is not among them: it only asks
for more.
-/

namespace Countersign

/-- A reason for refusing a transaction. -/
inductive DecodeError where
  /-- A currency is longer than any amount needs. -/
  | currencyTooLarge
  /-- A signature does not cover the whole transaction. -/
  | coveredFields
  /-- A part that must be absent is present. -/
  | nonEmptySection
  /-- There is no signature with the wanted index. -/
  | signatureIndex
  /-- The buffer is full and still does not hold the whole of an element. -/
  | bufferExhausted
  /-- A chunk is longer than the room left in the buffer. -/
  | capacity
  /-- The transaction is complete and its hash is known. -/
  | finalized
  /-- A value does not fit the screen. -/
  | format
deriving DecidableEq

namespace DecodeError

/-- All reasons, in the order of their codes. -/
def all : List DecodeError :=
  [currencyTooLarge, coveredFields, nonEmptySection, signatureIndex, bufferExhausted, capacity,
   finalized, format]

/-- The code of a reason. -/
def code : DecodeError → UInt8
  | currencyTooLarge => 0
  | coveredFields => 1
  | nonEmptySection => 2
  | signatureIndex => 3
  | bufferExhausted => 4
  | capacity => 5
  | finalized => 6
  | format => 7

/-- The name of a reason. -/
def name : DecodeError → String
  | currencyTooLarge => "CurrencyTooLarge"
  | coveredFields => "CoveredFields"
  | nonEmptySection => "NonEmptySection"
  | signatureIndex => "SignatureIndex"
  | bufferExhausted => "BufferExhausted"
  | capacity => "Capacity"
  | finalized => "Finalized"
  | format => "Format"

/-- The text of a reason. -/
def message : DecodeError → String
  | currencyTooLarge => "currency length exceeds maximum"
  | coveredFields => "unsupported covered fields"
  | nonEmptySection => "unexpected non-empty section"
  | signatureIndex => "signature index out of range"
  | bufferExhausted => "buffer exhausted mid-element"
  | capacity => "chunk exceeds buffer capacity"
  | finalized => "hash already finalized"
  | format => "value exceeds display capacity"

/-- The reasons that lie in the data of the transaction, not in how it is handed over. -/
def isStructural : DecodeError → Bool
  | capacity | finalized | format => false
  | _ => true

end DecodeError

end Countersign
