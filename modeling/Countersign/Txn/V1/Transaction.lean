import Countersign.Txn.Output
import Countersign.Txn.Transcript

/-!
# Transactions of the first format

A transaction as a value, its bytes on the wire, the bytes that a signature covers, and the elements
that the user reviews. The four sections that are not supported are written as empty.
-/

namespace Countersign.V1

/-! ## Parts -/

/-- A public key with the name of its algorithm. -/
structure UnlockKey where
  algorithm : Block 16
  key : Bytes

/-- The conditions that unlock an output. -/
structure UnlockConditions where
  timelock : UInt64
  keys : List UnlockKey
  required : UInt64

/-- An input in siacoins. -/
structure SiacoinInput where
  parent : Digest
  conditions : UnlockConditions

/-- An input in siafunds, with the address that claims its siacoins. -/
structure SiafundInput where
  parent : Digest
  conditions : UnlockConditions
  claim : Address

/-- A signature of the whole transaction: what it belongs to, the index of its key and its timelock
in 48 bytes, and its own bytes. -/
structure SignatureEntry where
  identity : Block 48
  signature : Bytes

/-- A key on the wire. -/
def UnlockKey.encode (k : UnlockKey) : Bytes := k.algorithm.bytes ++ encodeBytes k.key

/-- Unlock conditions on the wire. -/
def UnlockConditions.encode (c : UnlockConditions) : Bytes :=
  bytesOfWord c.timelock ++ encodeList UnlockKey.encode c.keys ++ bytesOfWord c.required

/-- An input on the wire. -/
def SiacoinInput.encode (i : SiacoinInput) : Bytes := i.parent.bytes ++ i.conditions.encode

/-- An input on the wire. -/
def SiafundInput.encode (i : SiafundInput) : Bytes :=
  i.parent.bytes ++ i.conditions.encode ++ i.claim.hash.bytes

/-- A signature on the wire; the ten lists of covered parts are empty. -/
def SignatureEntry.encode (s : SignatureEntry) : Bytes :=
  s.identity.bytes ++ 1 :: (List.replicate 80 0 ++ encodeBytes s.signature)

/-! ## Transactions -/

/-- A transaction of the first format. -/
structure Transaction where
  siacoinInputs : List SiacoinInput
  siacoinOutputs : List SiacoinOutput
  siafundInputs : List SiafundInput
  siafundOutputs : List SiafundOutput
  minerFees : List Amount
  signatures : List SignatureEntry

namespace Transaction

/-- The number of members of an empty section. -/
def emptySection : Bytes := bytesOfWord 0

/-- The transaction on the wire up to the signatures, with `lead` ahead of each input. -/
def body (lead : Bytes) (t : Transaction) : Bytes :=
  encodeList (fun i => lead ++ i.encode) t.siacoinInputs ++
    encodeList SiacoinOutput.encode t.siacoinOutputs ++
    emptySection ++ emptySection ++ emptySection ++
    encodeList (fun i => lead ++ i.encode) t.siafundInputs ++
    encodeList SiafundOutput.encode t.siafundOutputs ++
    encodeList Amount.encode t.minerFees ++ emptySection

/-- The transaction on the wire. -/
def encode (t : Transaction) : Bytes :=
  t.body [] ++ encodeList SignatureEntry.encode t.signatures

/-- The transaction before anyone has signed it. -/
def unsigned (t : Transaction) : Transaction := { t with signatures := [] }

/-- The bytes that the signature with this index covers. -/
def covered (t : Transaction) (sigIndex : Nat) : Bytes :=
  t.body [Transcript.replayByteV1] ++
    ((t.signatures[sigIndex]?.map fun s => s.identity.bytes).getD [])

/-- What the user reviews. -/
def elements (t : Transaction) (change : Option Address) : List Element :=
  shownPayments change (t.siacoinOutputs.map SiacoinOutput.payment) ++
    shownPayments change (t.siafundOutputs.map SiafundOutput.payment) ++
    shownPayments change (t.minerFees.map Amount.fee)

/-- Every list can be counted in 64 bits, and every element fits the buffer. -/
structure Fits (t : Transaction) : Prop where
  siacoinInputs : FitsWire SiacoinInput.encode t.siacoinInputs
  siacoinOutputs : FitsWire SiacoinOutput.encode t.siacoinOutputs
  siafundInputs : FitsWire SiafundInput.encode t.siafundInputs
  siafundOutputs : FitsWire SiafundOutput.encode t.siafundOutputs
  minerFees : FitsWire Amount.encode t.minerFees
  signatures : FitsWire SignatureEntry.encode t.signatures

end Transaction

end Countersign.V1
