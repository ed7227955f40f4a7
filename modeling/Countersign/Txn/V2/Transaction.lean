import Countersign.Txn.Output
import Countersign.Txn.Transcript

/-!
# Transactions of the second format

A transaction as a value, its bytes on the wire, the bytes that a signature covers, and the elements
that the user reviews. The sections that are not supported are written as empty, and there is always
one miner fee, which is not counted.
-/

namespace Countersign.V2

/-- A statement signed by a key, not connected to any payment. -/
structure Attestation where
  publicKey : Block 32
  key : Bytes
  value : Bytes
  signature : Block 64

/-- An attestation on the wire. -/
def Attestation.encode (a : Attestation) : Bytes :=
  a.publicKey.bytes ++ encodeBytes a.key ++ encodeBytes a.value ++ a.signature.bytes

/-- An input on the wire: the output it spends. -/
def encodeInput (parent : Digest) : Bytes := parent.bytes

/-- A transaction of the second format. -/
structure Transaction where
  siacoinInputs : List Digest
  siacoinOutputs : List SiacoinOutput
  siafundInputs : List Digest
  siafundOutputs : List SiafundOutput
  attestations : List Attestation
  minerFee : Amount

namespace Transaction

/-- The number of members of an empty section, and the length of no data. -/
def emptySection : Bytes := bytesOfWord 0

/-- The transaction on the wire. -/
def encode (t : Transaction) : Bytes :=
  encodeList encodeInput t.siacoinInputs ++ encodeList SiacoinOutput.encode t.siacoinOutputs ++
    encodeList encodeInput t.siafundInputs ++ encodeList SiafundOutput.encode t.siafundOutputs ++
    emptySection ++ emptySection ++ emptySection ++
    encodeList Attestation.encode t.attestations ++
    emptySection ++ [0] ++ t.minerFee.encode

/-- The bytes that every signature covers. -/
def covered (t : Transaction) : Bytes :=
  Transcript.distinguisher ++ [Transcript.replayByteV2] ++ t.encode

/-- What the user reviews. -/
def elements (t : Transaction) (change : Option Address) : List Element :=
  shownPayments change (t.siacoinOutputs.map SiacoinOutput.payment) ++
    shownPayments change (t.siafundOutputs.map SiafundOutput.payment) ++
    shownPayments change [t.minerFee.fee]

/-- Every list can be counted in 64 bits, and every element fits the buffer. -/
structure Fits (t : Transaction) : Prop where
  siacoinInputs : FitsWire encodeInput t.siacoinInputs
  siacoinOutputs : FitsWire SiacoinOutput.encode t.siacoinOutputs
  siafundInputs : FitsWire encodeInput t.siafundInputs
  siafundOutputs : FitsWire SiafundOutput.encode t.siafundOutputs
  attestations : FitsWire Attestation.encode t.attestations

end Transaction

end Countersign.V2
