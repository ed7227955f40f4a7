import Countersign.Txn.Layout

/-!
# The first transaction format

Ten counted sections, the signatures last. A signature covers the transaction up to the signatures,
with a replay byte ahead of each input, and then the first 48 bytes of one entry of the signatures:
the wanted one. The number of signatures, the other entries and the rest of the wanted one are not
covered, so signatures can be added without changing what is signed.
-/

namespace Countersign.V1

/-- The sections of a transaction, in wire order. -/
inductive Section where
  | start
  | siacoinInputs
  | siacoinOutputs
  | fileContracts
  | fileContractRevisions
  | storageProofs
  | siafundInputs
  | siafundOutputs
  | minerFees
  | arbitraryData
  | signatures
deriving DecidableEq

namespace Section

/-- All sections, in wire order. -/
def all : List Section :=
  [start, siacoinInputs, siacoinOutputs, fileContracts, fileContractRevisions, storageProofs,
   siafundInputs, siafundOutputs, minerFees, arbitraryData, signatures]

/-- The section that follows; none after the signatures. -/
def next? : Section → Option Section
  | start => some siacoinInputs
  | siacoinInputs => some siacoinOutputs
  | siacoinOutputs => some fileContracts
  | fileContracts => some fileContractRevisions
  | fileContractRevisions => some storageProofs
  | storageProofs => some siafundInputs
  | siafundInputs => some siafundOutputs
  | siafundOutputs => some minerFees
  | minerFees => some arbitraryData
  | arbitraryData => some signatures
  | signatures => none

/-- The number of sections that follow. -/
def depth : Section → Nat
  | start => 10
  | siacoinInputs => 9
  | siacoinOutputs => 8
  | fileContracts => 7
  | fileContractRevisions => 6
  | storageProofs => 5
  | siafundInputs => 4
  | siafundOutputs => 3
  | minerFees => 2
  | arbitraryData => 1
  | signatures => 0

/-- The sections that are not supported and must have no entries. -/
def isUnsupported : Section → Bool
  | fileContracts | fileContractRevisions | storageProofs | arbitraryData => true
  | _ => false

/-- The name of a section. -/
def name : Section → String
  | start => "Start"
  | siacoinInputs => "SiacoinInputs"
  | siacoinOutputs => "SiacoinOutputs"
  | fileContracts => "FileContracts"
  | fileContractRevisions => "FileContractRevisions"
  | storageProofs => "StorageProofs"
  | siafundInputs => "SiafundInputs"
  | siafundOutputs => "SiafundOutputs"
  | minerFees => "MinerFees"
  | arbitraryData => "ArbitraryData"
  | signatures => "Signatures"

end Section

/-- The covered bytes of the wanted signature. -/
def coveredSignatureLength : Nat := 48

/-! ## Headers -/

/-- The number of signatures, which must go beyond the wanted index and is not covered. -/
def signatureCount (sigIndex : UInt16) : Reader Header := do
  let n ← Reader.word
  if sigIndex.toNat ≥ n.toNat then .refuse .signatureIndex else .done ⟨n, .nothing⟩

/-- The header of a section. -/
def header (sigIndex : UInt16) (s : Section) : Reader Header :=
  match s with
  | .signatures => signatureCount sigIndex
  | s => if s.isUnsupported then Layout.emptyCount else Layout.counted

/-! ## Entries -/

/-- What every input comes to. -/
def input : Entry := ⟨[Transcript.replayByteV1], .all, none⟩

/-- An input in siacoins: the output it spends and the conditions that unlock it. -/
def siacoinInput : Reader Entry := do
  let _ ← Reader.block 32
  Reader.unlockConditions
  .done input

/-- An input in siafunds, with the address that claims its siacoins. -/
def siafundInput : Reader Entry := do
  let _ ← Reader.block 32
  Reader.unlockConditions
  let _ ← Reader.block 32
  .done input

/-- A signature: what it belongs to, the index of its key, its timelock, what it covers, and its
bytes. -/
def signature (sigIndex : UInt16) (k : UInt64) : Reader Entry := do
  let _ ← Reader.block 32
  let _ ← Reader.word
  let _ ← Reader.word
  Reader.coveredFields
  Reader.skipBytes
  .done ⟨[], if k.toNat = sigIndex.toNat then .front coveredSignatureLength else .nothing, none⟩

/-- The entry of a section with this number. -/
def entry (sigIndex : UInt16) (s : Section) (k : UInt64) : Reader Entry :=
  match s with
  | .siacoinInputs => siacoinInput
  | .siacoinOutputs => Layout.siacoinOutput
  | .siafundInputs => siafundInput
  | .siafundOutputs => Layout.siafundOutput
  | .minerFees => Layout.minerFee
  | .signatures => signature sigIndex k
  | .start | .fileContracts | .fileContractRevisions | .storageProofs | .arbitraryData =>
    .refuse .nonEmptySection

/-- The first format. -/
instance : Layout Section where
  start := .start
  next? := Section.next?
  name := Section.name
  opening := Transcript.v1
  header := header
  entry := entry
  depth := Section.depth
  depth_next := by
    intro s t h
    cases s <;> cases h <;> decide
  reads_entry _ s _ :=
    match s with
    | .start | .fileContracts | .fileContractRevisions | .storageProofs | .arbitraryData =>
      True.intro
    | .siacoinInputs | .siacoinOutputs | .siafundInputs | .siafundOutputs | .minerFees
    | .signatures => Or.inl (by decide)
  isSealed_opening := rfl

end Countersign.V1
