import Countersign.Txn.Layout

/-!
# The second transaction format

Eleven sections, of which most are counted. Arbitrary data has only its length, which must be
zero; a new foundation address has only a flag, which must be zero; the miner fee is always there
and is not counted, so its section begins without a header. A signature covers all of it, behind
the distinguisher and the replay byte, and does not depend on the index of the signature.
-/

namespace Countersign.V2

/-- The sections of a transaction, in wire order. -/
inductive Section where
  | start
  | siacoinInputs
  | siacoinOutputs
  | siafundInputs
  | siafundOutputs
  | fileContracts
  | fileContractRevisions
  | fileContractResolutions
  | attestations
  | arbitraryData
  | foundationAddress
  | minerFee
deriving DecidableEq

namespace Section

/-- All sections, in wire order. -/
def all : List Section :=
  [start, siacoinInputs, siacoinOutputs, siafundInputs, siafundOutputs, fileContracts,
   fileContractRevisions, fileContractResolutions, attestations, arbitraryData, foundationAddress,
   minerFee]

/-- The section that follows; none after the miner fee. -/
def next? : Section → Option Section
  | start => some siacoinInputs
  | siacoinInputs => some siacoinOutputs
  | siacoinOutputs => some siafundInputs
  | siafundInputs => some siafundOutputs
  | siafundOutputs => some fileContracts
  | fileContracts => some fileContractRevisions
  | fileContractRevisions => some fileContractResolutions
  | fileContractResolutions => some attestations
  | attestations => some arbitraryData
  | arbitraryData => some foundationAddress
  | foundationAddress => some minerFee
  | minerFee => none

/-- The number of sections that follow. -/
def depth : Section → Nat
  | start => 11
  | siacoinInputs => 10
  | siacoinOutputs => 9
  | siafundInputs => 8
  | siafundOutputs => 7
  | fileContracts => 6
  | fileContractRevisions => 5
  | fileContractResolutions => 4
  | attestations => 3
  | arbitraryData => 2
  | foundationAddress => 1
  | minerFee => 0

/-- The counted sections that are not supported and must have no entries. -/
def isUnsupported : Section → Bool
  | fileContracts | fileContractRevisions | fileContractResolutions => true
  | _ => false

/-- The name of a section. -/
def name : Section → String
  | start => "Start"
  | siacoinInputs => "SiacoinInputs"
  | siacoinOutputs => "SiacoinOutputs"
  | siafundInputs => "SiafundInputs"
  | siafundOutputs => "SiafundOutputs"
  | fileContracts => "FileContracts"
  | fileContractRevisions => "FileContractRevisions"
  | fileContractResolutions => "FileContractResolutions"
  | attestations => "Attestations"
  | arbitraryData => "ArbitraryData"
  | foundationAddress => "FoundationAddress"
  | minerFee => "MinerFee"

end Section

/-! ## Headers -/

/-- The flag of a new foundation address, which must say that there is none. -/
def foundationFlag : Reader Header := do
  let flag ← Reader.byte
  if flag = 0 then .done ⟨0, .all⟩ else .refuse .nonEmptySection

/-- The header of a section. -/
def header (s : Section) : Reader Header :=
  match s with
  | .arbitraryData => Layout.emptyCount
  | .foundationAddress => foundationFlag
  | .minerFee => .done ⟨1, .all⟩
  | s => if s.isUnsupported then Layout.emptyCount else Layout.counted

/-! ## Entries -/

/-- An input: the output it spends. -/
def input : Reader Entry := do
  let _ ← Reader.block 32
  .done ⟨[], .all, none⟩

/-- An attestation: a public key, a name and a value, and a signature. -/
def attestation : Reader Entry := do
  Reader.skip 32
  Reader.skipBytes
  Reader.skipBytes
  Reader.skip 64
  .done ⟨[], .all, none⟩

/-- The entries of a section. -/
def entry (s : Section) : Reader Entry :=
  match s with
  | .siacoinInputs | .siafundInputs => input
  | .siacoinOutputs => Layout.siacoinOutput
  | .siafundOutputs => Layout.siafundOutput
  | .attestations => attestation
  | .minerFee => Layout.minerFee
  | .start | .fileContracts | .fileContractRevisions | .fileContractResolutions | .arbitraryData
  | .foundationAddress => .refuse .nonEmptySection

/-- The second format. -/
instance : Layout Section where
  start := .start
  next? := Section.next?
  name := Section.name
  opening := Transcript.v2
  header := fun _ => header
  entry := fun _ s _ => entry s
  depth := Section.depth
  depth_next := by
    intro s t h
    cases s <;> cases h <;> decide
  reads_entry _ s _ :=
    match s with
    | .start | .fileContracts | .fileContractRevisions | .fileContractResolutions
    | .arbitraryData | .foundationAddress => True.intro
    | .siacoinInputs | .siacoinOutputs | .siafundInputs | .siafundOutputs | .attestations
    | .minerFee => Or.inl (by decide)
  isSealed_opening := rfl

end Countersign.V2
