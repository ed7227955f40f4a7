import Countersign.Txn.Element
import Countersign.Txn.Field
import Countersign.Txn.Transcript

/-!
# Wire layouts

A transaction is a fixed sequence of sections, and a section is a header and as many entries as the
header says. A `Layout` describes one format: the order of its sections, how headers and entries are
read, and how much of each a signature covers. The two formats are two layouts; the decoder is the
same for both.

Two laws make decoding end: every section has fewer sections after it than the one before, and no
entry is empty. A third lets it begin: the transcript is open.
-/

namespace Countersign

/-- What the header of a section says. -/
structure Header where
  /-- The number of entries. -/
  count : UInt64
  /-- How much of the header itself a signature covers. -/
  cover : Coverage

/-- What an entry of a section comes to. -/
structure Entry where
  /-- What a signature covers ahead of the entry, beside the bytes of the transaction. -/
  lead : Bytes
  /-- How much of the entry a signature covers. -/
  cover : Coverage
  /-- What the entry pays, if it pays anything. -/
  payment : Option Payment

/-- A wire format with sections of type `S`. -/
class Layout (S : Type) where
  /-- The place ahead of the first section. -/
  start : S
  /-- The section that follows; none after the last one. -/
  next? : S → Option S
  /-- The name of a section. -/
  name : S → String
  /-- What a signature covers ahead of the transaction. -/
  opening : Transcript
  /-- The header of a section, in a transaction of which the signature with this index is wanted. -/
  header : UInt16 → S → Reader Header
  /-- The entry of a section with this number. -/
  entry : UInt16 → S → UInt64 → Reader Entry
  /-- The number of sections that follow. -/
  depth : S → Nat
  depth_next : ∀ {s t : S}, next? s = some t → depth t < depth s
  reads_entry : ∀ (i : UInt16) (s : S) (k : UInt64), (entry i s k).Reads
  isSealed_opening : opening.isSealed = false

namespace Layout

/-! ## Readers that layouts share -/

/-- The number of entries of a section, which may be any. -/
def counted : Reader Header := do
  let n ← Reader.word
  .done ⟨n, .all⟩

/-- The number of entries of a section that must have none. -/
def emptyCount : Reader Header := do
  let n ← Reader.word
  if n = 0 then .done ⟨0, .all⟩ else .refuse .nonEmptySection

/-- An output in siacoins. -/
def siacoinOutput : Reader Entry := do
  let value ← Reader.currency
  let address ← Reader.address
  .done ⟨[], .all, some ⟨.siacoinOutput, value, some address⟩⟩

/-- An output in siafunds, with an amount that is no longer used. -/
def siafundOutput : Reader Entry := do
  let value ← Reader.currency
  let address ← Reader.address
  Reader.skipCurrency
  .done ⟨[], .all, some ⟨.siafundOutput, value, some address⟩⟩

/-- A miner fee. -/
def minerFee : Reader Entry := do
  let value ← Reader.currency
  .done ⟨[], .all, some ⟨.minerFee, value, none⟩⟩

end Layout

end Countersign
