import Countersign.Currency.Limbs
import Countersign.Txn.Element

/-!
# Amounts and outputs as the sender writes them

The decoder reads a transaction byte by byte; these are the values that the bytes stand for. Both
formats share amounts, outputs, and the way lists and byte strings have their length in front.
-/

namespace Countersign

/-! ## Lengths in front -/

/-- A byte string with its length in front. -/
def encodeBytes (bs : Bytes) : Bytes := littleEndian 8 bs.length ++ bs

/-- A list with the number of its members in front. -/
def encodeList {α : Type} (encode : α → Bytes) (xs : List α) : Bytes :=
  littleEndian 8 xs.length ++ xs.flatMap encode

/-- A list that is shorter than its number of members could say, of members that a buffer can
hold. -/
def FitsWire {α : Type} (encode : α → Bytes) (xs : List α) : Prop :=
  xs.length < UInt64.size ∧ ∀ x ∈ xs, (encode x).length ≤ 510

instance {α : Type} (encode : α → Bytes) (xs : List α) : Decidable (FitsWire encode xs) :=
  inferInstanceAs (Decidable (_ ∧ _))

/-! ## Amounts -/

/-- An amount as big-endian bytes, of which there may be more than needed. -/
structure Amount where
  bytes : Bytes
  length_le : bytes.length ≤ Currency.maxBytes

namespace Amount

/-- The number that an amount stands for. -/
def value (a : Amount) : Nat := ofBigEndian a.bytes

/-- The decimal digits of an amount. -/
def digits (a : Amount) : String := String.ofList (numeral a.value)

/-- An amount on the wire. -/
def encode (a : Amount) : Bytes := encodeBytes a.bytes

end Amount

/-! ## Outputs -/

/-- An output in siacoins. -/
structure SiacoinOutput where
  value : Amount
  address : Address

/-- An output in siafunds, with an amount that is no longer used. -/
structure SiafundOutput where
  value : Amount
  address : Address
  claimStart : Amount

/-- An output on the wire. -/
def SiacoinOutput.encode (o : SiacoinOutput) : Bytes := o.value.encode ++ o.address.hash.bytes

/-- An output on the wire. -/
def SiafundOutput.encode (o : SiafundOutput) : Bytes :=
  o.value.encode ++ o.address.hash.bytes ++ o.claimStart.encode

/-- What an output pays. -/
def SiacoinOutput.payment (o : SiacoinOutput) : Payment :=
  ⟨.siacoinOutput, o.value.digits, some o.address⟩

/-- What an output pays. -/
def SiafundOutput.payment (o : SiafundOutput) : Payment :=
  ⟨.siafundOutput, o.value.digits, some o.address⟩

/-- A miner fee as a payment. -/
def Amount.fee (a : Amount) : Payment := ⟨.minerFee, a.digits, none⟩

/-! ## What the user reviews -/

/-- A payment that is not change. -/
def Payment.IsShown (change : Option Address) (p : Payment) : Prop :=
  p.address = none ∨ p.address ≠ change

instance (change : Option Address) (p : Payment) : Decidable (p.IsShown change) :=
  inferInstanceAs (Decidable (_ ∨ _))

/-- The payments of one kind that are not change, numbered from `n + 1` on; no number goes past
65535. -/
def shownFrom (change : Option Address) : Nat → List Payment → List Element
  | _, [] => []
  | n, p :: ps =>
    if p.IsShown change then
      ⟨p.kind, UInt16.ofNat (min (n + 1) 65535), p.value, p.address⟩ :: shownFrom change (n + 1) ps
    else shownFrom change n ps

/-- The payments of one kind that are not change, numbered from 1 on. -/
def shownPayments (change : Option Address) (ps : List Payment) : List Element :=
  shownFrom change 0 ps

end Countersign
