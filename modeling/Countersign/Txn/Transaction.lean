import Countersign.Txn.Format
import Countersign.Txn.V1.Transaction
import Countersign.Txn.V2.Transaction

/-!
# Transactions of either format

What the user has to know of a transaction is the same in both formats: its payments, in the order
siacoin outputs, siafund outputs, fees. `AnyTransaction` is a transaction of either format with its
bytes, the bytes that a signature covers, and its payments.
-/

namespace Countersign

/-- The payment that an element shows. -/
def Element.payment (e : Element) : Payment := ⟨e.kind, e.value, e.address⟩

/-- All that a transaction pays. -/
def V1.Transaction.payments (t : V1.Transaction) : List Payment :=
  t.siacoinOutputs.map SiacoinOutput.payment ++ t.siafundOutputs.map SiafundOutput.payment ++
    t.minerFees.map Amount.fee

/-- All that a transaction pays. -/
def V2.Transaction.payments (t : V2.Transaction) : List Payment :=
  t.siacoinOutputs.map SiacoinOutput.payment ++ t.siafundOutputs.map SiafundOutput.payment ++
    [t.minerFee.fee]

/-- A transaction of either format. -/
inductive AnyTransaction where
  | v1 (t : V1.Transaction)
  | v2 (t : V2.Transaction)

namespace AnyTransaction

/-- The format. -/
def format : AnyTransaction → Format
  | v1 _ => .v1
  | v2 _ => .v2

/-- The transaction on the wire. -/
def encode : AnyTransaction → Bytes
  | v1 t => t.encode
  | v2 t => t.encode

/-- The bytes that the signature with this index covers. -/
def covered (t : AnyTransaction) (sigIndex : Nat) : Bytes :=
  match t with
  | v1 t => t.covered sigIndex
  | v2 t => t.covered

/-- All that the transaction pays. -/
def payments : AnyTransaction → List Payment
  | v1 t => t.payments
  | v2 t => t.payments

/-- What the user reviews. -/
def elements (t : AnyTransaction) (change : Option Address) : List Element :=
  match t with
  | v1 t => t.elements change
  | v2 t => t.elements change

/-- Every list can be counted in 64 bits, and every element fits the buffer. -/
def Fits : AnyTransaction → Prop
  | v1 t => t.Fits
  | v2 t => t.Fits

/-- The signature with this index is there; the second format does not ask for it. -/
def HasSignature (t : AnyTransaction) (sigIndex : Nat) : Prop :=
  match t with
  | v1 t => sigIndex < t.signatures.length
  | v2 _ => True

end AnyTransaction

end Countersign
