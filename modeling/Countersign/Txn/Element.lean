import Countersign.Currency.FixedPoint
import Countersign.Numeral
import Countersign.Wallet.Address

/-!
# What the user reviews

Of a transaction the user sees what it pays: its siacoin outputs, its siafund outputs and its miner
fees, each with its number among those of its kind.
-/

namespace Countersign

/-- What an amount is paid as. -/
inductive PaymentKind where
  | siacoinOutput
  | siafundOutput
  | minerFee
deriving DecidableEq

namespace PaymentKind

/-- All kinds, in the order of review. -/
def all : List PaymentKind := [siacoinOutput, siafundOutput, minerFee]

/-- The name on the screen. -/
def name : PaymentKind → String
  | siacoinOutput => "SC Output"
  | siafundOutput => "SF Output"
  | minerFee => "Miner Fee"

end PaymentKind

/-- An amount that a transaction pays, and whom it pays unless it is a fee. -/
structure Payment where
  kind : PaymentKind
  value : String
  address : Option Address
deriving DecidableEq

/-- A payment with its number on the screen. -/
structure Element where
  kind : PaymentKind
  index : UInt16
  value : String
  address : Option Address
deriving DecidableEq

/-- The payment as number `index` of its kind. -/
def Payment.numbered (p : Payment) (index : UInt16) : Element := ⟨p.kind, index, p.value, p.address⟩

namespace Element

/-- The longest label in bytes. -/
def maxLabel : Nat := 24

/-- The kind and the number; empty if they were longer than a label may be. -/
def label (e : Element) : String :=
  let text := e.kind.name.toList ++ " #".toList ++ numeral e.index.toNat
  if Currency.width text ≤ maxLabel then String.ofList text else ""

/-- The amount in the unit of its kind; nothing if its point falls inside a character. -/
def formatted (e : Element) : Option String :=
  match e.kind with
  | .siafundOutput => some (Currency.formatSiafunds e.value)
  | .siacoinOutput | .minerFee => Currency.formatSiacoins e.value

end Element

end Countersign
