import Countersign.Currency.Limbs
import Countersign.Txn.Reader
import Countersign.Wallet.Address

/-!
# The fields of a transaction

Numbers have eight bytes, least significant first; a byte string has its length in front. An amount
is a byte string whose length is checked before any of its bytes is asked for, so an amount that is
too long is refused as soon as its length is there.
-/

namespace Countersign.Reader

/-- A value, or the reason there is none. -/
def ofExcept {α : Type} : Except DecodeError α → Reader α
  | .ok a => done a
  | .error e => refuse e

/-- The length of an amount. -/
def currencyLength : Reader Nat := do
  let n ← word
  if n.toNat > Currency.maxBytes then refuse .currencyTooLarge else done n.toNat

/-- An amount, as its decimal digits. -/
def currency : Reader String := do
  let n ← currencyLength
  let raw ← block n
  ofExcept (Currency.decode raw.bytes)

/-- An amount that is passed over. -/
def skipCurrency : Reader Unit := do
  let n ← currencyLength
  skip n

/-- The address of an output. -/
def address : Reader Address := do
  let hash ← block 32
  done ⟨hash⟩

/-- A byte string that is passed over. -/
def skipBytes : Reader Unit := do
  let n ← word
  skip n.toNat

/-- A public key with the 16-byte name of its algorithm. -/
def unlockKey : Reader Unit := do
  skip 16
  skipBytes

/-- The conditions that unlock an output: a timelock, public keys, and the number of signatures. -/
def unlockConditions : Reader Unit := do
  skip 8
  let keys ← word
  times keys.toNat unlockKey
  skip 8

/-- A number that must be zero, or else the signature covers only a part. -/
def coveredZero : Reader Unit := do
  let n ← word
  if n = 0 then done () else refuse .coveredFields

/-- What a signature covers: the whole transaction, and none of the ten lists of parts. -/
def coveredFields : Reader Unit := do
  let whole ← byte
  if whole = 1 then times 10 coveredZero else refuse .coveredFields

end Countersign.Reader
