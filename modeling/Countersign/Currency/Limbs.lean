import Countersign.Bytes
import Countersign.Numeral
import Countersign.Txn.DecodeError

/-!
# Amounts on the wire and their decimal digits

An amount is a big-endian number of at most 18 bytes. It is worked on as three limbs of 64 bits,
least significant first, and its digits come out one at a time, the last digit first: the limbs
are divided by ten and the remainder is the digit. A division runs from the most significant limb
down, and carries the remainder, which is below ten, into the limb below; so each step divides two
words by ten and its quotient fits one word. Three limbs hold less than 10^58, but 18 bytes less
than 10^44: the 48 places kept for the digits are enough.
-/

namespace Countersign.Currency

/-- The longest amount in bytes. -/
def maxBytes : Nat := 18

/-- The number of places for digits. -/
def maxDigits : Nat := 48

/-! ## Limbs -/

/-- The number that limbs denote, least significant limb first. -/
def valueOfLimbs : List UInt64 → Nat
  | [] => 0
  | w :: ws => w.toNat + UInt64.size * valueOfLimbs ws

/-- The limbs of a number given by its bytes, least significant byte and limb first. -/
def limbsOfBytes : Nat → Bytes → List UInt64
  | 0, _ => []
  | n + 1, bs => wordOfBytes (bs.take 8) :: limbsOfBytes n (bs.drop 8)

/-- The quotient and the remainder of two words, `high` above `low`, divided by ten; the quotient
is cut to one word. -/
def divideWide (high low : UInt64) : UInt64 × UInt64 :=
  let v := high.toNat * UInt64.size + low.toNat
  (UInt64.ofNat (v / 10), UInt64.ofNat (v % 10))

/-- The limbs of the quotient by ten, and the remainder. -/
def divideByTen : List UInt64 → List UInt64 × UInt64
  | [] => ([], 0)
  | w :: ws =>
    let (qs, carry) := divideByTen ws
    let (q, r) := divideWide carry w
    (q :: qs, r)

/-! ## Digits -/

/-- The digits of the limbs in front of those found so far, or nothing if they need more than
`places` places. -/
def digitsOfLimbs (places : Nat) (limbs : List UInt64) (found : List Char) :
    Option (List Char) :=
  if limbs.all (· == 0) then some found
  else
    match places with
    | 0 => none
    | places + 1 =>
      let (qs, r) := divideByTen limbs
      digitsOfLimbs places qs (digitChar r.toNat :: found)

/-- The decimal digits of an amount, `"0"` for zero; an amount longer than 18 bytes is refused. -/
def decode (raw : Bytes) : Except DecodeError String :=
  if raw.length > maxBytes then
    .error .currencyTooLarge
  else
    match digitsOfLimbs maxDigits (limbsOfBytes 3 raw.reverse) [] with
    | none => .error .currencyTooLarge
    | some [] => .ok "0"
    | some ds => .ok (String.ofList ds)

end Countersign.Currency
