import Countersign.Numeral

/-!
# Amounts on the screen

A decimal text is shown with a point some places from its right end, without the zeros that end
its fraction and without a point that nothing follows, and with a unit after it. The text on the
screen has at most 56 bytes in UTF-8; what would go past that is left out as a whole. Lengths and
places are counted in bytes, so a text that is not decimal may have its point fall inside a
character: then there is nothing to show.
-/

namespace Countersign.Currency

/-- The most bytes the screen takes. -/
def maxShown : Nat := 56

/-- The decimal places of a siacoin. -/
def siacoinPlaces : Nat := 24

/-- The unit of siacoins. -/
def siacoinUnit : List Char := " SC".toList

/-- The unit of siafunds. -/
def siafundUnit : List Char := " SF".toList

/-! ## Text measured in bytes -/

/-- The bytes of a text in UTF-8. -/
def width : List Char → Nat
  | [] => 0
  | c :: cs => c.utf8Size + width cs

/-- A text cut after its first `n` bytes; nothing if there are fewer, or if the cut would fall
inside a character. -/
def cut (n : Nat) : List Char → Option (List Char × List Char)
  | [] => if n = 0 then some ([], []) else none
  | c :: cs =>
    if n = 0 then some ([], c :: cs)
    else if c.utf8Size ≤ n then (cut (n - c.utf8Size) cs).map fun (l, r) => (c :: l, r)
    else none

/-- The second text after the first, if both together fit the screen, and else the first alone. -/
def put (shown more : List Char) : List Char :=
  if width shown + width more ≤ maxShown then shown ++ more else shown

/-- As many zeros after a text as fit the screen, at most `n`. -/
def putZeros : Nat → List Char → List Char
  | 0, shown => shown
  | n + 1, shown => putZeros n (put shown ['0'])

/-- The text without the zeros at its end, and then without a point at its end. -/
def trim (shown : List Char) : List Char :=
  match shown.reverse.dropWhile (· == '0') with
  | '.' :: rest => rest.reverse
  | rest => rest.reverse

/-! ## The point -/

/-- The integer part and the fraction: a text longer than `places` is cut, any other is all
fraction, behind a zero. -/
def split (digits : List Char) (places : Nat) : Option (List Char × List Char) :=
  if width digits > places then cut (width digits - places) digits else some (['0'], digits)

/-- A text with a point `places` from its right end, trimmed, and the unit. -/
def fixedPoint (digits : List Char) (places : Nat) (unit : List Char) : Option (List Char) :=
  (split digits places).map fun (whole, fraction) =>
    put (trim (put (putZeros (places - width digits) (put (put [] whole) ['.'])) fraction)) unit

/-- Why a number cannot be scaled. -/
inductive ScaleError where
  /-- It is not decimal, or would need more room than the screen has. -/
  | unshowable
  /-- The length of the result is not a 64-bit number. -/
  | lengthOverflow
  /-- The point falls inside a character. -/
  | splitCharacter
deriving DecidableEq

/-- The bytes of a result before it is trimmed and without its unit. -/
def untrimmedWidth (digits : List Char) (places : Nat) : Nat :=
  if width digits > places then width digits + 1 else places + 2

/-- A decimal text with a point `places` from its right end, trimmed, and the unit; refused unless
it would fit the screen before it is trimmed. -/
def scale (digits : String) (places : UInt64) (unit : String) : Except ScaleError String :=
  let ds := digits.toList
  let full := untrimmedWidth ds places.toNat + width unit.toList
  if !ds.all isDigit then .error .unshowable
  else if full ≥ UInt64.size then .error .lengthOverflow
  else if full > maxShown then .error .unshowable
  else
    match fixedPoint ds places.toNat unit.toList with
    | none => .error .splitCharacter
    | some shown => .ok (String.ofList shown)

/-- An amount in the smallest unit, shown in siacoins. -/
def formatSiacoins (digits : String) : Option String :=
  (fixedPoint digits.toList siacoinPlaces siacoinUnit).map String.ofList

/-- A number of siafunds, which are never divided. -/
def formatSiafunds (digits : String) : String :=
  String.ofList (put (put [] digits.toList) siafundUnit)

end Countersign.Currency
