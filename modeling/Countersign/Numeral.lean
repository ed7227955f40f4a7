/-!
# Decimal numerals

`numeral n` is the one decimal numeral of `n` without leading zeros, and `"0"` for zero;
`valueOfDigits` reads any string of decimal digits back, leading zeros or not.
-/

namespace Countersign

/-- The decimal digit of a number below ten. -/
def digitChar (v : Nat) : Char := Char.ofNat (48 + v)

/-- The decimal numeral of a number, without leading zeros. -/
def numeral (n : Nat) : List Char :=
  if n < 10 then [digitChar n] else numeral (n / 10) ++ [digitChar (n % 10)]

theorem numeral_ne_nil (n : Nat) : numeral n ≠ [] := by
  rw [numeral]
  split <;> simp

/-- The number that decimal digits denote, the most significant digit first. -/
def valueOfDigits (ds : List Char) : Nat := ds.foldl (fun v c => 10 * v + (c.toNat - 48)) 0

/-- A decimal digit of ASCII. -/
def isDigit (c : Char) : Bool := 48 ≤ c.toNat && c.toNat ≤ 57

end Countersign
