import Countersign.Numeral
import Countersign.Message.Codec

/-!
# Versions

A version is three numbers below 256. As text it is `major.minor.patch`, where each of the first two
may have a plus sign and leading zeros, and whatever follows the digits of the third is ignored.
-/

namespace Countersign

/-- The version of an application. -/
structure Version where
  major : UInt8
  minor : UInt8
  patch : UInt8
deriving DecidableEq

namespace Version

/-- The parts of a text between points. -/
def parts : List Char → List (List Char)
  | [] => [[]]
  | c :: cs =>
    match c, parts cs with
    | '.', ps => [] :: ps
    | c, p :: ps => (c :: p) :: ps
    | c, [] => [[c]]

/-- The digits of a numeral without the plus sign it may have. -/
def dropPlus : List Char → List Char
  | '+' :: cs => cs
  | cs => cs

/-- The number below 256 that a numeral denotes. -/
def byte? (numeral : List Char) : Option UInt8 :=
  let ds := dropPlus numeral
  if ds ≠ [] ∧ ds.all isDigit ∧ valueOfDigits ds < 256 then some (UInt8.ofNat (valueOfDigits ds))
  else none

/-- The version that a text gives. -/
def parse? (text : String) : Option Version :=
  match parts text.toList with
  | major :: minor :: patch :: _ =>
    match byte? major, byte? minor, byte? (patch.takeWhile isDigit) with
    | some major, some minor, some patch => some ⟨major, minor, patch⟩
    | _, _, _ => none
  | _ => none

end Version

instance : Codec Version where
  size _ := 3
  write v :=
    Print.byte v.major |>.followedBy (Print.byte v.minor) |>.followedBy (Print.byte v.patch)
  scan := do return ⟨← Scan.byte, ← Scan.byte, ← Scan.byte⟩

end Countersign
