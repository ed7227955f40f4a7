import Countersign.Bytes

/-!
# The twisted Edwards curve of Ed25519

The curve `−x² + y² = 1 + d·x²·y²` over the integers modulo `p = 2^255 − 19`. A point is kept as
`(x, y, z, t)` with affine coordinates `x/z` and `y/z` and with `t = x·y/z`; one addition law then
serves for all pairs of points, since `d` is not a square, and needs no division.
-/

namespace Countersign.Edwards

/-! ## The field -/

/-- The order of the field. -/
def p : Nat := Nat.pow 2 255 - 19

/-- The power `b ^ e` modulo `m`, by squaring. -/
def power (m b e : Nat) : Nat :=
  if e = 0 then 1 % m
  else
    let half := power m (b * b % m) (e / 2)
    if e % 2 = 1 then b * half % m else half
termination_by e

/-- The inverse of a nonzero number of the field, by Fermat's theorem. -/
def inverse (v : Nat) : Nat := power p v (p - 2)

/-- The difference of two numbers of the field. -/
def sub (u v : Nat) : Nat := (u + (p - v % p)) % p

/-- The constant `−121665/121666` of the curve. -/
def d : Nat := sub 0 (121665 * inverse 121666 % p)

/-! ## Points -/

/-- A point of the curve. -/
structure Point where
  x : Nat
  y : Nat
  z : Nat
  t : Nat

namespace Point

/-- The neutral point. -/
def zero : Point := ⟨0, 1, 1, 0⟩

/-- The sum of two points; `k` is twice the constant of the curve. -/
def addWith (k : Nat) (u v : Point) : Point :=
  let a := sub u.y u.x * sub v.y v.x % p
  let b := (u.y + u.x) * (v.y + v.x) % p
  let c := u.t * k % p * v.t % p
  let e := 2 * u.z * v.z % p
  ⟨sub b a * sub e c % p, (e + c) * (b + a) % p, sub e c * (e + c) % p, sub b a * (b + a) % p⟩

/-- The point added to itself `n` times, by doubling. -/
def timesWith (k n : Nat) (u : Point) : Point :=
  if n = 0 then zero
  else
    let half := timesWith k (n / 2) (addWith k u u)
    if n % 2 = 1 then addWith k u half else half
termination_by n

/-- The sum of a point with itself, `n` times. -/
def times (n : Nat) (u : Point) : Point := timesWith (2 * d % p) n u

/-- The point whose affine coordinates these are. -/
def ofAffine (x y : Nat) : Point := ⟨x, y, 1, x * y % p⟩

/-- The affine coordinate `y` in 255 bits and the lowest bit of `x` above it. -/
def encode (u : Point) : Block 32 :=
  let zInv := inverse u.z
  let x := u.x * zInv % p
  let y := u.y * zInv % p
  ⟨littleEndian 32 (y + (x % 2) * Nat.pow 2 255), by simp⟩

end Point

/-- The base point, with `y = 4/5` and `x` even. -/
def base : Point :=
  Point.ofAffine
    15112221349535400772501151409588531511454012693041857206046113283949847762202
    46316835694926478169428394003475163141307993866256225615783033603165251855960

/-- The order of the base point, a prime. -/
def order : Nat := Nat.pow 2 252 + 27742317777372353535851937790883648493

end Countersign.Edwards
