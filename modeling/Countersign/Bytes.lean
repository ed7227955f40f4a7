/-!
# Byte strings

Everything that crosses the wire is a list of bytes. Four things live here:

* `Block n`, a byte string of exactly `n` bytes (hashes, keys, addresses, signatures);
* `littleEndian` and `ofLittleEndian`, numbers as bytes with the least significant byte first,
  and the same with the most significant byte first;
* `pieces`, a byte string cut into pieces of one size, the last one possibly shorter;
* `hexDigits`, the lower-case hexadecimal text of a byte string.
-/

namespace Countersign

/-- A byte string of any length. -/
abbrev Bytes := List UInt8

/-! ## Byte strings of a fixed length -/

/-- A byte string of exactly `n` bytes. -/
@[ext] structure Block (n : Nat) where
  bytes : Bytes
  length_bytes : bytes.length = n
deriving DecidableEq

namespace Block

variable {n : Nat}

attribute [simp] length_bytes

/-- The block whose bytes are all zero. -/
def zero (n : Nat) : Block n := ⟨List.replicate n 0, by simp⟩

instance : Inhabited (Block n) := ⟨zero n⟩

/-- The first `n` bytes of a byte string, filled up with zeros when there are fewer. -/
def ofBytes (n : Nat) (bs : Bytes) : Block n :=
  ⟨bs.take n ++ List.replicate (n - bs.length) 0, by
    simp only [List.length_append, List.length_take, List.length_replicate]
    omega⟩

/-- The block with these bytes, if there are exactly `n` of them. -/
def ofBytes? (n : Nat) (bs : Bytes) : Option (Block n) :=
  if h : bs.length = n then some ⟨bs, h⟩ else none

theorem bytes_ofBytes {bs : Bytes} (h : bs.length = n) : (ofBytes n bs).bytes = bs := by
  subst h
  simp [ofBytes]

@[simp] theorem ofBytes?_bytes (b : Block n) : ofBytes? n b.bytes = some b := by
  simp [ofBytes?]

end Block

/-! ## Numbers as bytes -/

/-- The `n` low bytes of a number, least significant byte first. -/
def littleEndian : Nat → Nat → Bytes
  | 0, _ => []
  | n + 1, v => UInt8.ofNat v :: littleEndian n (v / 256)

/-- The number that a byte string denotes, least significant byte first. -/
def ofLittleEndian : Bytes → Nat
  | [] => 0
  | b :: bs => b.toNat + 256 * ofLittleEndian bs

/-- The `n` low bytes of a number, most significant byte first. -/
def bigEndian (n v : Nat) : Bytes := (littleEndian n v).reverse

/-- The number that a byte string denotes, most significant byte first. -/
def ofBigEndian (bs : Bytes) : Nat := ofLittleEndian bs.reverse

@[simp] theorem length_littleEndian (n v : Nat) : (littleEndian n v).length = n := by
  induction n generalizing v with
  | zero => rfl
  | succ n ih => simp [littleEndian, ih]

@[simp] theorem length_bigEndian (n v : Nat) : (bigEndian n v).length = n := by
  simp [bigEndian]

/-- The 64-bit word that up to eight bytes denote, least significant byte first. -/
def wordOfBytes (bs : Bytes) : UInt64 := UInt64.ofNat (ofLittleEndian bs)

/-- The eight bytes of a 64-bit word, least significant byte first. -/
def bytesOfWord (w : UInt64) : Bytes := littleEndian 8 w.toNat

@[simp] theorem length_bytesOfWord (w : UInt64) : (bytesOfWord w).length = 8 := by
  simp [bytesOfWord]

/-! ## Pieces -/

/-- A byte string cut into pieces of `n + 1` bytes, the last one possibly shorter. -/
def pieces (n : Nat) (bs : Bytes) : List Bytes :=
  match bs with
  | [] => []
  | b :: rest => (b :: rest.take n) :: pieces n (rest.drop n)
termination_by bs.length
decreasing_by
  simp only [List.length_drop, List.length_cons]
  omega

theorem flatten_pieces (n : Nat) (bs : Bytes) : (pieces n bs).flatten = bs := by
  fun_induction pieces n bs with
  | case1 => rfl
  | case2 b rest ih => simp [ih]

/-! ## Hexadecimal text -/

/-- The lower-case hexadecimal digit of a number below sixteen. -/
def hexDigit (v : Nat) : Char :=
  if v < 10 then Char.ofNat (48 + v) else Char.ofNat (87 + v)

/-- Two lower-case hexadecimal digits for each byte, the high half first. -/
def hexDigits (bs : Bytes) : List Char :=
  bs.flatMap fun b => [hexDigit (b.toNat / 16), hexDigit (b.toNat % 16)]

@[simp] theorem length_hexDigits (bs : Bytes) : (hexDigits bs).length = 2 * bs.length := by
  induction bs with
  | nil => rfl
  | cons b bs ih =>
    simp only [hexDigits, List.flatMap_cons, List.length_append, List.length_cons] at ih ⊢
    simp only [ih, List.length_nil]
    omega

/-- The bytes of ASCII characters. -/
def asciiBytes (cs : List Char) : Bytes := cs.map fun c => UInt8.ofNat c.toNat

@[simp] theorem length_asciiBytes (cs : List Char) : (asciiBytes cs).length = cs.length := by
  simp [asciiBytes]

end Countersign
