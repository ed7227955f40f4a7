import Countersign.Bytes

/-!
# BLAKE2b with a 256-bit digest

The unkeyed hash of transactions and addresses. The sixteen working words are four rows of four,

  `a b c d`, row `a` on top,

and a round mixes the four columns at once, turns rows `b`, `c`, `d` left by one, two and three
places so that the diagonals become columns, mixes again, and turns the rows back. The message is
taken 128 bytes at a time; the last block, which may be short or empty, is read as if zeros
followed it and is marked as last.
-/

namespace Countersign

/-- A hash of 32 bytes. -/
abbrev Digest := Block 32

namespace Blake2b

/-! ## Rows of four words -/

/-- Four 64-bit words that are worked on together. -/
structure Row where
  w0 : UInt64
  w1 : UInt64
  w2 : UInt64
  w3 : UInt64
deriving DecidableEq

namespace Row

/-- The words of two rows, combined place by place. -/
def zipWith (f : UInt64 → UInt64 → UInt64) (x y : Row) : Row :=
  ⟨f x.w0 y.w0, f x.w1 y.w1, f x.w2 y.w2, f x.w3 y.w3⟩

/-- Sums modulo 2^64. -/
def add (x y : Row) : Row := zipWith (· + ·) x y

/-- The exclusive or, bit by bit. -/
def xor (x y : Row) : Row := zipWith (· ^^^ ·) x y

/-- The exclusive or of two rows, with every word then rotated right by `n` bits. -/
def xorRotate (n : UInt64) (x y : Row) : Row :=
  zipWith (fun u v => ((u ^^^ v) >>> n) ||| ((u ^^^ v) <<< (64 - n))) x y

/-- The words moved one place to the left, the first one to the end. -/
def turn (x : Row) : Row := ⟨x.w1, x.w2, x.w3, x.w0⟩

/-- The words as bytes. -/
def bytes (x : Row) : Bytes :=
  bytesOfWord x.w0 ++ bytesOfWord x.w1 ++ bytesOfWord x.w2 ++ bytesOfWord x.w3

@[simp] theorem length_bytes (x : Row) : x.bytes.length = 32 := by
  simp [bytes]

end Row

/-! ## The mixing rounds -/

/-- The four rows of working words. -/
structure Grid where
  a : Row
  b : Row
  c : Row
  d : Row

/-- The four columns of a grid, each mixed with its two message words. -/
def Grid.mix (x y : Row) (g : Grid) : Grid :=
  let a := (g.a.add g.b).add x
  let d := g.d.xorRotate 32 a
  let c := g.c.add d
  let b := g.b.xorRotate 24 c
  let a := (a.add b).add y
  let d := d.xorRotate 16 a
  let c := c.add d
  let b := b.xorRotate 63 c
  ⟨a, b, c, d⟩

/-- The order in which a round takes the sixteen message words. -/
abbrev Order := Vector (Fin 16) 16

/-- The orders of the twelve rounds; the last two repeat the first two. -/
def orders : List Order :=
  [#v[0, 1, 2, 3, 4, 5, 6, 7, 8, 9, 10, 11, 12, 13, 14, 15],
   #v[14, 10, 4, 8, 9, 15, 13, 6, 1, 12, 0, 2, 11, 7, 5, 3],
   #v[11, 8, 12, 0, 5, 2, 15, 13, 10, 14, 3, 6, 7, 1, 9, 4],
   #v[7, 9, 3, 1, 13, 12, 11, 14, 2, 6, 5, 10, 4, 0, 15, 8],
   #v[9, 0, 5, 7, 2, 4, 10, 15, 14, 1, 11, 12, 6, 8, 3, 13],
   #v[2, 12, 6, 10, 0, 11, 8, 3, 4, 13, 7, 5, 15, 14, 1, 9],
   #v[12, 5, 1, 15, 14, 13, 4, 10, 0, 7, 6, 3, 9, 2, 8, 11],
   #v[13, 11, 7, 14, 12, 1, 3, 9, 5, 0, 15, 4, 8, 6, 2, 10],
   #v[6, 15, 14, 9, 11, 3, 0, 8, 12, 2, 13, 7, 1, 4, 10, 5],
   #v[10, 2, 8, 4, 7, 6, 1, 5, 15, 11, 9, 14, 3, 12, 13, 0],
   #v[0, 1, 2, 3, 4, 5, 6, 7, 8, 9, 10, 11, 12, 13, 14, 15],
   #v[14, 10, 4, 8, 9, 15, 13, 6, 1, 12, 0, 2, 11, 7, 5, 3]]

/-- One round: the columns with the first eight words of its order, the diagonals with the rest. -/
def Grid.round (m : Vector UInt64 16) (g : Grid) (s : Order) : Grid :=
  let g := g.mix ⟨m[s[0]], m[s[2]], m[s[4]], m[s[6]]⟩ ⟨m[s[1]], m[s[3]], m[s[5]], m[s[7]]⟩
  let g : Grid := ⟨g.a, g.b.turn, g.c.turn.turn, g.d.turn.turn.turn⟩
  let g := g.mix ⟨m[s[8]], m[s[10]], m[s[12]], m[s[14]]⟩ ⟨m[s[9]], m[s[11]], m[s[13]], m[s[15]]⟩
  ⟨g.a, g.b.turn.turn.turn, g.c.turn.turn, g.d.turn⟩

/-! ## Blocks and the digest -/

/-- The chaining value between two blocks. -/
structure Chain where
  low : Row
  high : Row

/-- The first four words of the initialisation vector. -/
def ivLow : Row :=
  ⟨0x6a09e667f3bcc908, 0xbb67ae8584caa73b, 0x3c6ef372fe94f82b, 0xa54ff53a5f1d36f1⟩

/-- The last four words of the initialisation vector. -/
def ivHigh : Row :=
  ⟨0x510e527fade682d1, 0x9b05688c2b3e6c1f, 0x1f83d9abfb41bd6b, 0x5be0cd19137e2179⟩

/-- The chaining value before the first block: no key, a digest of 32 bytes. -/
def Chain.start : Chain :=
  ⟨{ ivLow with w0 := ivLow.w0 ^^^ 0x01010020 }, ivHigh⟩

/-- The sixteen words of a block of up to 128 bytes, read as if zeros followed it. -/
def wordsOfBlock (block : Bytes) : Vector UInt64 16 :=
  Vector.ofFn fun i => wordOfBytes ((block.drop (8 * i)).take 8)

/-- The chaining value after a block; `count` is the number of message bytes up to its end. -/
def Chain.absorb (h : Chain) (block : Bytes) (count : Nat) (last : Bool) : Chain :=
  let counter : Row :=
    ⟨UInt64.ofNat count, UInt64.ofNat (count / UInt64.size),
      if last then 0xffffffffffffffff else 0, 0⟩
  let m := wordsOfBlock block
  let g := orders.foldl (Grid.round m) ⟨h.low, h.high, ivLow, ivHigh.xor counter⟩
  ⟨h.low.xor (g.a.xor g.c), h.high.xor (g.b.xor g.d)⟩

/-- The chaining value after all blocks; `count` is the number of bytes before the first of them. -/
def Chain.absorbAll (h : Chain) (count : Nat) : List Bytes → Chain
  | [] => h.absorb [] count true
  | [block] => h.absorb block (count + block.length) true
  | block :: rest =>
    (h.absorb block (count + block.length) false).absorbAll (count + block.length) rest

/-- The 256-bit digest of a message. -/
def digest (message : Bytes) : Digest :=
  ⟨(Chain.start.absorbAll 0 (pieces 127 message)).low.bytes, by simp⟩

end Blake2b

end Countersign
