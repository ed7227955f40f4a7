import Countersign.Bytes

/-!
# SHA-512 and its keyed form

The hash of the signature scheme and of key derivation. The message, a one bit, zeros and the
128-bit length are taken in blocks of sixteen big-endian words. With `W` the block's words, the
schedule goes on by

  `W t = σ₁ (W (t − 2)) + W (t − 7) + σ₀ (W (t − 15)) + W (t − 16)`

up to eighty words, one for each round. The keyed form is HMAC: the hash of the outer key block and
the hash of the inner key block and the message.
-/

namespace Countersign.Sha512

/-! ## Words -/

/-- A word rotated right by `n` bits, `n` below 64 and not zero. -/
def rotate (n w : UInt64) : UInt64 := (w >>> n) ||| (w <<< (64 - n))

/-- The function of the schedule on the word fifteen places back. -/
def smallSigma0 (w : UInt64) : UInt64 := rotate 1 w ^^^ rotate 8 w ^^^ (w >>> 7)

/-- The function of the schedule on the word two places back. -/
def smallSigma1 (w : UInt64) : UInt64 := rotate 19 w ^^^ rotate 61 w ^^^ (w >>> 6)

/-- The function of a round on its first working word. -/
def bigSigma0 (w : UInt64) : UInt64 := rotate 28 w ^^^ rotate 34 w ^^^ rotate 39 w

/-- The function of a round on its fifth working word. -/
def bigSigma1 (w : UInt64) : UInt64 := rotate 14 w ^^^ rotate 18 w ^^^ rotate 41 w

/-- The constants of the eighty rounds. -/
def roundConstants : List UInt64 :=
  [0x428a2f98d728ae22, 0x7137449123ef65cd, 0xb5c0fbcfec4d3b2f, 0xe9b5dba58189dbbc,
   0x3956c25bf348b538, 0x59f111f1b605d019, 0x923f82a4af194f9b, 0xab1c5ed5da6d8118,
   0xd807aa98a3030242, 0x12835b0145706fbe, 0x243185be4ee4b28c, 0x550c7dc3d5ffb4e2,
   0x72be5d74f27b896f, 0x80deb1fe3b1696b1, 0x9bdc06a725c71235, 0xc19bf174cf692694,
   0xe49b69c19ef14ad2, 0xefbe4786384f25e3, 0x0fc19dc68b8cd5b5, 0x240ca1cc77ac9c65,
   0x2de92c6f592b0275, 0x4a7484aa6ea6e483, 0x5cb0a9dcbd41fbd4, 0x76f988da831153b5,
   0x983e5152ee66dfab, 0xa831c66d2db43210, 0xb00327c898fb213f, 0xbf597fc7beef0ee4,
   0xc6e00bf33da88fc2, 0xd5a79147930aa725, 0x06ca6351e003826f, 0x142929670a0e6e70,
   0x27b70a8546d22ffc, 0x2e1b21385c26c926, 0x4d2c6dfc5ac42aed, 0x53380d139d95b3df,
   0x650a73548baf63de, 0x766a0abb3c77b2a8, 0x81c2c92e47edaee6, 0x92722c851482353b,
   0xa2bfe8a14cf10364, 0xa81a664bbc423001, 0xc24b8b70d0f89791, 0xc76c51a30654be30,
   0xd192e819d6ef5218, 0xd69906245565a910, 0xf40e35855771202a, 0x106aa07032bbd1b8,
   0x19a4c116b8d2d0c8, 0x1e376c085141ab53, 0x2748774cdf8eeb99, 0x34b0bcb5e19b48a8,
   0x391c0cb3c5c95a63, 0x4ed8aa4ae3418acb, 0x5b9cca4f7763e373, 0x682e6ff3d6b2b8a3,
   0x748f82ee5defb2fc, 0x78a5636f43172f60, 0x84c87814a1f0ab72, 0x8cc702081a6439ec,
   0x90befffa23631e28, 0xa4506cebde82bde9, 0xbef9a3f7b2c67915, 0xc67178f2e372532b,
   0xca273eceea26619c, 0xd186b8c721c0c207, 0xeada7dd6cde0eb1e, 0xf57d4f7fee6ed178,
   0x06f067aa72176fba, 0x0a637dc5a2c898a6, 0x113f9804bef90dae, 0x1b710b35131c471b,
   0x28db77f523047d84, 0x32caab7b40c72493, 0x3c9ebe0a15c9bebc, 0x431d67c49c100d4c,
   0x4cc5d4becb3e42b6, 0x597f299cfc657e2a, 0x5fcb6fab3ad6faec, 0x6c44198c4a475817]

/-! ## One block -/

/-- The eight working words. -/
structure Work where
  a : UInt64
  b : UInt64
  c : UInt64
  d : UInt64
  e : UInt64
  f : UInt64
  g : UInt64
  h : UInt64

/-- The working words before the first block. -/
def Work.start : Work :=
  ⟨0x6a09e667f3bcc908, 0xbb67ae8584caa73b, 0x3c6ef372fe94f82b, 0xa54ff53a5f1d36f1,
   0x510e527fade682d1, 0x9b05688c2b3e6c1f, 0x1f83d9abfb41bd6b, 0x5be0cd19137e2179⟩

/-- Sums modulo 2^64, place by place. -/
def Work.add (x y : Work) : Work :=
  ⟨x.a + y.a, x.b + y.b, x.c + y.c, x.d + y.d, x.e + y.e, x.f + y.f, x.g + y.g, x.h + y.h⟩

/-- The working words as big-endian bytes. -/
def Work.bytes (x : Work) : Bytes :=
  bigEndian 8 x.a.toNat ++ bigEndian 8 x.b.toNat ++ bigEndian 8 x.c.toNat ++
    bigEndian 8 x.d.toNat ++ bigEndian 8 x.e.toNat ++ bigEndian 8 x.f.toNat ++
    bigEndian 8 x.g.toNat ++ bigEndian 8 x.h.toNat

@[simp] theorem Work.length_bytes (x : Work) : x.bytes.length = 64 := by
  simp [Work.bytes]

/-- One round, with the sum of its constant and its schedule word. -/
def Work.round (x : Work) (k : UInt64) : Work :=
  let t1 := x.h + bigSigma1 x.e + ((x.e &&& x.f) ^^^ (~~~x.e &&& x.g)) + k
  let t2 := bigSigma0 x.a + ((x.a &&& x.b) ^^^ (x.a &&& x.c) ^^^ (x.b &&& x.c))
  ⟨t1 + t2, x.a, x.b, x.c, x.d + t1, x.e, x.f, x.g⟩

/-- The schedule `n` words further; the words run from the newest to the oldest. -/
def extend : Nat → List UInt64 → List UInt64
  | 0, ws => ws
  | n + 1, ws =>
    let w := smallSigma1 (ws.getD 1 0) + ws.getD 6 0 + smallSigma0 (ws.getD 14 0) + ws.getD 15 0
    extend n (w :: ws)

/-- The eighty schedule words of a block of 128 bytes. -/
def schedule (block : Bytes) : List UInt64 :=
  let words := (pieces 7 block).map fun w => UInt64.ofNat (ofBigEndian w)
  (extend 64 words.reverse).reverse

/-- The working words after a block. -/
def Work.absorb (x : Work) (block : Bytes) : Work :=
  x.add ((List.zipWith (· + ·) roundConstants (schedule block)).foldl Work.round x)

/-! ## The digest -/

/-- The message, a one bit, and as many zeros as bring the length with its own 16 bytes to a
multiple of 128. -/
def padded (message : Bytes) : Bytes :=
  let n := message.length
  message ++ 0x80 :: (List.replicate ((239 - n % 128) % 128) 0 ++ bigEndian 16 (8 * n))

/-- The 512-bit digest of a message. -/
def digest (message : Bytes) : Block 64 :=
  ⟨((pieces 127 (padded message)).foldl Work.absorb Work.start).bytes, by simp⟩

/-! ## The keyed digest -/

/-- A key filled up with zeros to one block; a longer key is replaced by its digest. -/
def keyBlock (key : Bytes) : Block 128 :=
  Block.ofBytes 128 (if key.length ≤ 128 then key else (digest key).bytes)

/-- The keyed digest of a message. -/
def keyedDigest (key message : Bytes) : Block 64 :=
  let masked (mask : UInt8) : Bytes := (keyBlock key).bytes.map (· ^^^ mask)
  digest (masked 0x5c ++ (digest (masked 0x36 ++ message)).bytes)

end Countersign.Sha512
