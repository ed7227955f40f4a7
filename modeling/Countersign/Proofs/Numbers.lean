import Countersign.Bytes
import Mathlib.Algebra.Group.Nat.Defs

/-!
# Numbers as bytes

`littleEndian n` and `ofLittleEndian` are inverse to each other on numbers of `n` bytes; so are
`bytesOfWord` and `wordOfBytes` on words of eight.
-/

namespace Countersign

theorem ofLittleEndian_lt (bs : Bytes) : ofLittleEndian bs < 256 ^ bs.length := by
  induction bs with
  | nil => simp [ofLittleEndian]
  | cons b bs ih =>
    have hb := b.toNat_lt
    simp only [ofLittleEndian, List.length_cons, Nat.pow_succ]
    omega

theorem ofLittleEndian_littleEndian (n v : Nat) :
    ofLittleEndian (littleEndian n v) = v % 256 ^ n := by
  induction n generalizing v with
  | zero => simp [littleEndian, ofLittleEndian, Nat.mod_one]
  | succ n ih =>
    have byte : (UInt8.ofNat v).toNat = v % 256 := by simp
    rw [littleEndian, ofLittleEndian, ih, byte, Nat.pow_succ, Nat.mul_comm (256 ^ n) 256,
      Nat.mod_mul]

theorem littleEndian_ofLittleEndian (bs : Bytes) :
    littleEndian bs.length (ofLittleEndian bs) = bs := by
  induction bs with
  | nil => rfl
  | cons b bs ih =>
    have hb := b.toNat_lt
    have hdiv : (b.toNat + 256 * ofLittleEndian bs) / 256 = ofLittleEndian bs := by omega
    have hbyte : UInt8.ofNat (b.toNat + 256 * ofLittleEndian bs) = b := by
      apply UInt8.toNat.inj
      simp only [UInt8.toNat_ofNat']
      omega
    simp only [ofLittleEndian, List.length_cons, littleEndian, hdiv, hbyte, ih]

theorem ofLittleEndian_append (bs cs : Bytes) :
    ofLittleEndian (bs ++ cs) = ofLittleEndian bs + 256 ^ bs.length * ofLittleEndian cs := by
  induction bs with
  | nil => simp [ofLittleEndian]
  | cons b bs ih =>
    rw [List.cons_append, ofLittleEndian, ofLittleEndian, ih, List.length_cons, Nat.pow_succ,
      Nat.mul_add, Nat.add_assoc, Nat.mul_comm (256 ^ bs.length) 256, Nat.mul_assoc]

/-! ## Words -/

@[simp] theorem wordOfBytes_bytesOfWord (w : UInt64) : wordOfBytes (bytesOfWord w) = w := by
  have hw := w.toNat_lt
  apply UInt64.toNat.inj
  simp only [wordOfBytes, bytesOfWord, ofLittleEndian_littleEndian, UInt64.toNat_ofNat']
  omega

theorem bytesOfWord_wordOfBytes {bs : Bytes} (h : bs.length = 8) :
    bytesOfWord (wordOfBytes bs) = bs := by
  have hlt := ofLittleEndian_lt bs
  have hword : (UInt64.ofNat (ofLittleEndian bs)).toNat = ofLittleEndian bs := by
    rw [h] at hlt
    rw [UInt64.toNat_ofNat']
    omega
  rw [bytesOfWord, wordOfBytes, hword, ← h]
  exact littleEndian_ofLittleEndian bs

end Countersign
