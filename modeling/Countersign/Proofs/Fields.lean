import Countersign.Proofs.Amounts
import Countersign.Proofs.Reading
import Countersign.Txn.V1.Transaction
import Countersign.Txn.V2.Transaction
import Countersign.Txn.V1
import Countersign.Txn.V2

/-!
# The bytes of fields and entries

For each reader, the byte strings that it accepts are the encodings of values, and nothing else.
A length in front has 64 bits, so this is said of byte strings that are shorter than 2^64; the
buffer holds far less.

* `accepts_skipBytes`, `accepts_times`: byte strings and lists with their length in front;
* `accepts_currency`: amounts of at most 18 bytes, as the numeral of the number they denote;
* `accepts_unlockConditions`, `accepts_coveredFields`: the nested parts of inputs and signatures;
* the headers and entries that sections are made of.
-/

namespace Countersign

/-! ## Lengths in front -/

theorem bytesOfWord_ofNat {n : Nat} (h : n < 2 ^ 64) :
    bytesOfWord (UInt64.ofNat n) = littleEndian 8 n := by
  rw [bytesOfWord, UInt64.toNat_ofNat_of_lt' h]

theorem bytesOfWord_toNat {w : UInt64} {n : Nat} (h : n = w.toNat) :
    bytesOfWord w = littleEndian 8 n := by
  rw [bytesOfWord, h]

/-- A list is no longer than its members on the wire, if none of them is empty there. -/
theorem length_le_length_flatMap {α : Type} {encode : α → Bytes}
    (h : ∀ x, 0 < (encode x).length) (xs : List α) : xs.length ≤ (xs.flatMap encode).length := by
  induction xs with
  | nil => exact Nat.le_refl 0
  | cons x xs ih =>
    have hx := h x
    rw [List.flatMap_cons, List.length_append, List.length_cons]
    omega

namespace Reader

/-- A byte string with its length in front. -/
theorem accepts_skipBytes {w : Bytes} (hw : w.length < 2 ^ 64) :
    skipBytes.Accepts w () ↔ ∃ bs, w = encodeBytes bs := by
  unfold skipBytes
  rw [accepts_bind]
  apply Iff.intro
  · intro h
    obtain ⟨n, u, v, rfl, hu, hv⟩ := h
    obtain rfl := accepts_word.1 hu
    have hlen : v.length = n.toNat := accepts_skip.1 hv
    refine ⟨v, ?_⟩
    rw [encodeBytes, bytesOfWord_toNat hlen]
  · intro h
    obtain ⟨bs, rfl⟩ := h
    rw [encodeBytes, List.length_append] at hw
    have hbs : bs.length < 2 ^ 64 := by omega
    have hlen : (UInt64.ofNat bs.length).toNat = bs.length := UInt64.toNat_ofNat_of_lt' hbs
    exact ⟨UInt64.ofNat bs.length, littleEndian 8 bs.length, bs, rfl,
      accepts_word.2 (bytesOfWord_ofNat hbs).symm, accepts_skip.2 hlen.symm⟩

/-- The same thing `n` times is the encodings of `n` values, if one thing is the encoding of one. -/
theorem accepts_times {α : Type} {encode : α → Bytes} {r : Reader Unit} {n : Nat} {w : Bytes}
    (hr : ∀ u : Bytes, u.length ≤ w.length → (r.Accepts u () ↔ ∃ x, u = encode x)) :
    (times n r).Accepts w () ↔ ∃ xs : List α, xs.length = n ∧ w = xs.flatMap encode := by
  -- what is known of byte strings up to the length of `w` is known of those up to its parts
  induction n generalizing w with
  | zero =>
    rw [times, accepts_done]
    refine ⟨fun h => ⟨[], rfl, h.1⟩, fun h => ?_⟩
    obtain ⟨xs, hlen, rfl⟩ := h
    rw [List.length_eq_zero_iff.1 hlen]
    exact ⟨rfl, rfl⟩
  | succ n ih =>
    rw [times, ← bind_eq, accepts_bind]
    apply Iff.intro
    · intro h
      obtain ⟨_, u, v, rfl, hu, hv⟩ := h
      rw [List.length_append] at hr
      obtain ⟨x, rfl⟩ := (hr u (by omega)).1 hu
      obtain ⟨xs, rfl, rfl⟩ := (ih fun u' hu' => hr u' (by omega)).1 hv
      exact ⟨x :: xs, rfl, rfl⟩
    · intro h
      obtain ⟨xs, hlen, rfl⟩ := h
      obtain ⟨x, xs, rfl⟩ := List.exists_cons_of_length_eq_add_one hlen
      rw [List.flatMap_cons, List.length_append] at hr
      exact ⟨(), encode x, xs.flatMap encode, rfl, (hr _ (by omega)).2 ⟨x, rfl⟩,
        (ih fun u' hu' => hr u' (by omega)).2 ⟨xs, by simpa using hlen, rfl⟩⟩

/-! ## Amounts and addresses -/

/-- The length of an amount, which is at most 18. -/
theorem accepts_currencyLength {w : Bytes} {n : Nat} :
    currencyLength.Accepts w n ↔ n ≤ Currency.maxBytes ∧ w = littleEndian 8 n := by
  unfold currencyLength
  rw [accepts_bind]
  apply Iff.intro
  · intro h
    obtain ⟨m, u, v, rfl, hu, hv⟩ := h
    obtain rfl := accepts_word.1 hu
    by_cases hm : m.toNat > Currency.maxBytes
    · rw [if_pos hm] at hv
      exact (not_accepts_refuse hv).elim
    · rw [if_neg hm] at hv
      obtain ⟨rfl, rfl⟩ := accepts_done.1 hv
      exact ⟨by omega, List.append_nil _⟩
  · intro h
    obtain ⟨hn, rfl⟩ := h
    have hlt : n < 2 ^ 64 := by
      rw [Currency.maxBytes] at hn
      omega
    have hword : (UInt64.ofNat n).toNat = n := UInt64.toNat_ofNat_of_lt' hlt
    refine ⟨UInt64.ofNat n, littleEndian 8 n, [], by simp,
      accepts_word.2 (bytesOfWord_ofNat hlt).symm, ?_⟩
    rw [if_neg (by omega), hword]
    exact accepts_done.2 ⟨rfl, rfl⟩

/-- An amount is read as its digits. -/
theorem accepts_currency {w : Bytes} {v : String} :
    currency.Accepts w v ↔ ∃ a : Amount, w = a.encode ∧ v = a.digits := by
  unfold currency
  rw [accepts_bind]
  apply Iff.intro
  · intro h
    obtain ⟨n, _, _, rfl, hlength, hbody⟩ := h
    obtain ⟨hn, rfl⟩ := accepts_currencyLength.1 hlength
    obtain ⟨raw, _, t, rfl, hraw, ht⟩ := accepts_bind.1 hbody
    obtain rfl := accepts_block.1 hraw
    -- 18 bytes always have digits, so nothing is refused here
    have hle : raw.bytes.length ≤ Currency.maxBytes := by rwa [raw.length_bytes]
    rw [Currency.decode_eq_numeral hle, ofExcept] at ht
    obtain ⟨rfl, rfl⟩ := accepts_done.1 ht
    refine ⟨⟨raw.bytes, hle⟩, ?_, rfl⟩
    rw [Amount.encode, encodeBytes, raw.length_bytes, List.append_nil]
  · intro h
    obtain ⟨a, rfl, rfl⟩ := h
    refine ⟨a.bytes.length, littleEndian 8 a.bytes.length, a.bytes, rfl,
      accepts_currencyLength.2 ⟨a.length_le, rfl⟩, ?_⟩
    refine accepts_bind.2 ⟨⟨a.bytes, rfl⟩, a.bytes, [], by simp, accepts_block.2 rfl, ?_⟩
    rw [Currency.decode_eq_numeral a.length_le, ofExcept]
    exact accepts_done.2 ⟨rfl, rfl⟩

/-- An amount that is passed over is an amount. -/
theorem accepts_skipCurrency {w : Bytes} {x : Unit} :
    skipCurrency.Accepts w x ↔ ∃ a : Amount, w = a.encode := by
  unfold skipCurrency
  rw [accepts_bind]
  apply Iff.intro
  · intro h
    obtain ⟨n, u, v, rfl, hu, hv⟩ := h
    obtain ⟨hn, rfl⟩ := accepts_currencyLength.1 hu
    obtain rfl := accepts_skip.1 hv
    exact ⟨⟨v, hn⟩, rfl⟩
  · intro h
    obtain ⟨a, rfl⟩ := h
    exact ⟨a.bytes.length, littleEndian 8 a.bytes.length, a.bytes, rfl,
      accepts_currencyLength.2 ⟨a.length_le, rfl⟩, accepts_skip.2 rfl⟩

theorem accepts_address {w : Bytes} {a : Address} : address.Accepts w a ↔ w = a.hash.bytes := by
  unfold address
  rw [accepts_bind_done]
  refine ⟨fun h => ?_, fun h => ⟨a.hash, accepts_block.2 h, rfl⟩⟩
  obtain ⟨hash, hw, rfl⟩ := h
  exact accepts_block.1 hw

/-! ## Unlock conditions -/

/-- Eight bytes that are passed over are a number. -/
theorem accepts_skip_word {w : Bytes} : (skip 8).Accepts w () ↔ ∃ n, w = bytesOfWord n := by
  rw [accepts_skip]
  refine ⟨fun h => ⟨wordOfBytes w, (bytesOfWord_wordOfBytes h).symm⟩, fun h => ?_⟩
  obtain ⟨n, rfl⟩ := h
  exact length_bytesOfWord n

/-- Bytes that are passed over are a block. -/
theorem accepts_skip_block {n : Nat} {w : Bytes} {x : Unit} :
    (skip n).Accepts w x ↔ ∃ b : Block n, w = b.bytes := by
  rw [accepts_skip]
  refine ⟨fun h => ⟨⟨w, h⟩, rfl⟩, fun h => ?_⟩
  obtain ⟨b, rfl⟩ := h
  exact b.length_bytes

theorem accepts_unlockKey {w : Bytes} (hw : w.length < 2 ^ 64) :
    unlockKey.Accepts w () ↔ ∃ k : V1.UnlockKey, w = k.encode := by
  unfold unlockKey
  rw [accepts_bind]
  apply Iff.intro
  · intro h
    obtain ⟨_, u, v, rfl, hu, hv⟩ := h
    rw [List.length_append] at hw
    obtain ⟨algorithm, rfl⟩ := accepts_skip_block.1 hu
    obtain ⟨key, rfl⟩ := (accepts_skipBytes (by omega)).1 hv
    exact ⟨⟨algorithm, key⟩, rfl⟩
  · intro h
    obtain ⟨k, rfl⟩ := h
    rw [V1.UnlockKey.encode, List.length_append] at hw
    exact ⟨(), k.algorithm.bytes, encodeBytes k.key, rfl, accepts_skip_block.2 ⟨_, rfl⟩,
      (accepts_skipBytes (by omega)).2 ⟨_, rfl⟩⟩

/-- There are fewer keys than bytes, so their number is never cut. -/
theorem length_keys_le (ks : List V1.UnlockKey) :
    ks.length ≤ (ks.flatMap V1.UnlockKey.encode).length := by
  apply length_le_length_flatMap
  intro k
  rw [V1.UnlockKey.encode, List.length_append, k.algorithm.length_bytes]
  omega

theorem accepts_unlockConditions {w : Bytes} (hw : w.length < 2 ^ 64) :
    unlockConditions.Accepts w () ↔ ∃ c : V1.UnlockConditions, w = c.encode := by
  simp only [unlockConditions, accepts_bind]
  apply Iff.intro
  · intro h
    obtain ⟨_, _, _, rfl, htimelock, n, _, _, rfl, hn, _, _, _, rfl, hkeys, hrequired⟩ := h
    simp only [List.length_append] at hw
    obtain ⟨timelock, rfl⟩ := accepts_skip_word.1 htimelock
    obtain rfl := accepts_word.1 hn
    obtain ⟨keys, hlen, rfl⟩ := (accepts_times fun u hu => accepts_unlockKey (by omega)).1 hkeys
    obtain ⟨required, rfl⟩ := accepts_skip_word.1 hrequired
    refine ⟨⟨timelock, keys, required⟩, ?_⟩
    simp only [V1.UnlockConditions.encode, encodeList, bytesOfWord_toNat hlen, List.append_assoc]
  · intro h
    obtain ⟨c, rfl⟩ := h
    simp only [V1.UnlockConditions.encode, encodeList, List.length_append] at hw
    -- the number of keys fits its 64 bits, since the keys themselves are in the bytes
    have hle := length_keys_le c.keys
    have hlen : c.keys.length < 2 ^ 64 := by omega
    have hword : (UInt64.ofNat c.keys.length).toNat = c.keys.length :=
      UInt64.toNat_ofNat_of_lt' hlen
    refine ⟨(), bytesOfWord c.timelock, _, ?_, accepts_skip_word.2 ⟨_, rfl⟩,
      UInt64.ofNat c.keys.length, littleEndian 8 c.keys.length, _, rfl,
      accepts_word.2 (bytesOfWord_ofNat hlen).symm,
      (), c.keys.flatMap V1.UnlockKey.encode, bytesOfWord c.required, rfl, ?_,
      accepts_skip_word.2 ⟨_, rfl⟩⟩
    · simp only [V1.UnlockConditions.encode, encodeList, List.append_assoc]
    · exact (accepts_times fun u hu => accepts_unlockKey (by omega)).2 ⟨c.keys, hword.symm, rfl⟩

/-! ## Covered fields -/

theorem accepts_coveredZero {w : Bytes} : coveredZero.Accepts w () ↔ w = bytesOfWord 0 := by
  unfold coveredZero
  rw [accepts_bind]
  apply Iff.intro
  · intro h
    obtain ⟨n, u, v, rfl, hu, hv⟩ := h
    obtain rfl := accepts_word.1 hu
    by_cases hn : n = 0
    · rw [if_pos hn] at hv
      obtain ⟨rfl, -⟩ := accepts_done.1 hv
      rw [hn, List.append_nil]
    · rw [if_neg hn] at hv
      exact (not_accepts_refuse hv).elim
  · intro h
    exact ⟨0, w, [], by simp, accepts_word.2 h, accepts_done.2 ⟨rfl, rfl⟩⟩

/-- A signature covers the whole transaction: the byte 1 and ten numbers that are zero. -/
theorem accepts_coveredFields {w : Bytes} {x : Unit} :
    coveredFields.Accepts w x ↔ w = 1 :: List.replicate 80 0 := by
  have hzeros : ∀ v : Bytes, (times 10 coveredZero).Accepts v () ↔ v = List.replicate 80 0 := by
    intro v
    have hone : ∀ u : Bytes, coveredZero.Accepts u () ↔ ∃ _ : Unit, u = bytesOfWord 0 := by
      intro u
      rw [accepts_coveredZero, exists_const]
    rw [accepts_times fun u _ => hone u]
    refine ⟨fun h => ?_, fun h => ⟨List.replicate 10 (), rfl, h⟩⟩
    obtain ⟨xs, hlen, rfl⟩ := h
    obtain rfl : xs = List.replicate 10 () := List.eq_replicate_iff.2 ⟨hlen, fun _ _ => rfl⟩
    rfl
  unfold coveredFields
  rw [accepts_bind]
  apply Iff.intro
  · intro h
    obtain ⟨whole, u, v, rfl, hu, hv⟩ := h
    obtain rfl := accepts_byte.1 hu
    by_cases hwhole : whole = 1
    · rw [if_pos hwhole] at hv
      rw [(hzeros v).1 hv, hwhole]
      rfl
    · rw [if_neg hwhole] at hv
      exact (not_accepts_refuse hv).elim
  · intro h
    exact ⟨1, [1], List.replicate 80 0, h, accepts_byte.2 rfl, (hzeros _).2 rfl⟩

end Reader

/-! ## Headers and entries of both formats -/

namespace Layout

open Reader

theorem accepts_counted {w : Bytes} {h : Header} :
    counted.Accepts w h ↔ ∃ n, w = bytesOfWord n ∧ h = ⟨n, .all⟩ := by
  simp only [counted, accepts_bind_done, accepts_word]

theorem accepts_emptyCount {w : Bytes} {h : Header} :
    emptyCount.Accepts w h ↔ w = bytesOfWord 0 ∧ h = ⟨0, .all⟩ := by
  unfold emptyCount
  rw [accepts_bind]
  apply Iff.intro
  · intro hw
    obtain ⟨n, u, v, rfl, hu, hv⟩ := hw
    obtain rfl := accepts_word.1 hu
    by_cases hn : n = 0
    · rw [if_pos hn] at hv
      obtain ⟨rfl, rfl⟩ := accepts_done.1 hv
      rw [hn, List.append_nil]
      exact ⟨rfl, rfl⟩
    · rw [if_neg hn] at hv
      exact (not_accepts_refuse hv).elim
  · intro hw
    exact ⟨0, w, [], by simp, accepts_word.2 hw.1, accepts_done.2 ⟨rfl, hw.2⟩⟩

theorem accepts_siacoinOutput {w : Bytes} {e : Entry} :
    siacoinOutput.Accepts w e ↔
      ∃ o : SiacoinOutput, w = o.encode ∧ e = ⟨[], .all, some o.payment⟩ := by
  simp only [siacoinOutput, accepts_bind, accepts_currency, accepts_address, accepts_done]
  apply Iff.intro
  · intro h
    obtain ⟨_, _, _, rfl, ⟨value, rfl, rfl⟩, address, _, _, rfl, rfl, rfl, rfl⟩ := h
    exact ⟨⟨value, address⟩, by rw [List.append_nil]; rfl, rfl⟩
  · intro h
    obtain ⟨o, rfl, rfl⟩ := h
    exact ⟨o.value.digits, o.value.encode, o.address.hash.bytes, rfl, ⟨o.value, rfl, rfl⟩,
      o.address, o.address.hash.bytes, [], by simp, rfl, rfl, rfl⟩

theorem accepts_siafundOutput {w : Bytes} {e : Entry} :
    siafundOutput.Accepts w e ↔
      ∃ o : SiafundOutput, w = o.encode ∧ e = ⟨[], .all, some o.payment⟩ := by
  simp only [siafundOutput, accepts_bind, accepts_currency, accepts_address, accepts_skipCurrency,
    accepts_done]
  apply Iff.intro
  · intro h
    obtain ⟨_, _, _, rfl, ⟨value, rfl, rfl⟩, address, _, _, rfl, rfl, _, _, _, rfl,
      ⟨claimStart, rfl⟩, rfl, rfl⟩ := h
    exact ⟨⟨value, address, claimStart⟩, by simp [SiafundOutput.encode], rfl⟩
  · intro h
    obtain ⟨o, rfl, rfl⟩ := h
    exact ⟨o.value.digits, o.value.encode, o.address.hash.bytes ++ o.claimStart.encode,
      by simp [SiafundOutput.encode], ⟨o.value, rfl, rfl⟩, o.address, o.address.hash.bytes,
      o.claimStart.encode, rfl, rfl, (), o.claimStart.encode, [], by simp, ⟨o.claimStart, rfl⟩,
      rfl, rfl⟩

theorem accepts_minerFee {w : Bytes} {e : Entry} :
    minerFee.Accepts w e ↔ ∃ a : Amount, w = a.encode ∧ e = ⟨[], .all, some a.fee⟩ := by
  simp only [minerFee, accepts_bind_done, accepts_currency]
  apply Iff.intro
  · intro h
    obtain ⟨_, ⟨a, rfl, rfl⟩, rfl⟩ := h
    exact ⟨a, rfl, rfl⟩
  · intro h
    obtain ⟨a, rfl, rfl⟩ := h
    exact ⟨a.digits, ⟨a, rfl, rfl⟩, rfl⟩

end Layout

/-! ## Headers and entries of the first format -/

namespace V1

open Reader

theorem accepts_signatureCount {sigIndex : UInt16} {w : Bytes} {h : Header} :
    (signatureCount sigIndex).Accepts w h ↔
      ∃ n : UInt64, sigIndex.toNat < n.toNat ∧ w = bytesOfWord n ∧ h = ⟨n, .nothing⟩ := by
  unfold signatureCount
  rw [accepts_bind]
  apply Iff.intro
  · intro hw
    obtain ⟨n, u, v, rfl, hu, hv⟩ := hw
    obtain rfl := accepts_word.1 hu
    by_cases hn : sigIndex.toNat ≥ n.toNat
    · rw [if_pos hn] at hv
      exact (not_accepts_refuse hv).elim
    · rw [if_neg hn] at hv
      obtain ⟨rfl, rfl⟩ := accepts_done.1 hv
      exact ⟨n, by omega, List.append_nil _, rfl⟩
  · intro hw
    obtain ⟨n, hn, rfl, rfl⟩ := hw
    refine ⟨n, bytesOfWord n, [], by simp, accepts_word.2 rfl, ?_⟩
    rw [if_neg (by omega)]
    exact accepts_done.2 ⟨rfl, rfl⟩

theorem accepts_siacoinInput {w : Bytes} {e : Entry} (hw : w.length < 2 ^ 64) :
    siacoinInput.Accepts w e ↔ ∃ i : SiacoinInput, w = i.encode ∧ e = input := by
  simp only [siacoinInput, accepts_bind, accepts_block, accepts_done]
  apply Iff.intro
  · intro h
    obtain ⟨parent, _, _, rfl, rfl, _, u, _, rfl, hu, rfl, rfl⟩ := h
    simp only [List.length_append] at hw
    obtain ⟨conditions, rfl⟩ := (accepts_unlockConditions (by omega)).1 hu
    exact ⟨⟨parent, conditions⟩, by rw [List.append_nil]; rfl, rfl⟩
  · intro h
    obtain ⟨i, rfl, rfl⟩ := h
    rw [SiacoinInput.encode, List.length_append] at hw
    exact ⟨i.parent, i.parent.bytes, i.conditions.encode, rfl, rfl, (), i.conditions.encode, [],
      by simp, (accepts_unlockConditions (by omega)).2 ⟨_, rfl⟩, rfl, rfl⟩

theorem accepts_siafundInput {w : Bytes} {e : Entry} (hw : w.length < 2 ^ 64) :
    siafundInput.Accepts w e ↔ ∃ i : SiafundInput, w = i.encode ∧ e = input := by
  simp only [siafundInput, accepts_bind, accepts_block, accepts_done]
  apply Iff.intro
  · intro h
    obtain ⟨parent, _, _, rfl, rfl, _, u, _, rfl, hu, claim, _, _, rfl, rfl, rfl, rfl⟩ := h
    simp only [List.length_append] at hw
    obtain ⟨conditions, rfl⟩ := (accepts_unlockConditions (by omega)).1 hu
    exact ⟨⟨parent, conditions, ⟨claim⟩⟩, by simp [SiafundInput.encode], rfl⟩
  · intro h
    obtain ⟨i, rfl, rfl⟩ := h
    simp only [SiafundInput.encode, List.length_append] at hw
    exact ⟨i.parent, i.parent.bytes, i.conditions.encode ++ i.claim.hash.bytes,
      by simp [SiafundInput.encode], rfl, (), i.conditions.encode, i.claim.hash.bytes, rfl,
      (accepts_unlockConditions (by omega)).2 ⟨_, rfl⟩, i.claim.hash, i.claim.hash.bytes, [],
      by simp, rfl, rfl, rfl⟩

/-- What a signature entry comes to: only the wanted one is covered. -/
def signatureEntry (sigIndex : UInt16) (k : UInt64) : Entry :=
  ⟨[], if k.toNat = sigIndex.toNat then .front coveredSignatureLength else .nothing, none⟩

theorem accepts_signature {sigIndex : UInt16} {k : UInt64} {w : Bytes} {e : Entry}
    (hw : w.length < 2 ^ 64) :
    (signature sigIndex k).Accepts w e ↔
      ∃ s : SignatureEntry, w = s.encode ∧ e = signatureEntry sigIndex k := by
  simp only [signature, accepts_bind, accepts_block, accepts_word, accepts_coveredFields,
    accepts_done]
  apply Iff.intro
  · intro h
    obtain ⟨parent, _, _, rfl, rfl, key, _, _, rfl, rfl, timelock, _, _, rfl, rfl, _, _, _, rfl,
      rfl, _, u, _, rfl, hu, rfl, rfl⟩ := h
    simp only [List.length_append] at hw
    obtain ⟨bytes, rfl⟩ := (accepts_skipBytes (by omega)).1 hu
    refine ⟨⟨⟨parent.bytes ++ bytesOfWord key ++ bytesOfWord timelock, by simp⟩, bytes⟩, ?_, rfl⟩
    simp only [SignatureEntry.encode, List.append_assoc, List.append_nil, List.cons_append]
  · intro h
    obtain ⟨s, rfl, rfl⟩ := h
    simp only [SignatureEntry.encode, List.length_append, List.length_cons] at hw
    have hlen := s.identity.length_bytes
    -- the 48 bytes are a block and two numbers
    obtain ⟨parent, v, hparent⟩ := @exists_block 32 s.identity.bytes (by omega)
    rw [hparent, List.length_append, parent.length_bytes] at hlen
    have hkey : (v.take 8).length = 8 := by rw [List.length_take]; omega
    have htimelock : (v.drop 8).length = 8 := by rw [List.length_drop]; omega
    refine ⟨parent, parent.bytes, v ++ 1 :: (List.replicate 80 0 ++ encodeBytes s.signature), ?_,
      rfl, wordOfBytes (v.take 8), v.take 8,
      v.drop 8 ++ 1 :: (List.replicate 80 0 ++ encodeBytes s.signature), ?_,
      (bytesOfWord_wordOfBytes hkey).symm, wordOfBytes (v.drop 8), v.drop 8,
      1 :: (List.replicate 80 0 ++ encodeBytes s.signature), rfl,
      (bytesOfWord_wordOfBytes htimelock).symm, (), 1 :: List.replicate 80 0,
      encodeBytes s.signature, rfl, rfl, (), encodeBytes s.signature, [], by simp,
      (accepts_skipBytes (by omega)).2 ⟨_, rfl⟩, rfl, rfl⟩
    · rw [SignatureEntry.encode, hparent, List.append_assoc]
    · rw [← List.append_assoc, List.take_append_drop]

end V1

/-! ## Headers and entries of the second format -/

namespace V2

open Reader

theorem accepts_foundationFlag {w : Bytes} {h : Header} :
    foundationFlag.Accepts w h ↔ w = [0] ∧ h = ⟨0, .all⟩ := by
  unfold foundationFlag
  rw [accepts_bind]
  apply Iff.intro
  · intro hw
    obtain ⟨flag, u, v, rfl, hu, hv⟩ := hw
    obtain rfl := accepts_byte.1 hu
    by_cases hflag : flag = 0
    · rw [if_pos hflag] at hv
      obtain ⟨rfl, rfl⟩ := accepts_done.1 hv
      rw [hflag]
      exact ⟨rfl, rfl⟩
    · rw [if_neg hflag] at hv
      exact (not_accepts_refuse hv).elim
  · intro hw
    exact ⟨0, w, [], by simp, accepts_byte.2 hw.1, accepts_done.2 ⟨rfl, hw.2⟩⟩

theorem accepts_input {w : Bytes} {e : Entry} :
    input.Accepts w e ↔ ∃ parent : Digest, w = encodeInput parent ∧ e = ⟨[], .all, none⟩ := by
  simp only [input, accepts_bind_done, accepts_block, encodeInput]

theorem accepts_attestation {w : Bytes} {e : Entry} (hw : w.length < 2 ^ 64) :
    attestation.Accepts w e ↔ ∃ a : Attestation, w = a.encode ∧ e = ⟨[], .all, none⟩ := by
  simp only [attestation, accepts_bind, accepts_skip_block, accepts_done]
  apply Iff.intro
  · intro h
    obtain ⟨_, _, _, rfl, ⟨publicKey, rfl⟩, _, u, _, rfl, hu, _, v, _, rfl, hv, _, _, _, rfl,
      ⟨signature, rfl⟩, rfl, rfl⟩ := h
    simp only [List.length_append] at hw
    obtain ⟨key, rfl⟩ := (accepts_skipBytes (by omega)).1 hu
    obtain ⟨value, rfl⟩ := (accepts_skipBytes (by omega)).1 hv
    exact ⟨⟨publicKey, key, value, signature⟩, by simp [Attestation.encode], rfl⟩
  · intro h
    obtain ⟨a, rfl, rfl⟩ := h
    simp only [Attestation.encode, List.length_append] at hw
    exact ⟨(), a.publicKey.bytes, encodeBytes a.key ++ (encodeBytes a.value ++ a.signature.bytes),
      by simp [Attestation.encode], ⟨a.publicKey, rfl⟩, (), encodeBytes a.key,
      encodeBytes a.value ++ a.signature.bytes, rfl, (accepts_skipBytes (by omega)).2 ⟨_, rfl⟩, (),
      encodeBytes a.value, a.signature.bytes, rfl, (accepts_skipBytes (by omega)).2 ⟨_, rfl⟩, (),
      a.signature.bytes, [], by simp, ⟨a.signature, rfl⟩, rfl, rfl⟩

end V2

end Countersign
