import Countersign.Proofs.Fields
import Mathlib.Logic.Function.Basic

/-!
# Encodings that end where they end

A value is told from the front of a byte string in one way only: an encoding is `Delimited` when two
byte strings that begin with encodings are equal only if the values are, and what is behind them.

* Bytes of a fixed number and bytes with their length in front are delimited;
* values one after the other are (`Delimited.append`), and so are records of them
  (`Delimited.of_parts`);
* a list with its number in front is, member by member (`Delimited.encodeList_append_inj`).

The body of a transaction is such lists one after the other, whatever stands ahead of its inputs, so
it determines all of the transaction but its signatures (`V1.Transaction.body_append_inj`).
-/

namespace Countersign

/-- Encodings that a buffer can hold are delimited: what they say and where they end is read off the
bytes, whatever follows. -/
def Delimited {α : Type} (encode : α → Bytes) : Prop :=
  ∀ ⦃x y : α⦄ ⦃u v : Bytes⦄, (encode x).length ≤ 510 → (encode y).length ≤ 510 →
    encode x ++ u = encode y ++ v → x = y ∧ u = v

namespace Delimited

variable {α β : Type} {f : α → Bytes} {g : β → Bytes}

/-- Encodings of one length are delimited. -/
theorem of_length (n : Nat) (hlen : ∀ x, (f x).length = n) (hf : f.Injective) : Delimited f := by
  intro x y u v _ _ h
  have hparts := List.append_inj h ((hlen x).trans (hlen y).symm)
  exact ⟨hf hparts.1, hparts.2⟩

/-- One value after the other. -/
theorem append (hf : Delimited f) (hg : Delimited g) :
    Delimited fun p : α × β => f p.1 ++ g p.2 := by
  intro p q u v hp hq h
  rw [List.length_append] at hp hq
  rw [List.append_assoc, List.append_assoc] at h
  have hfirst := hf (by omega) (by omega) h
  have hsecond := hg (by omega) (by omega) hfirst.2
  exact ⟨Prod.ext hfirst.1 hsecond.1, hsecond.2⟩

/-- A value that is written as its parts are, and is put together from them again. -/
theorem of_parts (hf : Delimited f) (parts : β → α) (whole : α → β)
    (hwhole : ∀ y, whole (parts y) = y) (hg : ∀ y, g y = f (parts y)) : Delimited g := by
  intro x y u v hx hy h
  rw [hg] at hx hy
  rw [hg, hg] at h
  have hvalue := hf hx hy h
  refine ⟨?_, hvalue.2⟩
  rw [← hwhole x, ← hwhole y, hvalue.1]

/-! ## Lists -/

/-- As many members on either side, with the same bytes ahead of each of them. -/
theorem flatMap_append_inj (hf : Delimited f) (lead : Bytes) {xs ys : List α} {u v : Bytes}
    (hlen : xs.length = ys.length) (hxs : ∀ x ∈ xs, (f x).length ≤ 510)
    (hys : ∀ y ∈ ys, (f y).length ≤ 510)
    (h : xs.flatMap (fun x => lead ++ f x) ++ u = ys.flatMap (fun y => lead ++ f y) ++ v) :
    xs = ys ∧ u = v := by
  induction xs generalizing ys with
  | nil =>
    have hnil : ys = [] := List.length_eq_zero_iff.1 hlen.symm
    rw [hnil] at h
    exact ⟨hnil.symm, h⟩
  | cons x xs ih =>
    rcases ys with _ | ⟨y, ys⟩
    · cases hlen
    · rw [List.flatMap_cons, List.flatMap_cons] at h
      simp only [List.append_assoc] at h
      rw [List.forall_mem_cons] at hxs hys
      have hfirst := hf hxs.1 hys.1 (List.append_cancel_left h)
      have hothers := ih (Nat.succ.inj hlen) hxs.2 hys.2 hfirst.2
      exact ⟨by rw [hfirst.1, hothers.1], hothers.2⟩

/-- The number of bytes in front says which number it is. -/
theorem littleEndian_append_inj {m n : Nat} {u v : Bytes} (hm : m < 2 ^ 64) (hn : n < 2 ^ 64)
    (h : littleEndian 8 m ++ u = littleEndian 8 n ++ v) : m = n ∧ u = v := by
  have hparts := List.append_inj h (by rw [length_littleEndian, length_littleEndian])
  have hvalue := congrArg ofLittleEndian hparts.1
  rw [ofLittleEndian_littleEndian, ofLittleEndian_littleEndian] at hvalue
  exact ⟨by omega, hparts.2⟩

/-- A list with its number in front, and the same bytes ahead of each member. -/
theorem encodeList_append_inj (hf : Delimited f) (lead : Bytes) {xs ys : List α} {u v : Bytes}
    (hxs : FitsWire f xs) (hys : FitsWire f ys)
    (h : encodeList (fun x => lead ++ f x) xs ++ u = encodeList (fun y => lead ++ f y) ys ++ v) :
    xs = ys ∧ u = v := by
  rw [encodeList, encodeList, List.append_assoc, List.append_assoc] at h
  have hcount := littleEndian_append_inj hxs.1 hys.1 h
  exact hf.flatMap_append_inj lead hcount.1 hxs.2 hys.2 hcount.2

/-- A list with its number in front. -/
theorem list (hf : Delimited f) {xs ys : List α} {u v : Bytes} (hxs : FitsWire f xs)
    (hys : FitsWire f ys) (h : encodeList f xs ++ u = encodeList f ys ++ v) : xs = ys ∧ u = v :=
  hf.encodeList_append_inj [] hxs hys h

/-- A member is no longer than the list on the wire. -/
theorem length_le_length_flatMap_of_mem {x : α} {xs : List α} (hx : x ∈ xs) :
    (f x).length ≤ (xs.flatMap f).length := by
  obtain ⟨front, back, rfl⟩ := List.append_of_mem hx
  rw [List.flatMap_append, List.flatMap_cons, List.length_append, List.length_append]
  omega

/-- A list that a buffer can hold as a whole, of members that are not empty. -/
theorem encodeList (hf : Delimited f) (hpos : ∀ x, 0 < (f x).length) :
    Delimited (Countersign.encodeList f) := by
  have hfits : ∀ xs, (Countersign.encodeList f xs).length ≤ 510 → FitsWire f xs := by
    intro xs hxs
    rw [Countersign.encodeList, List.length_append] at hxs
    have hcount := length_le_length_flatMap hpos xs
    refine ⟨by rw [UInt64.size]; omega, fun x hx => ?_⟩
    have hmember := length_le_length_flatMap_of_mem (f := f) hx
    omega
  intro xs ys u v hxs hys h
  exact hf.list (hfits xs hxs) (hfits ys hys) h

end Delimited

/-! ## Values of both formats -/

theorem delimited_block (n : Nat) : Delimited (Block.bytes : Block n → Bytes) :=
  Delimited.of_length n Block.length_bytes fun _ _ => Block.ext

theorem delimited_bytesOfWord : Delimited bytesOfWord := by
  refine Delimited.of_length 8 length_bytesOfWord fun w w' h => ?_
  rw [← wordOfBytes_bytesOfWord w, h, wordOfBytes_bytesOfWord]

/-- Bytes with their length in front are delimited by it. -/
theorem delimited_encodeBytes : Delimited encodeBytes := by
  intro bs cs u v hbs hcs h
  rw [encodeBytes, List.length_append] at hbs hcs
  rw [encodeBytes, encodeBytes, List.append_assoc, List.append_assoc] at h
  have hlen := Delimited.littleEndian_append_inj (by omega) (by omega) h
  exact List.append_inj hlen.2 hlen.1

theorem delimited_amount : Delimited Amount.encode := by
  intro x y u v hx hy h
  have hbytes : x.bytes = y.bytes ∧ u = v := delimited_encodeBytes hx hy h
  refine ⟨?_, hbytes.2⟩
  cases x
  cases y
  cases hbytes.1
  rfl

theorem delimited_siacoinOutput : Delimited SiacoinOutput.encode :=
  (delimited_amount.append (delimited_block 32)).of_parts (fun o => (o.value, o.address.hash))
    (fun p => ⟨p.1, ⟨p.2⟩⟩) (fun _ => rfl) fun _ => rfl

theorem delimited_siafundOutput : Delimited SiafundOutput.encode :=
  ((delimited_amount.append (delimited_block 32)).append delimited_amount).of_parts
    (fun o => ((o.value, o.address.hash), o.claimStart)) (fun p => ⟨p.1.1, ⟨p.1.2⟩, p.2⟩)
    (fun _ => rfl) fun _ => rfl

/-! ## Values of the first format -/

namespace V1

theorem delimited_unlockKey : Delimited UnlockKey.encode :=
  ((delimited_block 16).append delimited_encodeBytes).of_parts (fun k => (k.algorithm, k.key))
    (fun p => ⟨p.1, p.2⟩) (fun _ => rfl) fun _ => rfl

theorem delimited_unlockConditions : Delimited UnlockConditions.encode := by
  have hkeys : Delimited (encodeList UnlockKey.encode) := by
    refine delimited_unlockKey.encodeList fun k => ?_
    rw [UnlockKey.encode, List.length_append, k.algorithm.length_bytes]
    omega
  exact ((delimited_bytesOfWord.append hkeys).append delimited_bytesOfWord).of_parts
    (fun c => ((c.timelock, c.keys), c.required)) (fun p => ⟨p.1.1, p.1.2, p.2⟩) (fun _ => rfl)
    fun _ => rfl

theorem delimited_siacoinInput : Delimited SiacoinInput.encode :=
  ((delimited_block 32).append delimited_unlockConditions).of_parts
    (fun i => (i.parent, i.conditions)) (fun p => ⟨p.1, p.2⟩) (fun _ => rfl) fun _ => rfl

theorem delimited_siafundInput : Delimited SiafundInput.encode :=
  (((delimited_block 32).append delimited_unlockConditions).append (delimited_block 32)).of_parts
    (fun i => ((i.parent, i.conditions), i.claim.hash)) (fun p => ⟨p.1.1, p.1.2, ⟨p.2⟩⟩)
    (fun _ => rfl) fun _ => rfl

theorem delimited_signatureEntry : Delimited SignatureEntry.encode := by
  intro s r u v hs hr h
  -- the fields between the two parts are the same in every signature
  have hpart : ∀ q : SignatureEntry, q.encode.length ≤ 510 →
      (encodeBytes q.signature).length ≤ 510 := by
    intro q hq
    rw [SignatureEntry.encode, List.length_append, List.length_cons, List.length_append] at hq
    omega
  rw [SignatureEntry.encode, SignatureEntry.encode, List.append_assoc, List.append_assoc] at h
  have hidentity := List.append_inj h (s.identity.length_bytes.trans r.identity.length_bytes.symm)
  have hfields : 1 :: List.replicate 80 0 ++ (encodeBytes s.signature ++ u) =
      1 :: List.replicate 80 0 ++ (encodeBytes r.signature ++ v) := by
    simpa only [List.cons_append, List.append_assoc] using hidentity.2
  have hsignature := delimited_encodeBytes (hpart s hs) (hpart r hr)
    (List.append_cancel_left hfields)
  cases s
  cases r
  exact ⟨congrArg₂ _ (Block.ext hidentity.1) hsignature.1, hsignature.2⟩

namespace Transaction

variable {t u : Transaction} {v w : Bytes}

/-- The body of a transaction determines all of it but its signatures, whatever stands ahead of its
inputs. -/
theorem body_append_inj (lead : Bytes) (ht : t.Fits) (hu : u.Fits)
    (h : t.body lead ++ v = u.body lead ++ w) : t.unsigned = u.unsigned ∧ v = w := by
  simp only [body, List.append_assoc] at h
  -- one section after the other
  have h₁ := delimited_siacoinInput.encodeList_append_inj lead ht.siacoinInputs hu.siacoinInputs h
  have h₂ := delimited_siacoinOutput.list ht.siacoinOutputs hu.siacoinOutputs h₁.2
  have h₃ := List.append_cancel_left (List.append_cancel_left (List.append_cancel_left h₂.2))
  have h₄ := delimited_siafundInput.encodeList_append_inj lead ht.siafundInputs hu.siafundInputs h₃
  have h₅ := delimited_siafundOutput.list ht.siafundOutputs hu.siafundOutputs h₄.2
  have h₆ := delimited_amount.list ht.minerFees hu.minerFees h₅.2
  refine ⟨?_, List.append_cancel_left h₆.2⟩
  rw [unsigned, unsigned, h₁.1, h₂.1, h₄.1, h₅.1, h₆.1]

/-- With other bytes ahead of the inputs, the bodies of two transactions are the same still. -/
theorem body_eq_iff (lead : Bytes) (ht : t.Fits) (hu : u.Fits) :
    t.body lead = u.body lead ↔ t.unsigned = u.unsigned := by
  apply Iff.intro
  · intro h
    exact (body_append_inj lead ht hu (congrArg (· ++ []) h)).1
  · intro h
    -- the signatures are not in the body
    show t.unsigned.body lead = u.unsigned.body lead
    rw [h]

/-- A transaction is told from the front of a byte string. -/
theorem encode_append_inj (ht : t.Fits) (hu : u.Fits) (h : t.encode ++ v = u.encode ++ w) :
    t = u ∧ v = w := by
  rw [encode, encode, List.append_assoc, List.append_assoc] at h
  have hbody := body_append_inj [] ht hu h
  have hsignatures := delimited_signatureEntry.list ht.signatures hu.signatures hbody.2
  refine ⟨?_, hsignatures.2⟩
  calc t = { t.unsigned with signatures := t.signatures } := rfl
    _ = { u.unsigned with signatures := u.signatures } := by rw [hbody.1, hsignatures.1]
    _ = u := rfl

end Transaction

end V1

end Countersign
