import Countersign.Proofs.Decodings
import Countersign.Proofs.Delimited
import Countersign.Proofs.V1Grammar
import Countersign.Proofs.V2Grammar

/-!
# What a hash commits to

The bytes that go into a hash are put together from pieces of the transaction and a few bytes
besides, with nothing between them. They commit to what is signed all the same:

* in the first format they determine the transaction up to its signatures and the first 48 bytes of
  the wanted signature, and these determine them (`V1.absorbed_eq_iff`);
* no bytes of one format are bytes of the other, nor the beginning of any (`absorbed_incomparable`).

The first format has no distinguisher, and the number of its inputs may spell the beginning of the
one of the second format. But then there is an input, and the replay byte ahead of it is not the
ninth byte of the distinguisher.
-/

namespace Countersign

/-! ## The first format -/

namespace V1

/-- The decoding has read the transaction off the front of its stream, and this is the signature
that it was asked for. -/
structure Reads (d : Decoding Section) (t : Transaction) (s : SignatureEntry) : Prop where
  fits : t.Fits
  atFront : t.encode <+: d.stream
  wanted : t.signatures[d.sigIndex.toNat]? = some s

variable {d : Decoding Section} {t u : Transaction} {s r : SignatureEntry}

theorem exists_reads (d : Decoding Section) : ∃ t s, Reads d t s := by
  have hcompletes := d.completes.1
  obtain ⟨t, rest, ht, hindex, hstream, -, -⟩ := completes_start.1 hcompletes
  exact ⟨t, t.signatures[d.sigIndex.toNat], ht, ⟨rest, hstream.symm⟩,
    List.getElem?_eq_getElem hindex⟩

/-- Every transaction that fits is read by some decoding for each of its signatures. -/
theorem exists_decoding (sigIndex : UInt16) (change : Option Address) (ht : t.Fits)
    (hs : t.signatures[sigIndex.toNat]? = some s) :
    ∃ d : Decoding Section, d.sigIndex = sigIndex ∧ d.change = change ∧ d.stream = t.encode ∧
      Reads d t s := by
  have hindex : sigIndex.toNat < t.signatures.length := (List.getElem?_eq_some_iff.1 hs).1
  have hfinishes : (Position.start sigIndex change : Position Section).Finishes t.encode
      (t.elements change) (Blake2b.digest (t.covered sigIndex.toNat)) :=
    finishes_start.2 ⟨t, [], ht, hindex, (List.append_nil _).symm, rfl, rfl⟩
  obtain ⟨d, rfl, rfl, -, hprefix⟩ := Decoding.exists_of_finishes hfinishes
  -- the transaction of the stream is this one, so nothing of it is missing
  obtain ⟨u, r, hread⟩ := exists_reads d
  obtain ⟨rest, hrest⟩ := hread.atFront
  obtain ⟨tail, htail⟩ := hprefix
  have hwhole : t.encode ++ [] = u.encode ++ (rest ++ tail) := by
    rw [← List.append_assoc, hrest, htail, List.append_nil]
  have hsame := Transaction.encode_append_inj ht hread.fits hwhole
  have hnil := List.append_eq_nil_iff.1 hsame.2.symm
  have hstream : d.stream = t.encode := by
    rw [hsame.1, ← hrest, hnil.1, List.append_nil]
  exact ⟨d, rfl, rfl, hstream, ht, ⟨[], by rw [hstream, List.append_nil]⟩, hs⟩

theorem Reads.unique (h : Reads d t s) (h' : Reads d u r) : t = u ∧ s = r := by
  obtain ⟨v, hv⟩ := h.atFront
  obtain ⟨w, hw⟩ := h'.atFront
  have htransaction := (Transaction.encode_append_inj h.fits h'.fits (hv.trans hw.symm)).1
  have hwanted := h.wanted
  rw [htransaction, h'.wanted] at hwanted
  exact ⟨htransaction, (Option.some.inj hwanted).symm⟩

/-- The decoding shows the elements of the transaction and absorbs its body and the 48 bytes. -/
theorem Reads.seen (h : Reads d t s) : d.elements = t.elements d.change ∧
    d.absorbed = t.body [Transcript.replayByteV1] ++ s.identity.bytes := by
  obtain ⟨rest, hstream⟩ := h.atFront
  have hindex : d.sigIndex.toNat < t.signatures.length :=
    (List.getElem?_eq_some_iff.1 h.wanted).1
  have hseen := d.completes.1.unique
    (completes_start.2 ⟨t, rest, h.fits, hindex, hstream.symm, rfl, rfl⟩)
  rw [Transaction.covered, h.wanted] at hseen
  exact hseen

theorem take_encode (s : SignatureEntry) : s.encode.take 48 = s.identity.bytes := part_signature s

/-- Transactions that differ in their signatures only show the same elements. -/
theorem elements_eq_of_unsigned (h : t.unsigned = u.unsigned) (change : Option Address) :
    t.elements change = u.elements change := by
  show t.unsigned.elements change = u.unsigned.elements change
  rw [h]

/-- Two decodings absorb the same bytes exactly when the transactions have the same parts and the
signatures the same first bytes. -/
theorem Reads.absorbed_eq_iff_unsigned {e : Decoding Section} (hd : Reads d t s)
    (he : Reads e u r) :
    d.absorbed = e.absorbed ↔ t.unsigned = u.unsigned ∧ s.identity = r.identity := by
  rw [hd.seen.2, he.seen.2]
  apply Iff.intro
  · intro h
    have hbody := Transaction.body_append_inj _ hd.fits he.fits h
    exact ⟨hbody.1, Block.ext hbody.2⟩
  · intro h
    rw [(Transaction.body_eq_iff _ hd.fits he.fits).2 h.1, h.2]

/-- A decoding reads one transaction, and two decodings absorb the same bytes exactly when their
transactions are the same on the wire up to the signatures and the wanted signatures begin with the
same 48 bytes. Then, with one change address, they show the same elements; and other signatures
beside the wanted one, or other bytes behind its first 48, change neither the hash nor the
elements. -/
theorem absorbed_eq_iff (d e : Decoding Section) :
    (∃! p : Transaction × SignatureEntry, Reads d p.1 p.2) ∧
    (∃! p : Transaction × SignatureEntry, Reads e p.1 p.2) ∧
    ∀ t s u r, Reads d t s → Reads e u r →
      (d.absorbed = e.absorbed ↔
        t.body [] = u.body [] ∧ s.encode.take 48 = r.encode.take 48) ∧
      (d.absorbed = e.absorbed → d.change = e.change → d.elements = e.elements) ∧
      (t.unsigned = u.unsigned → s.encode.take 48 = r.encode.take 48 →
        d.hash = e.hash ∧ (d.change = e.change → d.elements = e.elements)) := by
  have honce : ∀ d : Decoding Section, ∃! p : Transaction × SignatureEntry, Reads d p.1 p.2 := by
    intro d
    obtain ⟨t, s, h⟩ := exists_reads d
    exact ⟨(t, s), h, fun p hp => Prod.ext (hp.unique h).1 (hp.unique h).2⟩
  refine ⟨honce d, honce e, fun t s u r hd he => ?_⟩
  have habsorbed := hd.absorbed_eq_iff_unsigned he
  have helements : t.unsigned = u.unsigned → d.change = e.change → d.elements = e.elements := by
    intro h hchange
    rw [hd.seen.1, he.seen.1, hchange]
    exact elements_eq_of_unsigned h e.change
  refine ⟨?_, fun h => helements (habsorbed.1 h).1, fun h hfront => ⟨?_, helements h⟩⟩
  · rw [habsorbed, Transaction.body_eq_iff [] hd.fits he.fits, take_encode, take_encode,
      Block.ext_iff]
  · rw [take_encode, take_encode] at hfront
    rw [d.completes.2, e.completes.2, habsorbed.2 ⟨h, Block.ext hfront⟩]

/-- The transaction with one signature, in which the signature has other bytes and there is one
more behind it. -/
def signedAgain : Transaction :=
  { onceSigned with signatures := [⟨Block.zero 48, [4]⟩, ⟨Block.zero 48, [5]⟩] }

theorem absorbed_signedAgain : ∃ d e : Decoding Section, d.stream = onceSigned.encode ∧
    e.stream = signedAgain.encode ∧ d.absorbed = e.absorbed ∧ d.hash = e.hash := by
  have hfits : onceSigned.Fits := ⟨by decide, by decide +kernel, by decide, by decide, by decide,
    by decide +kernel⟩
  have hagain : signedAgain.Fits := ⟨by decide, by decide +kernel, by decide, by decide, by decide,
    by decide +kernel⟩
  obtain ⟨d, -, -, hd, hreads⟩ := exists_decoding 0 none hfits rfl
  obtain ⟨e, -, -, he, hreads'⟩ := exists_decoding 0 none hagain rfl
  have hpair := (absorbed_eq_iff d e).2.2 _ _ _ _ hreads hreads'
  exact ⟨d, e, hd, he, hpair.1.2 ⟨rfl, rfl⟩, (hpair.2.2 rfl rfl).1⟩

end V1

/-! ## Between the formats -/

/-- No bytes under a signature in one format begin like bytes under one in the other. -/
theorem covered_append_ne (t : V1.Transaction) (i : Nat) (u : V2.Transaction) (v w : Bytes) :
    t.covered i ++ v ≠ u.covered ++ w := by
  intro h
  have hfront : Transcript.distinguisher =
      [115, 105, 97, 47, 115, 105, 103, 47] ++ [105, 110, 112, 117, 116, 124] := by decide
  rw [V2.Transaction.covered, hfront, V1.Transaction.covered, V1.Transaction.body, encodeList] at h
  simp only [List.append_assoc] at h
  have hparts := List.append_inj h (by rw [length_littleEndian]; rfl)
  rcases hinputs : t.siacoinInputs with _ | ⟨input, inputs⟩
  · -- without inputs the first byte is zero
    rw [hinputs] at hparts
    have hzero := congrArg List.head? hparts.1
    simp [littleEndian] at hzero
  · -- the ninth byte is the replay byte of the first input
    rw [hinputs, List.flatMap_cons] at hparts
    simp [Transcript.replayByteV1] at hparts

-- a number of inputs that spells the beginning of the distinguisher
example : bytesOfWord (wordOfBytes (Transcript.distinguisher.take 8)) =
    Transcript.distinguisher.take 8 := by decide

/-- Two byte strings have one hash. -/
def Collide (bs cs : Bytes) : Prop := bs ≠ cs ∧ Blake2b.digest bs = Blake2b.digest cs

/-- What goes into a hash of the first format differs from what goes into one of the second, and
neither is the beginning of the other; so if the hashes are the same, the two collide. -/
theorem absorbed_incomparable (d : Decoding V1.Section) (e : Decoding V2.Section) :
    d.absorbed ≠ e.absorbed ∧ ¬ d.absorbed <+: e.absorbed ∧ ¬ e.absorbed <+: d.absorbed ∧
      (d.hash = e.hash → Collide d.absorbed e.absorbed) := by
  obtain ⟨t, -, -, -, -, -, ht⟩ := V1.completes_start.1 d.completes.1
  obtain ⟨u, -, -, -, -, hu⟩ := V2.completes_start.1 e.completes.1
  have hne : ∀ v w, d.absorbed ++ v ≠ e.absorbed ++ w := by
    intro v w
    rw [ht, hu]
    exact covered_append_ne t _ u v w
  have hdiffer : d.absorbed ≠ e.absorbed := fun h => hne [] [] (by rw [h])
  refine ⟨hdiffer, ?_, ?_, ?_⟩
  · intro h
    obtain ⟨v, hv⟩ := h
    exact hne v [] (by rw [hv, List.append_nil])
  · intro h
    obtain ⟨w, hw⟩ := h
    exact hne [] w (by rw [hw, List.append_nil])
  · intro h
    rw [d.completes.2, e.completes.2] at h
    exact ⟨hdiffer, h⟩

end Countersign
