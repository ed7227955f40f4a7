import Countersign.Proofs.Sections

/-!
# The grammar of the first format

The byte strings that come to a hash are the encodings of transactions, with any bytes behind them,
of which the wanted signature is there. They show the elements of the transaction, and the hash is
that of its covered bytes.

Inputs have the replay byte ahead of them, so the covered bytes are the body of the transaction with
a lead; of the signatures only the first 48 bytes of the wanted one are covered
(`covered_signatures`).
-/

namespace Countersign.V1

open Position

/-! ## Contents of the sections -/

/-- Inputs in siacoins, which have the replay byte ahead of them. -/
def siacoinInputs : Contents SiacoinInput :=
  ⟨SiacoinInput.encode, [Transcript.replayByteV1], fun _ => .all, fun _ => none⟩

/-- Inputs in siafunds, which have the replay byte ahead of them. -/
def siafundInputs : Contents SiafundInput :=
  ⟨SiafundInput.encode, [Transcript.replayByteV1], fun _ => .all, fun _ => none⟩

/-- Signatures, of which the wanted one is covered in part. -/
def signatures (sigIndex : UInt16) : Contents SignatureEntry :=
  ⟨SignatureEntry.encode, [], fun k => (signatureEntry sigIndex k).cover, fun _ => none⟩

variable {sigIndex : UInt16} {change : Option Address} {covered bs : Bytes} {es : List Element}
  {signed : Bytes} {hash : Digest}

theorem describes_siacoinInputs : siacoinInputs.Describes sigIndex Section.siacoinInputs := by
  intro k w e hw
  apply accepts_siacoinInput
  omega

theorem describes_siafundInputs : siafundInputs.Describes sigIndex Section.siafundInputs := by
  intro k w e hw
  apply accepts_siafundInput
  omega

theorem describes_signatures : (signatures sigIndex).Describes sigIndex Section.signatures := by
  intro k w e hw
  apply accepts_signature
  omega

/-! ## Signatures -/

/-- The covered part of the wanted signature is its first 48 bytes. -/
theorem part_signature (s : SignatureEntry) :
    (Coverage.front coveredSignatureLength).part s.encode = s.identity.bytes := by
  rw [Coverage.part, SignatureEntry.encode, coveredSignatureLength]
  exact List.take_left' s.identity.length_bytes

/-- Of the signatures from number `k` on, only the wanted one is covered, if it is among them. -/
theorem covered_signatures_from (k : UInt64) (ss : List SignatureEntry)
    (h : k.toNat + ss.length < 2 ^ 64) :
    (signatures sigIndex).covered k ss =
      if k.toNat ≤ sigIndex.toNat then
        (ss[sigIndex.toNat - k.toNat]?.map fun s => s.identity.bytes).getD []
      else [] := by
  induction ss generalizing k with
  | nil =>
    rw [Contents.covered, List.getElem?_nil]
    split <;> rfl
  | cons s ss ih =>
    rw [List.length_cons] at h
    have hnext : (k + 1).toNat = k.toNat + 1 := by
      rw [UInt64.toNat_add, UInt64.toNat_one]
      omega
    rw [Contents.covered, ih (k + 1) (by omega), hnext]
    show [] ++ (if k.toNat = sigIndex.toNat then Coverage.front coveredSignatureLength
      else Coverage.nothing).part s.encode ++ _ = _
    by_cases hk : k.toNat = sigIndex.toNat
    · -- the wanted one, and none of those behind it
      have hlater : ¬ k.toNat + 1 ≤ sigIndex.toNat := by omega
      rw [if_pos hk, if_neg hlater, if_pos (Nat.le_of_eq hk), part_signature, hk, Nat.sub_self]
      simp
    · rw [if_neg hk, Coverage.part, List.nil_append, List.nil_append]
      by_cases hle : k.toNat ≤ sigIndex.toNat
      · have hlater : k.toNat + 1 ≤ sigIndex.toNat := by omega
        rw [if_pos hlater, if_pos hle,
          show sigIndex.toNat - k.toNat = (sigIndex.toNat - (k.toNat + 1)) + 1 by omega,
          List.getElem?_cons_succ]
      · have hlater : ¬ k.toNat + 1 ≤ sigIndex.toNat := by omega
        rw [if_neg hlater, if_neg hle]

theorem covered_signatures {ss : List SignatureEntry} (h : ss.length < 2 ^ 64) :
    (signatures sigIndex).covered 0 ss =
      (ss[sigIndex.toNat]?.map fun s => s.identity.bytes).getD [] := by
  rw [covered_signatures_from 0 ss (by rw [UInt64.toNat_zero]; omega), UInt64.toNat_zero,
    if_pos (Nat.zero_le _), Nat.sub_zero]

/-! ## Sections -/

/-- Inputs in siacoins are the first section. -/
theorem completes_siacoinInputs :
    (behind sigIndex change Section.start covered).Completes bs es signed ↔
      ∃ xs rest, FitsWire SiacoinInput.encode xs ∧
        bs = encodeList SiacoinInput.encode xs ++ rest ∧
        (behind sigIndex change Section.siacoinInputs
          (covered ++ encodeList (fun i => [Transcript.replayByteV1] ++ i.encode) xs)).Completes
            rest es signed :=
  completes_silent Section.start rfl describes_siacoinInputs rfl (fun _ => rfl) fun _ => rfl

/-- Outputs in siacoins are shown. -/
theorem completes_siacoinOutputs :
    (behind sigIndex change Section.siacoinInputs covered).Completes bs es signed ↔
      ∃ xs rest es', FitsWire SiacoinOutput.encode xs ∧
        bs = encodeList SiacoinOutput.encode xs ++ rest ∧
        es = shownPayments change (xs.map SiacoinOutput.payment) ++ es' ∧
        (behind sigIndex change Section.siacoinOutputs
          (covered ++ encodeList SiacoinOutput.encode xs)).Completes rest es' signed :=
  completes_paying Section.siacoinInputs rfl (Contents.describes_siacoinOutputs fun _ => rfl) rfl
    (fun _ => rfl) fun _ => rfl

/-- A section that is not supported is the number zero. -/
theorem completes_unsupported (s₀ : Section) {s : Section} (hnext : s₀.next? = some s)
    (hs : s.isUnsupported = true) :
    (behind sigIndex change s₀ covered).Completes bs es signed ↔
      ∃ rest, bs = bytesOfWord 0 ++ rest ∧
        (behind sigIndex change s (covered ++ bytesOfWord 0)).Completes rest es signed := by
  have hheader : Layout.header sigIndex s = Layout.emptyCount := by
    rcases s <;> first | rfl | cases hs
  refine completes_bare s₀ hnext (by simp) fun v h => ?_
  rw [hheader]
  exact Layout.accepts_emptyCount

/-- Inputs in siafunds are not shown. -/
theorem completes_siafundInputs :
    (behind sigIndex change Section.storageProofs covered).Completes bs es signed ↔
      ∃ xs rest, FitsWire SiafundInput.encode xs ∧
        bs = encodeList SiafundInput.encode xs ++ rest ∧
        (behind sigIndex change Section.siafundInputs
          (covered ++ encodeList (fun i => [Transcript.replayByteV1] ++ i.encode) xs)).Completes
            rest es signed :=
  completes_silent Section.storageProofs rfl describes_siafundInputs rfl (fun _ => rfl)
    fun _ => rfl

/-- Outputs in siafunds are shown. -/
theorem completes_siafundOutputs :
    (behind sigIndex change Section.siafundInputs covered).Completes bs es signed ↔
      ∃ xs rest es', FitsWire SiafundOutput.encode xs ∧
        bs = encodeList SiafundOutput.encode xs ++ rest ∧
        es = shownPayments change (xs.map SiafundOutput.payment) ++ es' ∧
        (behind sigIndex change Section.siafundOutputs
          (covered ++ encodeList SiafundOutput.encode xs)).Completes rest es' signed :=
  completes_paying Section.siafundInputs rfl (Contents.describes_siafundOutputs fun _ => rfl) rfl
    (fun _ => rfl) fun _ => rfl

/-- Fees are shown. -/
theorem completes_minerFees :
    (behind sigIndex change Section.siafundOutputs covered).Completes bs es signed ↔
      ∃ xs rest es', FitsWire Amount.encode xs ∧ bs = encodeList Amount.encode xs ++ rest ∧
        es = shownPayments change (xs.map Amount.fee) ++ es' ∧
        (behind sigIndex change Section.minerFees
          (covered ++ encodeList Amount.encode xs)).Completes rest es' signed :=
  completes_paying Section.siafundOutputs rfl (Contents.describes_minerFees fun _ => rfl) rfl
    (fun _ => rfl) fun _ => rfl

/-- The signatures are the last section, and the wanted one must be among them. -/
theorem completes_signatures :
    (behind sigIndex change Section.arbitraryData covered).Completes bs es signed ↔
      ∃ ss rest, FitsWire SignatureEntry.encode ss ∧ sigIndex.toNat < ss.length ∧
        bs = encodeList SignatureEntry.encode ss ++ rest ∧ es = [] ∧
        signed = covered ++ (ss[sigIndex.toNat]?.map fun s => s.identity.bytes).getD [] := by
  have hnone : ∀ ss : List SignatureEntry,
      shownPayments change (ss.filterMap (signatures sigIndex).pay) = [] := by
    intro ss
    have hpay : ∀ x ∈ ss, (signatures sigIndex).pay x = none := fun _ _ => rfl
    rw [List.filterMap_eq_nil_iff.2 hpay]
    rfl
  rw [completes_section Section.arbitraryData rfl describes_signatures]
  apply Iff.intro
  · intro h
    obtain ⟨w, h, ss, rest, es', hw, -, hcount, hss, rfl, rfl, hbehind⟩ := h
    obtain ⟨n, hn, rfl, rfl⟩ := accepts_signatureCount.1 hw
    obtain ⟨rfl, rfl⟩ := (completes_last rfl rfl).1 hbehind
    have hlen : ss.length < 2 ^ 64 := hcount ▸ n.toNat_lt
    refine ⟨ss, rest, ⟨hlen, hss⟩, hcount ▸ hn, ?_, ?_, ?_⟩
    · rw [bytesOfWord_toNat hcount, encodeList, List.append_assoc]
      rfl
    · rw [hnone, List.append_nil]
    · show covered ++ [] ++ (signatures sigIndex).covered 0 ss = _
      rw [List.append_nil, covered_signatures hlen]
  · intro h
    obtain ⟨ss, rest, ⟨hlen, hss⟩, hindex, rfl, rfl, rfl⟩ := h
    have hcount : (UInt64.ofNat ss.length).toNat = ss.length := UInt64.toNat_ofNat_of_lt' hlen
    refine ⟨littleEndian 8 ss.length, ⟨UInt64.ofNat ss.length, .nothing⟩, ss, rest, [],
      accepts_signatureCount.2 ⟨_, hcount.symm ▸ hindex, (bytesOfWord_ofNat hlen).symm, rfl⟩,
      by simp, hcount.symm, hss, ?_, ?_, (completes_last rfl rfl).2 ⟨rfl, ?_⟩⟩
    · rw [encodeList, List.append_assoc]
      rfl
    · rw [hnone, List.append_nil]
    · show _ = covered ++ [] ++ (signatures sigIndex).covered 0 ss
      rw [List.append_nil, covered_signatures hlen]

/-! ## Transactions -/

/-- The byte strings that come to an end are the encodings of transactions. -/
theorem completes_start :
    (Position.start sigIndex change : Position Section).Completes bs es signed ↔
      ∃ (t : Transaction) (rest : Bytes), t.Fits ∧ sigIndex.toNat < t.signatures.length ∧
        bs = t.encode ++ rest ∧ es = t.elements change ∧
        signed = t.covered sigIndex.toNat := by
  show (behind sigIndex change Section.start []).Completes bs es signed ↔ _
  apply Iff.intro
  · intro h
    -- one section after the other, up to the signatures
    obtain ⟨inputs, _, hinputs, rfl, h₁⟩ := completes_siacoinInputs.1 h
    obtain ⟨outputs, _, _, houtputs, rfl, rfl, h₂⟩ := completes_siacoinOutputs.1 h₁
    obtain ⟨_, rfl, h₃⟩ := (completes_unsupported Section.siacoinOutputs rfl rfl).1 h₂
    obtain ⟨_, rfl, h₄⟩ := (completes_unsupported Section.fileContracts rfl rfl).1 h₃
    obtain ⟨_, rfl, h₅⟩ := (completes_unsupported Section.fileContractRevisions rfl rfl).1 h₄
    obtain ⟨fundInputs, _, hfundInputs, rfl, h₆⟩ := completes_siafundInputs.1 h₅
    obtain ⟨fundOutputs, _, _, hfundOutputs, rfl, rfl, h₇⟩ := completes_siafundOutputs.1 h₆
    obtain ⟨fees, _, _, hfees, rfl, rfl, h₈⟩ := completes_minerFees.1 h₇
    obtain ⟨_, rfl, h₉⟩ := (completes_unsupported Section.minerFees rfl rfl).1 h₈
    obtain ⟨ss, rest, hss, hindex, rfl, rfl, rfl⟩ := completes_signatures.1 h₉
    refine ⟨⟨inputs, outputs, fundInputs, fundOutputs, fees, ss⟩, rest,
      ⟨hinputs, houtputs, hfundInputs, hfundOutputs, hfees, hss⟩, hindex, ?_, ?_, ?_⟩
    · simp only [Transaction.encode, Transaction.body, Transaction.emptySection, List.append_assoc,
        List.nil_append]
    · simp only [Transaction.elements, List.append_assoc, List.append_nil]
    · simp only [Transaction.covered, Transaction.body, Transaction.emptySection, List.append_assoc,
        List.nil_append]
  · intro h
    obtain ⟨t, rest, ht, hindex, rfl, rfl, rfl⟩ := h
    simp only [Transaction.encode, Transaction.elements, Transaction.covered, Transaction.body,
      Transaction.emptySection, List.append_assoc, List.nil_append]
    apply completes_siacoinInputs.2
    refine ⟨t.siacoinInputs, _, ht.siacoinInputs, rfl, ?_⟩
    apply completes_siacoinOutputs.2
    refine ⟨t.siacoinOutputs, _, _, ht.siacoinOutputs, rfl, rfl, ?_⟩
    apply (completes_unsupported Section.siacoinOutputs rfl rfl).2
    refine ⟨_, rfl, ?_⟩
    apply (completes_unsupported Section.fileContracts rfl rfl).2
    refine ⟨_, rfl, ?_⟩
    apply (completes_unsupported Section.fileContractRevisions rfl rfl).2
    refine ⟨_, rfl, ?_⟩
    apply completes_siafundInputs.2
    refine ⟨t.siafundInputs, _, ht.siafundInputs, rfl, ?_⟩
    apply completes_siafundOutputs.2
    refine ⟨t.siafundOutputs, _, _, ht.siafundOutputs, rfl, rfl, ?_⟩
    -- the fees are the last elements
    apply completes_minerFees.2
    refine ⟨t.minerFees, _, [], ht.minerFees, rfl, (List.append_nil _).symm, ?_⟩
    apply (completes_unsupported Section.minerFees rfl rfl).2
    refine ⟨_, rfl, ?_⟩
    apply completes_signatures.2
    refine ⟨t.signatures, rest, ht.signatures, hindex, rfl, rfl, ?_⟩
    simp only [List.append_assoc, List.nil_append]

/-- The byte strings that come to a hash are the encodings of transactions. -/
theorem finishes_start :
    (Position.start sigIndex change : Position Section).Finishes bs es hash ↔
      ∃ (t : Transaction) (rest : Bytes), t.Fits ∧ sigIndex.toNat < t.signatures.length ∧
        bs = t.encode ++ rest ∧ es = t.elements change ∧
        hash = Blake2b.digest (t.covered sigIndex.toNat) := by
  rw [finishes_iff_completes]
  apply Iff.intro
  · intro h
    obtain ⟨signed, hcompletes, rfl⟩ := h
    obtain ⟨t, rest, ht, hindex, hbs, hes, rfl⟩ := completes_start.1 hcompletes
    exact ⟨t, rest, ht, hindex, hbs, hes, rfl⟩
  · intro h
    obtain ⟨t, rest, ht, hindex, hbs, hes, rfl⟩ := h
    exact ⟨_, completes_start.2 ⟨t, rest, ht, hindex, hbs, hes, rfl⟩, rfl⟩

/-- However bytes are delivered, the decoder shows some elements and then gives a hash exactly when
the bytes begin with the encoding of a transaction in which the wanted signature is there; the
elements are those of the transaction and the hash is that of its covered bytes. -/
theorem sees_signed_transaction_iff (sigIndex : UInt16) (change : Option Address) (bs : Bytes)
    (cs : List Call) (h : (Decoder.new sigIndex change : Decoder Section).IsSchedule bs cs)
    (es : List Element) (hash : Digest) :
    (elementsSeen ((Decoder.new sigIndex change : Decoder Section).observe cs).1 = es ∧
        lastFinding ((Decoder.new sigIndex change : Decoder Section).observe cs).1 =
          some (.ok (.finished hash))) ↔
      ∃ (t : Transaction) (rest : Bytes), t.Fits ∧ sigIndex.toNat < t.signatures.length ∧
        bs = t.encode ++ rest ∧ es = t.elements change ∧
        hash = Blake2b.digest (t.covered sigIndex.toNat) :=
  (Decoder.sees_iff_finishes h es hash).trans finishes_start

/-- A transaction with one output and one signature. -/
def onceSigned : Transaction where
  siacoinInputs := []
  siacoinOutputs := [⟨⟨[5], by decide⟩, ⟨Block.zero 32⟩⟩]
  siafundInputs := []
  siafundOutputs := []
  minerFees := []
  signatures := [⟨Block.zero 48, []⟩]

/-- A delivery of the transaction in three chunks. -/
def onceSignedCalls : List Call :=
  [.push (onceSigned.encode.take 57), .next, .next,
   .push ((onceSigned.encode.drop 57).take 64), .next,
   .push (onceSigned.encode.drop 121), .next]

theorem sees_onceSigned :
    elementsSeen ((Decoder.new 0 none : Decoder Section).observe onceSignedCalls).1 =
        onceSigned.elements none ∧
      lastFinding ((Decoder.new 0 none : Decoder Section).observe onceSignedCalls).1 =
        some (.ok (.finished (Blake2b.digest (onceSigned.covered 0)))) :=
  (sees_signed_transaction_iff 0 none (onceSigned.encode ++ [8]) onceSignedCalls
    (by decide +kernel) _ _).2
      ⟨onceSigned, [8], ⟨by decide +kernel, by decide +kernel, by decide, by decide, by decide,
        by decide +kernel⟩, by decide, rfl, rfl, rfl⟩

end Countersign.V1
