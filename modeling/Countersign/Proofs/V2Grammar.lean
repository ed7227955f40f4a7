import Countersign.Proofs.Sections

/-!
# The grammar of the second format

The byte strings that come to a hash are the encodings of transactions, with any bytes behind them.
They show the elements of the transaction and its fee, and the hash is that of the whole encoding
behind the distinguisher and the replay byte.

Three sections have no number in front: arbitrary data has a length and the foundation address a
flag, which are both zero, and the fee has nothing at all (`completes_minerFee`).
-/

namespace Countersign.V2

open Position

/-! ## Contents of the sections -/

/-- Inputs in siacoins or siafunds. -/
def inputs : Contents Digest := ⟨encodeInput, [], fun _ => .all, fun _ => none⟩

/-- Attestations. -/
def attestations : Contents Attestation := ⟨Attestation.encode, [], fun _ => .all, fun _ => none⟩

variable {sigIndex : UInt16} {change : Option Address} {covered bs : Bytes} {es : List Element}
  {signed : Bytes} {hash : Digest}

theorem describes_attestations : attestations.Describes sigIndex Section.attestations := by
  intro k w e hw
  apply accepts_attestation
  omega

/-! ## Sections -/

/-- Inputs in siacoins are the first section. -/
theorem completes_siacoinInputs :
    (behind sigIndex change Section.start covered).Completes bs es signed ↔
      ∃ xs rest, FitsWire encodeInput xs ∧ bs = encodeList encodeInput xs ++ rest ∧
        (behind sigIndex change Section.siacoinInputs
          (covered ++ encodeList encodeInput xs)).Completes rest es signed :=
  completes_silent (c := inputs) Section.start rfl (fun _ _ _ _ => accepts_input) rfl
    (fun _ => rfl) fun _ => rfl

/-- Outputs in siacoins are shown. -/
theorem completes_siacoinOutputs :
    (behind sigIndex change Section.siacoinInputs covered).Completes bs es signed ↔
      ∃ xs rest es', FitsWire SiacoinOutput.encode xs ∧
        bs = encodeList SiacoinOutput.encode xs ++ rest ∧
        es = shownPayments change (xs.map SiacoinOutput.payment) ++ es' ∧
        (behind sigIndex change Section.siacoinOutputs
          (covered ++ encodeList SiacoinOutput.encode xs)).Completes rest es' signed :=
  completes_paying Section.siacoinInputs rfl (Contents.describes_siacoinOutputs fun _ => rfl) rfl
    (fun _ => rfl) fun _ => rfl

/-- Inputs in siafunds are not shown. -/
theorem completes_siafundInputs :
    (behind sigIndex change Section.siacoinOutputs covered).Completes bs es signed ↔
      ∃ xs rest, FitsWire encodeInput xs ∧ bs = encodeList encodeInput xs ++ rest ∧
        (behind sigIndex change Section.siafundInputs
          (covered ++ encodeList encodeInput xs)).Completes rest es signed :=
  completes_silent (c := inputs) Section.siacoinOutputs rfl (fun _ _ _ _ => accepts_input) rfl
    (fun _ => rfl) fun _ => rfl

/-- Outputs in siafunds are shown. -/
theorem completes_siafundOutputs :
    (behind sigIndex change Section.siafundInputs covered).Completes bs es signed ↔
      ∃ xs rest es', FitsWire SiafundOutput.encode xs ∧
        bs = encodeList SiafundOutput.encode xs ++ rest ∧
        es = shownPayments change (xs.map SiafundOutput.payment) ++ es' ∧
        (behind sigIndex change Section.siafundOutputs
          (covered ++ encodeList SiafundOutput.encode xs)).Completes rest es' signed :=
  completes_paying Section.siafundInputs rfl (Contents.describes_siafundOutputs fun _ => rfl) rfl
    (fun _ => rfl) fun _ => rfl

/-- A section that must have no entries is the number zero. -/
theorem completes_empty (s₀ : Section) {s : Section} (hnext : s₀.next? = some s)
    (hheader : header s = Layout.emptyCount) :
    (behind sigIndex change s₀ covered).Completes bs es signed ↔
      ∃ rest, bs = bytesOfWord 0 ++ rest ∧
        (behind sigIndex change s (covered ++ bytesOfWord 0)).Completes rest es signed := by
  refine completes_bare s₀ hnext (by simp) fun v h => ?_
  show (header s).Accepts v h ↔ _
  rw [hheader]
  exact Layout.accepts_emptyCount

/-- Attestations are not shown. -/
theorem completes_attestations :
    (behind sigIndex change Section.fileContractResolutions covered).Completes bs es signed ↔
      ∃ xs rest, FitsWire Attestation.encode xs ∧
        bs = encodeList Attestation.encode xs ++ rest ∧
        (behind sigIndex change Section.attestations
          (covered ++ encodeList Attestation.encode xs)).Completes rest es signed :=
  completes_silent Section.fileContractResolutions rfl describes_attestations rfl (fun _ => rfl)
    fun _ => rfl

/-- The flag of a foundation address is the byte zero. -/
theorem completes_foundationAddress :
    (behind sigIndex change Section.arbitraryData covered).Completes bs es signed ↔
      ∃ rest, bs = [0] ++ rest ∧
        (behind sigIndex change Section.foundationAddress (covered ++ [0])).Completes
          rest es signed :=
  completes_bare Section.arbitraryData rfl (by decide) fun _ _ => accepts_foundationFlag

/-- The fee is the last section, and nothing says that it comes. -/
theorem completes_minerFee :
    (behind sigIndex change Section.foundationAddress covered).Completes bs es signed ↔
      ∃ (a : Amount) (rest : Bytes), bs = a.encode ++ rest ∧ es = shownPayments change [a.fee] ∧
        signed = covered ++ a.encode := by
  have hfee : Contents.minerFees.Describes sigIndex Section.minerFee :=
    Contents.describes_minerFees fun _ => rfl
  rw [completes_section Section.foundationAddress rfl hfee]
  apply Iff.intro
  · intro h
    obtain ⟨w, h, as, rest, es', hw, -, hcount, -, rfl, rfl, hbehind⟩ := h
    obtain ⟨rfl, rfl⟩ := Reader.accepts_done.1 hw
    obtain ⟨a, rfl⟩ := List.length_eq_one_iff.1 hcount
    obtain ⟨rfl, rfl⟩ := (completes_last rfl rfl).1 hbehind
    refine ⟨a, rest, ?_, List.append_nil _, ?_⟩
    · rw [List.flatMap_singleton]
      rfl
    · show covered ++ [] ++ ([] ++ a.encode ++ []) = _
      rw [List.append_nil, List.append_nil, List.nil_append]
  · intro h
    obtain ⟨a, rest, rfl, rfl, rfl⟩ := h
    have hlen : a.encode.length ≤ 510 := by
      have := a.length_le
      rw [Currency.maxBytes] at this
      rw [Amount.encode, encodeBytes, List.length_append, length_littleEndian]
      omega
    refine ⟨[], ⟨1, .all⟩, [a], rest, [], Reader.accepts_done.2 ⟨rfl, rfl⟩, by decide, rfl, ?_, ?_,
      (List.append_nil _).symm, (completes_last rfl rfl).2 ⟨rfl, ?_⟩⟩
    · intro x hx
      rw [List.mem_singleton.1 hx]
      exact hlen
    · rw [List.flatMap_singleton]
      rfl
    · show _ = covered ++ [] ++ ([] ++ a.encode ++ [])
      rw [List.append_nil, List.append_nil, List.nil_append]

/-! ## Transactions -/

/-- The byte strings that come to an end are the encodings of transactions. -/
theorem completes_start :
    (Position.start sigIndex change : Position Section).Completes bs es signed ↔
      ∃ (t : Transaction) (rest : Bytes), t.Fits ∧ bs = t.encode ++ rest ∧
        es = t.elements change ∧ signed = t.covered := by
  show (behind sigIndex change Section.start
    (Transcript.distinguisher ++ [Transcript.replayByteV2] ++ [])).Completes bs es signed ↔ _
  rw [List.append_nil]
  apply Iff.intro
  · intro h
    -- one section after the other, up to the fee
    obtain ⟨inputs, _, hinputs, rfl, h₁⟩ := completes_siacoinInputs.1 h
    obtain ⟨outputs, _, _, houtputs, rfl, rfl, h₂⟩ := completes_siacoinOutputs.1 h₁
    obtain ⟨fundInputs, _, hfundInputs, rfl, h₃⟩ := completes_siafundInputs.1 h₂
    obtain ⟨fundOutputs, _, _, hfundOutputs, rfl, rfl, h₄⟩ := completes_siafundOutputs.1 h₃
    obtain ⟨_, rfl, h₅⟩ := (completes_empty Section.siafundOutputs rfl rfl).1 h₄
    obtain ⟨_, rfl, h₆⟩ := (completes_empty Section.fileContracts rfl rfl).1 h₅
    obtain ⟨_, rfl, h₇⟩ := (completes_empty Section.fileContractRevisions rfl rfl).1 h₆
    obtain ⟨attestations, _, hattestations, rfl, h₈⟩ := completes_attestations.1 h₇
    obtain ⟨_, rfl, h₉⟩ := (completes_empty Section.attestations rfl rfl).1 h₈
    obtain ⟨_, rfl, h₁₀⟩ := completes_foundationAddress.1 h₉
    obtain ⟨fee, rest, rfl, rfl, rfl⟩ := completes_minerFee.1 h₁₀
    refine ⟨⟨inputs, outputs, fundInputs, fundOutputs, attestations, fee⟩, rest,
      ⟨hinputs, houtputs, hfundInputs, hfundOutputs, hattestations⟩, ?_, ?_, ?_⟩
    · simp only [Transaction.encode, Transaction.emptySection, List.append_assoc]
    · simp only [Transaction.elements, List.append_assoc]
    · simp only [Transaction.covered, Transaction.encode, Transaction.emptySection,
        List.append_assoc]
  · intro h
    obtain ⟨t, rest, ht, rfl, rfl, rfl⟩ := h
    simp only [Transaction.encode, Transaction.elements, Transaction.covered,
      Transaction.emptySection, List.append_assoc]
    apply completes_siacoinInputs.2
    refine ⟨t.siacoinInputs, _, ht.siacoinInputs, rfl, ?_⟩
    apply completes_siacoinOutputs.2
    refine ⟨t.siacoinOutputs, _, _, ht.siacoinOutputs, rfl, rfl, ?_⟩
    apply completes_siafundInputs.2
    refine ⟨t.siafundInputs, _, ht.siafundInputs, rfl, ?_⟩
    apply completes_siafundOutputs.2
    refine ⟨t.siafundOutputs, _, _, ht.siafundOutputs, rfl, rfl, ?_⟩
    apply (completes_empty Section.siafundOutputs rfl rfl).2
    refine ⟨_, rfl, ?_⟩
    apply (completes_empty Section.fileContracts rfl rfl).2
    refine ⟨_, rfl, ?_⟩
    apply (completes_empty Section.fileContractRevisions rfl rfl).2
    refine ⟨_, rfl, ?_⟩
    apply completes_attestations.2
    refine ⟨t.attestations, _, ht.attestations, rfl, ?_⟩
    -- the number of arbitrary data is a length, which is zero all the same
    apply (completes_empty Section.attestations rfl rfl).2
    refine ⟨_, rfl, ?_⟩
    apply completes_foundationAddress.2
    refine ⟨_, rfl, ?_⟩
    apply completes_minerFee.2
    refine ⟨t.minerFee, rest, rfl, rfl, ?_⟩
    simp only [List.append_assoc]

/-- The byte strings that come to a hash are the encodings of transactions. -/
theorem finishes_start :
    (Position.start sigIndex change : Position Section).Finishes bs es hash ↔
      ∃ (t : Transaction) (rest : Bytes), t.Fits ∧ bs = t.encode ++ rest ∧
        es = t.elements change ∧ hash = Blake2b.digest t.covered := by
  rw [finishes_iff_completes]
  apply Iff.intro
  · intro h
    obtain ⟨signed, hcompletes, rfl⟩ := h
    obtain ⟨t, rest, ht, hbs, hes, rfl⟩ := completes_start.1 hcompletes
    exact ⟨t, rest, ht, hbs, hes, rfl⟩
  · intro h
    obtain ⟨t, rest, ht, hbs, hes, rfl⟩ := h
    exact ⟨_, completes_start.2 ⟨t, rest, ht, hbs, hes, rfl⟩, rfl⟩

/-- However bytes are delivered, the decoder shows some elements and then gives a hash exactly when
the bytes begin with the encoding of a transaction; the elements are those of the transaction and
the hash is that of its covered bytes, whichever signature is wanted. -/
theorem sees_transaction_iff (sigIndex : UInt16) (change : Option Address) (bs : Bytes)
    (cs : List Call) (h : (Decoder.new sigIndex change : Decoder Section).IsSchedule bs cs)
    (es : List Element) (hash : Digest) :
    (elementsSeen ((Decoder.new sigIndex change : Decoder Section).observe cs).1 = es ∧
        lastFinding ((Decoder.new sigIndex change : Decoder Section).observe cs).1 =
          some (.ok (.finished hash))) ↔
      ∃ (t : Transaction) (rest : Bytes), t.Fits ∧ bs = t.encode ++ rest ∧
        es = t.elements change ∧ hash = Blake2b.digest t.covered :=
  (Decoder.sees_iff_finishes h es hash).trans finishes_start

/-- A transaction with one output and a fee. -/
def onePaid : Transaction where
  siacoinInputs := []
  siacoinOutputs := [⟨⟨[6], by decide⟩, ⟨Block.zero 32⟩⟩]
  siafundInputs := []
  siafundOutputs := []
  attestations := []
  minerFee := ⟨[1, 0], by decide⟩

/-- A delivery of the transaction in two chunks. -/
def onePaidCalls : List Call :=
  [.push (onePaid.encode.take 57), .next, .next, .push (onePaid.encode.drop 57), .next, .next]

theorem sees_onePaid :
    elementsSeen ((Decoder.new 3 none : Decoder Section).observe onePaidCalls).1 =
        onePaid.elements none ∧
      lastFinding ((Decoder.new 3 none : Decoder Section).observe onePaidCalls).1 =
        some (.ok (.finished (Blake2b.digest onePaid.covered))) :=
  (sees_transaction_iff 3 none (onePaid.encode ++ [8]) onePaidCalls (by decide +kernel) _ _).2
    ⟨onePaid, [8], ⟨by decide, by decide +kernel, by decide, by decide, by decide⟩, rfl, rfl, rfl⟩

end Countersign.V2
