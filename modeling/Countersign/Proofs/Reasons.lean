import Countersign.Proofs.Review

/-!
# Why a transaction is refused

Of the reasons for refusing a transaction some lie in its data, and some in how it is handed over
(`DecodeError.isStructural`). What readers refuse, they refuse for the data (`Reader.Structural`,
shown along the parts that readers are made of), and a decoder that has not come to its end adds
only that its buffer is full (`Decoder.structural_next`). A chunk is refused for its length alone
(`AnyDecoder.error_push`). So a review is never told that its transaction is complete already, or
that a value does not fit the screen (`Review.reason_push`).
-/

namespace Countersign

/-! ## Readers -/

namespace Reader

variable {α β : Type}

/-- Whatever the reader refuses, it refuses for the data, and not for the size of the buffer. -/
def Structural : Reader α → Prop
  | done _ => True
  | refuse e => e.isStructural = true ∧ e ≠ .bufferExhausted
  | take _ next => ∀ x, (next x).Structural

theorem structural_bind {r : Reader α} {f : α → Reader β} (hr : r.Structural)
    (hf : ∀ a, (f a).Structural) : (r >>= f).Structural := by
  rw [bind_eq]
  induction r with
  | done a => exact hf a
  | refuse e => exact hr
  | take n next ih => exact fun x => ih x (hr x)

theorem structural_times {r : Reader Unit} (hr : r.Structural) (n : Nat) :
    (times n r).Structural := by
  induction n with
  | zero => exact trivial
  | succ n ih => exact structural_bind hr fun _ => ih

theorem structural_of_parse {r : Reader α} (hr : r.Structural) {bs : Bytes} {e : DecodeError}
    (h : r.parse bs = .refused e) : e.isStructural = true ∧ e ≠ .bufferExhausted := by
  induction r generalizing bs with
  | done a => cases h
  | refuse e' =>
    cases h
    exact hr
  | take n next ih =>
    unfold parse at h
    split at h
    · exact ih _ (hr _) h
    · cases h

theorem structural_of_run {r : Reader α} (hr : r.Structural) {b : Buffer} {e : DecodeError}
    (h : r.run b = .refused e) : e.isStructural = true := by
  have hparse : r.parse b.unread = .refused e := by
    rw [← map_unread_run, h]
    rfl
  exact (structural_of_parse hr hparse).1

/-! ## Fields -/

theorem structural_block (n : Nat) : (block n).Structural := fun _ => trivial

theorem structural_byte : byte.Structural := fun _ => trivial

theorem structural_word : word.Structural := fun _ => trivial

theorem structural_skip (n : Nat) : (skip n).Structural := fun _ => trivial

theorem structural_skipBytes : skipBytes.Structural :=
  structural_bind structural_word fun n => structural_skip n.toNat

/-- An amount is refused for its length alone. -/
theorem structural_decode (raw : Bytes) : (ofExcept (Currency.decode raw)).Structural := by
  unfold Currency.decode
  split
  · exact ⟨rfl, nofun⟩
  · split
    · exact ⟨rfl, nofun⟩
    · exact trivial
    · exact trivial

theorem structural_currencyLength : currencyLength.Structural := by
  refine structural_bind structural_word fun n => ?_
  split
  · exact ⟨rfl, nofun⟩
  · exact trivial

theorem structural_currency : currency.Structural :=
  structural_bind structural_currencyLength fun n =>
    structural_bind (structural_block n) fun raw => structural_decode raw.bytes

theorem structural_skipCurrency : skipCurrency.Structural :=
  structural_bind structural_currencyLength structural_skip

theorem structural_address : address.Structural :=
  structural_bind (structural_block 32) fun _ => trivial

theorem structural_unlockKey : unlockKey.Structural :=
  structural_bind (structural_skip 16) fun _ => structural_skipBytes

theorem structural_unlockConditions : unlockConditions.Structural :=
  structural_bind (structural_skip 8) fun _ =>
    structural_bind structural_word fun keys =>
      structural_bind (structural_times structural_unlockKey keys.toNat) fun _ => structural_skip 8

theorem structural_coveredZero : coveredZero.Structural := by
  refine structural_bind structural_word fun n => ?_
  split
  · exact trivial
  · exact ⟨rfl, nofun⟩

theorem structural_coveredFields : coveredFields.Structural := by
  refine structural_bind structural_byte fun whole => ?_
  split
  · exact structural_times structural_coveredZero 10
  · exact ⟨rfl, nofun⟩

end Reader

/-! ## Layouts -/

open Reader

/-- A format whose headers and entries are refused for their data only. -/
class Layout.Structural (S : Type) [Layout S] : Prop where
  structural_header : ∀ (i : UInt16) (s : S), (Layout.header i s).Structural
  structural_entry : ∀ (i : UInt16) (s : S) (k : UInt64), (Layout.entry i s k).Structural

namespace Layout

theorem structural_counted : counted.Structural :=
  structural_bind structural_word fun _ => trivial

theorem structural_emptyCount : emptyCount.Structural := by
  refine structural_bind structural_word fun n => ?_
  split
  · exact trivial
  · exact ⟨rfl, nofun⟩

theorem structural_siacoinOutput : siacoinOutput.Structural :=
  structural_bind structural_currency fun _ => structural_bind structural_address fun _ => trivial

theorem structural_siafundOutput : siafundOutput.Structural :=
  structural_bind structural_currency fun _ =>
    structural_bind structural_address fun _ =>
      structural_bind structural_skipCurrency fun _ => trivial

theorem structural_minerFee : minerFee.Structural :=
  structural_bind structural_currency fun _ => trivial

end Layout

namespace V1

theorem structural_signatureCount (sigIndex : UInt16) : (signatureCount sigIndex).Structural := by
  refine structural_bind structural_word fun n => ?_
  split
  · exact ⟨rfl, nofun⟩
  · exact trivial

theorem structural_siacoinInput : siacoinInput.Structural :=
  structural_bind (structural_block 32) fun _ =>
    structural_bind structural_unlockConditions fun _ => trivial

theorem structural_siafundInput : siafundInput.Structural :=
  structural_bind (structural_block 32) fun _ =>
    structural_bind structural_unlockConditions fun _ =>
      structural_bind (structural_block 32) fun _ => trivial

theorem structural_signature (sigIndex : UInt16) (k : UInt64) :
    (signature sigIndex k).Structural :=
  structural_bind (structural_block 32) fun _ =>
    structural_bind structural_word fun _ =>
      structural_bind structural_word fun _ =>
        structural_bind structural_coveredFields fun _ =>
          structural_bind structural_skipBytes fun _ => trivial

instance : Layout.Structural Section where
  structural_header i s :=
    match s with
    | .signatures => structural_signatureCount i
    | .fileContracts | .fileContractRevisions | .storageProofs | .arbitraryData =>
      Layout.structural_emptyCount
    | .start | .siacoinInputs | .siacoinOutputs | .siafundInputs | .siafundOutputs | .minerFees =>
      Layout.structural_counted
  structural_entry i s k :=
    match s with
    | .siacoinInputs => structural_siacoinInput
    | .siacoinOutputs => Layout.structural_siacoinOutput
    | .siafundInputs => structural_siafundInput
    | .siafundOutputs => Layout.structural_siafundOutput
    | .minerFees => Layout.structural_minerFee
    | .signatures => structural_signature i k
    | .start | .fileContracts | .fileContractRevisions | .storageProofs | .arbitraryData =>
      ⟨rfl, nofun⟩

end V1

namespace V2

theorem structural_foundationFlag : foundationFlag.Structural := by
  refine structural_bind structural_byte fun flag => ?_
  split
  · exact trivial
  · exact ⟨rfl, nofun⟩

theorem structural_input : input.Structural :=
  structural_bind (structural_block 32) fun _ => trivial

theorem structural_attestation : attestation.Structural :=
  structural_bind (structural_skip 32) fun _ =>
    structural_bind structural_skipBytes fun _ =>
      structural_bind structural_skipBytes fun _ =>
        structural_bind (structural_skip 64) fun _ => trivial

instance : Layout.Structural Section where
  structural_header _ s :=
    match s with
    | .arbitraryData | .fileContracts | .fileContractRevisions | .fileContractResolutions =>
      Layout.structural_emptyCount
    | .foundationAddress => structural_foundationFlag
    | .minerFee => trivial
    | .start | .siacoinInputs | .siacoinOutputs | .siafundInputs | .siafundOutputs
    | .attestations => Layout.structural_counted
  structural_entry _ s _ :=
    match s with
    | .siacoinInputs | .siafundInputs => structural_input
    | .siacoinOutputs => Layout.structural_siacoinOutput
    | .siafundOutputs => Layout.structural_siafundOutput
    | .attestations => structural_attestation
    | .minerFee => Layout.structural_minerFee
    | .start | .fileContracts | .fileContractRevisions | .fileContractResolutions
    | .arbitraryData | .foundationAddress => ⟨rfl, nofun⟩

end V2

/-! ## Decoders -/

namespace Decoder

variable {S : Type} [Layout S] {d : Decoder S} {e : DecodeError}

omit [Layout S] in
/-- A header whose bytes are complete is taken. -/
theorem enter_ne_fails (hd : d.Live) (s : S) (h : Header) (rest : Buffer) :
    d.enter s h rest ≠ .fails e := by
  obtain ⟨t, ht, -, -⟩ := record_isOpen hd.isOpen rest.readBytes h.cover
  rw [enter, ht]
  intro h
  cases h

omit [Layout S] in
/-- An entry whose bytes are complete is taken. -/
theorem complete_ne_fails (hd : d.Live) (entry : Entry) (rest : Buffer) :
    d.complete entry rest ≠ .fails e := by
  obtain ⟨t₁, ht₁, hopen₁, -⟩ := record_isOpen hd.isOpen entry.lead .all
  obtain ⟨t₂, ht₂, -, -⟩ := record_isOpen hopen₁ rest.readBytes entry.cover
  have hwritten : (d.transcript.write entry.lead).bind (·.record rest.readBytes entry.cover) =
      .ok t₂ := by
    rw [show d.transcript.write entry.lead = .ok t₁ from ht₁]
    exact ht₂
  rw [complete, hwritten]
  dsimp only
  intro h
  split at h
  · cases h
  · split at h <;> cases h

variable [Layout.Structural S]

/-- A step fails for the data only. -/
theorem structural_step (hd : d.Live) (h : d.step = .fails e) : e.isStructural = true := by
  unfold step at h
  split at h
  · split at h
    · -- an open transcript can be closed
      rw [Transcript.close, hd.isOpen] at h
      cases h
    · next s hs =>
      split at h
      · next header rest hrun => exact absurd h (enter_ne_fails hd s header rest)
      · cases h
      · next e' hrun =>
        cases h
        exact structural_of_run (Layout.Structural.structural_header _ _) hrun
  · split at h
    · next entry rest hrun => exact absurd h (complete_ne_fails hd entry rest)
    · cases h
    · next e' hrun =>
      cases h
      exact structural_of_run (Layout.Structural.structural_entry _ _ _) hrun

/-- A decoder that has not come to its end fails for the data only. -/
theorem structural_next (hd : d.Live) (h : d.next.1 = .error e) : e.isStructural = true := by
  fun_induction next d with
  | case1 d e' houtcome => rw [hd.outcome] at houtcome; cases houtcome
  | case2 d hash houtcome => rw [hd.outcome] at houtcome; cases houtcome
  | case3 d _ d' hstep ih =>
    have hmatch := matches_step hd []
    rw [hstep] at hmatch
    exact ih hmatch.1 h
  | case4 => cases h
  | case5 => cases h
  | case6 d _ hstep d' hfull =>
    cases h
    rfl
  | case7 => cases h
  | case8 d _ e' hstep =>
    cases h
    exact structural_step hd hstep

omit [Layout S] [Layout.Structural S] in
/-- A decoder that has not come to its end refuses a chunk for its length only. -/
theorem error_push (hd : d.Live) {chunk : Bytes} (h : d.push chunk = .error e) :
    e = .capacity := by
  rw [push, hd.outcome] at h
  dsimp only at h
  rw [Buffer.push] at h
  split at h
  · cases h
    rfl
  · cases h

end Decoder

namespace AnyDecoder

variable {d : AnyDecoder} {e : DecodeError}

theorem structural_next (hd : d.Live) (h : d.next.1 = .error e) : e.isStructural = true := by
  rcases d with d | d
  · exact Decoder.structural_next hd h
  · exact Decoder.structural_next hd h

theorem error_push (hd : d.Live) {chunk : Bytes} (h : d.push chunk = .error e) :
    e = .capacity := by
  rcases d with d | d
  all_goals
    rw [push] at h
    rcases hpush : d.push chunk with e' | d'
    · rw [hpush] at h
      cases h
      exact Decoder.error_push hd hpush
    · rw [hpush] at h
      cases h

end AnyDecoder

/-! ## Reviews -/

/-- A failure of a review: there are too many elements, or the data are bad, or there is no room for
the chunk. -/
def Refusal.IsOfReview : Refusal → Prop
  | .tooManyElements => True
  | .decode e => e.isStructural = true ∨ e = .capacity
  | _ => False

namespace Review

variable {r : Review}

theorem reason_drain (hr : r.decoder.Live) {e : Refusal} (h : r.drain.1 = .error e) :
    e.IsOfReview := by
  have hanswer := AnyDecoder.foretells_next hr
  fun_induction drain r with
  | case1 r e' decoder hnext =>
    cases h
    exact Or.inl (AnyDecoder.structural_next hr (congrArg Prod.fst hnext))
  | case2 => cases h
  | case3 => cases h
  | case4 r e' decoder hnext hroom ih =>
    rw [hnext] at hanswer
    exact ih hanswer.1 h (AnyDecoder.foretells_next hanswer.1)
  | case5 =>
    cases h
    exact trivial

theorem reason_push (hr : r.decoder.Live) {chunk : Bytes} {e : Refusal}
    (h : (r.push chunk).1 = .error e) : e.IsOfReview := by
  unfold push at h
  split at h
  · next e' hpush =>
    cases h
    exact Or.inr (AnyDecoder.error_push hr hpush)
  · next decoder hpush =>
    have hlive : decoder.Live := (AnyDecoder.outlook_push hr hpush).1
    exact reason_drain (r := { r with decoder }) hlive h

end Review

end Countersign
