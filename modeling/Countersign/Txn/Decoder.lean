import Countersign.Txn.Layout

/-!
# The streaming decoder

A decoder holds the chunks it was given until the element at their front is complete, writes the
covered bytes of the element to the transcript, drops the element, and goes on. An element that is
not complete is tried again from its start when more bytes have come, so nothing may happen before
its last byte has been read; if the buffer is full, no more bytes can come, and the transaction is
refused.

The outcome, once there is one, stays: a finished decoder gives the same hash and a failed one the
same error, whatever follows.
-/

namespace Countersign

/-- What a decoder has found. -/
inductive Finding where
  /-- The next element is not complete. -/
  | needsMore
  /-- An element for the user to review. -/
  | element (e : Element)
  /-- The transaction is complete; this is the hash to sign. -/
  | finished (hash : Digest)
deriving DecidableEq

/-- A decoder in the middle of a transaction with sections of type `S`. -/
structure Decoder (S : Type) where
  /-- The index of the wanted signature. -/
  sigIndex : UInt16
  /-- The address whose outputs are change and not shown. -/
  change : Option Address
  /-- The bytes received and not yet decoded. -/
  buffer : Buffer
  /-- The covered bytes so far. -/
  transcript : Transcript
  /-- The section being decoded. -/
  place : S
  /-- The number of entries of the section. -/
  count : UInt64
  /-- The number of entries decoded. -/
  index : UInt64
  /-- The number of elements shown in the section, at most 65535. -/
  shown : UInt16
  /-- The hash or the error in which decoding ended. -/
  outcome : Option (Except DecodeError Digest)

namespace Decoder

variable {S : Type} [Layout S]

/-- A decoder ahead of the first byte. -/
def new (sigIndex : UInt16) (change : Option Address) : Decoder S :=
  ⟨sigIndex, change, Buffer.empty, Layout.opening S, Layout.start, 0, 0, 0, none⟩

/-- The room left for the next chunk. -/
def available (d : Decoder S) : Nat := d.buffer.available

/-! ## Receiving -/

/-- Receives a chunk; refused when decoding has ended or when there is no room for all of it. -/
def push (d : Decoder S) (chunk : Bytes) : Except DecodeError (Decoder S) :=
  match d.outcome with
  | some (.error e) => .error e
  | some (.ok _) => .error .finalized
  | none => (d.buffer.push chunk).map fun buffer => { d with buffer }

/-! ## Single steps -/

/-- What one step of a decoder comes to. -/
inductive Step (S : Type) where
  /-- A header or an entry has been decoded that shows nothing. -/
  | hidden (d : Decoder S)
  /-- An element has been decoded. -/
  | shows (e : Element) (d : Decoder S)
  /-- The transaction is complete. -/
  | ends (hash : Digest) (d : Decoder S)
  /-- The header or entry is not complete. -/
  | waits
  /-- The transaction is refused. -/
  | fails (e : DecodeError)

/-- The number of an element after `shown` others, which stays at 65535 once it is there. -/
def number (shown : UInt16) : UInt16 := if shown = 65535 then 65535 else shown + 1

/-- Goes on to section `s`, whose header has been read up to the offset of `rest`. -/
def enter (d : Decoder S) (s : S) (h : Header) (rest : Buffer) : Step S :=
  match d.transcript.record rest.readBytes h.cover with
  | .error e => .fails e
  | .ok transcript =>
    .hidden { d with
      buffer := rest.discard, transcript, place := s, count := h.count, index := 0, shown := 0 }

/-- Takes an entry, which has been read up to the offset of `rest`, and shows what it pays unless
it pays the change address. -/
def complete (d : Decoder S) (entry : Entry) (rest : Buffer) : Step S :=
  match (d.transcript.write entry.lead).bind (·.record rest.readBytes entry.cover) with
  | .error e => .fails e
  | .ok transcript =>
    let d := { d with buffer := rest.discard, transcript, index := d.index + 1 }
    match entry.payment with
    | none => .hidden d
    | some payment =>
      if payment.address.isSome ∧ payment.address = d.change then .hidden d
      else
        let shown := number d.shown
        .shows (payment.numbered shown) { d with shown }

/-- Reads the next entry, or the header of the next section, or closes the transcript. -/
def step (d : Decoder S) : Step S :=
  if d.index = d.count then
    match Layout.next? d.place with
    | none =>
      match d.transcript.close with
      | .error e => .fails e
      | .ok (hash, transcript) => .ends hash { d with transcript }
    | some s =>
      match (Layout.header d.sigIndex s).run d.buffer with
      | .complete h rest => d.enter s h rest
      | .short => .waits
      | .refused e => .fails e
  else
    match (Layout.entry d.sigIndex d.place d.index).run d.buffer with
    | .complete entry rest => d.complete entry rest
    | .short => .waits
    | .refused e => .fails e

/-! ## Progress -/

/-- A bound on the steps that can be taken without a further chunk. -/
def measure (d : Decoder S) : Nat := d.buffer.length + Layout.depth d.place

/-- The step has left a decoder behind. -/
def Step.Leaves (d' : Decoder S) : Step S → Prop
  | .hidden d => d = d'
  | .shows _ d => d = d'
  | _ => False

theorem measure_enter {d d' : Decoder S} {s : S} {h : Header} {rest : Buffer}
    (hs : Layout.next? d.place = some s) (hrest : rest.length = d.buffer.length)
    (hd : (d.enter s h rest).Leaves d') : d'.measure < d.measure := by
  have hdepth := Layout.depth_next hs
  unfold enter at hd
  split at hd
  · exact hd.elim
  · subst hd
    simp only [measure, Buffer.length_discard]
    omega

theorem measure_complete {d d' : Decoder S} {entry : Entry} {rest : Buffer}
    (hrest : rest.length = d.buffer.length) (hread : 0 < rest.offset) (hlen : 0 < d.buffer.length)
    (hd : (d.complete entry rest).Leaves d') : d'.measure < d.measure := by
  unfold complete at hd
  split at hd
  · exact hd.elim
  · dsimp only at hd
    split at hd
    · subst hd
      simp only [measure, Buffer.length_discard]
      omega
    · split at hd
      · subst hd
        simp only [measure, Buffer.length_discard]
        omega
      · subst hd
        simp only [measure, Buffer.length_discard]
        omega

theorem measure_step {d d' : Decoder S} (hd : d.step.Leaves d') : d'.measure < d.measure := by
  unfold step at hd
  split at hd
  · split at hd
    · split at hd <;> exact hd.elim
    · next s hs =>
      split at hd
      · next hrun => exact measure_enter hs (Reader.length_run hrun).1 hd
      · exact hd.elim
      · exact hd.elim
  · split at hd
    · next hrun =>
      have hread := Reader.offset_run_lt (Layout.reads_entry _ _ _) hrun
      exact measure_complete (Reader.length_run hrun).1 (by omega) (by omega) hd
    · exact hd.elim
    · exact hd.elim

/-! ## Decoding -/

/-- Ends decoding with an error. -/
def fail (d : Decoder S) (e : DecodeError) : Except DecodeError Finding × Decoder S :=
  (.error e, { d with outcome := some (.error e) })

/-- Decodes up to the next element to show, the end of the buffered bytes, or the end of the
transaction. -/
def next (d : Decoder S) : Except DecodeError Finding × Decoder S :=
  match d.outcome with
  | some (.error e) => (.error e, d)
  | some (.ok hash) => (.ok (.finished hash), d)
  | none =>
    match _h : d.step with
    | .hidden d' => next d'
    | .shows e d' => (.ok (.element e), d')
    | .ends hash d' => (.ok (.finished hash), { d' with outcome := some (.ok hash) })
    | .waits =>
      let d' := { d with buffer := d.buffer.rewind }
      if d'.buffer.isFull then d'.fail .bufferExhausted else (.ok .needsMore, d')
    | .fails e => d.fail e
termination_by d.measure
decreasing_by exact measure_step (by rw [_h]; rfl)

/-- Between two elements the bound gets smaller. -/
theorem measure_next {d d' : Decoder S} {e : Element} (hd : d.next = (.ok (.element e), d')) :
    d'.measure < d.measure := by
  fun_induction next d with
  | case1 => cases hd
  | case2 => cases hd
  | case3 d _ d₁ h ih => exact Nat.lt_trans (ih hd) (measure_step (by rw [h]; rfl))
  | case4 d _ e₁ d₁ h =>
    cases hd
    exact measure_step (by rw [h]; rfl)
  | case5 => cases hd
  | case6 => cases hd
  | case7 => cases hd
  | case8 => cases hd

end Decoder

end Countersign
