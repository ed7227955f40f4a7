import Countersign.Proofs.Invariants
import Countersign.Proofs.Sections

/-!
# The numbers of what is shown

Each kind of payment has one section, so the counter of shown elements, which begins anew with each
section, counts those of one kind. The invariant `Numbered` says so of the elements shown up to now;
it is kept by each step of a decoder (`numbers_of_steps`), and so by turns of any kind
(`numbered_play`), whatever the bytes are.
-/

namespace Countersign

/-! ## What readers can come to -/

namespace Reader

variable {α β : Type} {Q : α → Prop}

/-- All values that a reader can come to have a property. -/
def Yields (Q : α → Prop) : Reader α → Prop
  | done a => Q a
  | refuse _ => True
  | take _ next => ∀ x, (next x).Yields Q

theorem yields_bind {r : Reader β} {f : β → Reader α} (h : ∀ b, (f b).Yields Q) :
    (r >>= f).Yields Q := by
  rw [bind_eq]
  induction r with
  | done b => exact h b
  | refuse e => exact trivial
  | take n next ih => exact fun x => ih x

theorem yields_of_run {r : Reader α} (hr : r.Yields Q) {b rest : Buffer} {a : α}
    (h : r.run b = .complete a rest) : Q a := by
  induction r generalizing b with
  | done a' =>
    cases h
    exact hr
  | refuse e => cases h
  | take n next ih =>
    unfold run at h
    split at h
    · cases h
    · next x b' _ => exact ih x (hr x) h

theorem yields_of_accepts {r : Reader α} (hr : r.Yields Q) {w : Bytes} {a : α}
    (h : r.Accepts w a) : Q a := by
  induction r generalizing w with
  | done a' =>
    rw [(accepts_done.1 h).2]
    exact hr
  | refuse e => exact (not_accepts_refuse h).elim
  | take n next ih =>
    obtain ⟨x, v, -, hv⟩ := accepts_take.1 h
    exact ih x (hr x) hv

/-- What a reader comes to is what it accepts. -/
theorem yields_of_forall_accepts {r : Reader α} (h : ∀ w a, r.Accepts w a → Q a) : r.Yields Q := by
  induction r with
  | done a => exact h [] a (accepts_done.2 ⟨rfl, rfl⟩)
  | refuse e => exact trivial
  | take n next ih =>
    exact fun x => ih x fun w a hw => h (x.bytes ++ w) a (accepts_take.2 ⟨x, w, rfl, hw⟩)

end Reader

/-! ## What sections pay -/

/-- An entry pays nothing, or a payment of this kind, which has no address if it is a fee. -/
def Entry.PaysAs (kind : Option PaymentKind) (e : Entry) : Prop :=
  ∀ p, e.payment = some p → kind = some p.kind ∧ (p.kind = .minerFee → p.address = none)

/-- A format in which every kind of payment has a section of its own. -/
class Paying (S : Type) [Layout S] where
  /-- What is paid in a section. -/
  kind? : S → Option PaymentKind
  yields_entry : ∀ (i : UInt16) (s : S) (k : UInt64),
    (Layout.entry i s k).Yields (Entry.PaysAs (kind? s))
  kind?_inj : ∀ {s t : S} {k : PaymentKind}, kind? s = some k → kind? t = some k → s = t

namespace Layout

theorem yields_siacoinOutput : siacoinOutput.Yields (Entry.PaysAs (some .siacoinOutput)) := by
  refine Reader.yields_bind fun value => Reader.yields_bind fun address => ?_
  intro p hp
  cases hp
  exact ⟨rfl, nofun⟩

theorem yields_siafundOutput : siafundOutput.Yields (Entry.PaysAs (some .siafundOutput)) := by
  refine Reader.yields_bind fun value => Reader.yields_bind fun address =>
    Reader.yields_bind fun _ => ?_
  intro p hp
  cases hp
  exact ⟨rfl, nofun⟩

theorem yields_minerFee : minerFee.Yields (Entry.PaysAs (some .minerFee)) := by
  refine Reader.yields_bind fun value => ?_
  intro p hp
  cases hp
  exact ⟨rfl, fun _ => rfl⟩

end Layout

namespace V1

/-- What is paid in a section. -/
def Section.kind? : Section → Option PaymentKind
  | .siacoinOutputs => some .siacoinOutput
  | .siafundOutputs => some .siafundOutput
  | .minerFees => some .minerFee
  | _ => none

theorem yields_siacoinInput : siacoinInput.Yields (Entry.PaysAs none) :=
  Reader.yields_bind fun _ => Reader.yields_bind fun _ => nofun

theorem yields_siafundInput : siafundInput.Yields (Entry.PaysAs none) :=
  Reader.yields_bind fun _ => Reader.yields_bind fun _ => Reader.yields_bind fun _ => nofun

theorem yields_signature (sigIndex : UInt16) (k : UInt64) :
    (signature sigIndex k).Yields (Entry.PaysAs none) :=
  Reader.yields_bind fun _ => Reader.yields_bind fun _ => Reader.yields_bind fun _ =>
    Reader.yields_bind fun _ => Reader.yields_bind fun _ => nofun

instance : Paying Section where
  kind? := Section.kind?
  yields_entry i s k :=
    match s with
    | .siacoinInputs => yields_siacoinInput
    | .siacoinOutputs => Layout.yields_siacoinOutput
    | .siafundInputs => yields_siafundInput
    | .siafundOutputs => Layout.yields_siafundOutput
    | .minerFees => Layout.yields_minerFee
    | .signatures => yields_signature i k
    | .start | .fileContracts | .fileContractRevisions | .storageProofs | .arbitraryData => trivial
  kind?_inj := by
    intro s t k hs ht
    cases s <;> cases hs <;> cases t <;> cases ht <;> rfl

end V1

namespace V2

/-- What is paid in a section. -/
def Section.kind? : Section → Option PaymentKind
  | .siacoinOutputs => some .siacoinOutput
  | .siafundOutputs => some .siafundOutput
  | .minerFee => some .minerFee
  | _ => none

theorem yields_input : input.Yields (Entry.PaysAs none) := Reader.yields_bind fun _ => nofun

theorem yields_attestation : attestation.Yields (Entry.PaysAs none) :=
  Reader.yields_bind fun _ => Reader.yields_bind fun _ => Reader.yields_bind fun _ =>
    Reader.yields_bind fun _ => nofun

instance : Paying Section where
  kind? := Section.kind?
  yields_entry _ s _ :=
    match s with
    | .siacoinInputs | .siafundInputs => yields_input
    | .siacoinOutputs => Layout.yields_siacoinOutput
    | .siafundOutputs => Layout.yields_siafundOutput
    | .attestations => yields_attestation
    | .minerFee => Layout.yields_minerFee
    | .start | .fileContracts | .fileContractRevisions | .fileContractResolutions
    | .arbitraryData | .foundationAddress => trivial
  kind?_inj := by
    intro s t k hs ht
    cases s <;> cases hs <;> cases t <;> cases ht <;> rfl

end V2

/-! ## Numbers -/

theorem numberedFrom_append (before ps qs : List Payment) :
    numberedFrom before (ps ++ qs) = numberedFrom before ps ++ numberedFrom (before ++ ps) qs := by
  induction ps generalizing before with
  | nil => rw [List.nil_append, List.append_nil, numberedFrom, List.nil_append]
  | cons p ps ih =>
    rw [List.cons_append, numberedFrom, ih, numberedFrom, List.cons_append, List.append_assoc,
      List.singleton_append]

/-- A payment behind others has the number of those of its kind, and one more. -/
theorem numberedAll_concat (ps : List Payment) (p : Payment) :
    numberedAll (ps ++ [p]) = numberedAll ps ++
      [p.numbered (UInt16.ofNat (min (ps.countP (fun q => q.kind = p.kind) + 1) 65535))] :=
  numberedFrom_append [] ps [p]

section

variable {S : Type} [Layout S] [Paying S]

/-- The elements that have been shown when the counter of section `s` stands at `shown`. -/
structure Numbered (s : S) (shown : UInt16) (es : List Element) : Prop where
  /-- They have their numbers. -/
  numbers : es = numberedAll (es.map Element.payment)
  /-- The counter counts those of the section. -/
  counter : ∀ k, Paying.kind? s = some k →
    shown = UInt16.ofNat (min (es.countP fun e => e.kind = k) 65535)
  /-- They come from this section or from sections ahead of it. -/
  passed : ∀ e ∈ es, ∃ t : S, Paying.kind? t = some e.kind ∧ Layout.depth s ≤ Layout.depth t
  /-- Those that are fees have no address. -/
  fees : ∀ e ∈ es, e.kind = .minerFee → e.address = none

variable {s t : S} {shown : UInt16} {es : List Element}

/-- Ahead of the first section nothing has been shown. -/
theorem numbered_start : Numbered (Layout.start : S) 0 [] :=
  ⟨rfl, fun _ _ => rfl, nofun, nofun⟩

/-- The next section begins with no elements of its kind. -/
theorem numbered_enter (h : Numbered s shown es) (hnext : Layout.next? s = some t) :
    Numbered t 0 es := by
  have hdepth : Layout.depth t < Layout.depth s := Layout.depth_next hnext
  refine ⟨h.numbers, fun k hk => ?_, fun e he => ?_, h.fees⟩
  · -- an element of the kind would be of this very section, which is yet to come
    have hnone : (es.countP fun e => e.kind = k) = 0 := by
      refine List.countP_eq_zero.2 fun e he hkind => ?_
      obtain ⟨t', hpays, hpassed⟩ := h.passed e he
      rw [of_decide_eq_true hkind] at hpays
      rw [Paying.kind?_inj hpays hk] at hpassed
      omega
    rw [hnone]
    rfl
  · obtain ⟨t', hpays, hpassed⟩ := h.passed e he
    exact ⟨t', hpays, by omega⟩

/-- A payment of the section is shown with the next number. -/
theorem numbered_concat (h : Numbered s shown es) {p : Payment}
    (hkind : Paying.kind? s = some p.kind) (hfee : p.kind = .minerFee → p.address = none) :
    Numbered s (Decoder.number shown) (es ++ [p.numbered (Decoder.number shown)]) := by
  have hnumber : Decoder.number shown =
      UInt16.ofNat (min ((es.countP fun e => e.kind = p.kind) + 1) 65535) := by
    rw [h.counter p.kind hkind, number_min]
  have hcount : (es.map Element.payment).countP (fun q => q.kind = p.kind) =
      es.countP fun e => e.kind = p.kind := List.countP_map
  refine ⟨?_, fun k hk => ?_, fun e he => ?_, fun e he => ?_⟩
  · rw [List.map_append, List.map_singleton]
    show _ = numberedAll (es.map Element.payment ++ [p])
    rw [numberedAll_concat, ← h.numbers, hcount, hnumber]
  · obtain rfl : p.kind = k := Option.some.inj (hkind.symm.trans hk)
    rw [hnumber, List.countP_append, List.countP_singleton]
    simp only [Payment.numbered, decide_true, if_true]
  · rcases List.mem_append.1 he with he | he
    · exact h.passed e he
    · rw [List.mem_singleton.1 he]
      exact ⟨s, hkind, Nat.le_refl _⟩
  · rcases List.mem_append.1 he with he | he
    · exact h.fees e he
    · rw [List.mem_singleton.1 he]
      exact hfee

end

/-! ## Decoders -/

namespace Decoder

variable {S : Type} [Layout S] [Paying S] {d : Decoder S} {es : List Element}

/-- A step adds to the elements what it shows. -/
def Step.Numbers (es : List Element) : Step S → Prop
  | .hidden d => Numbered d.place d.shown es
  | .shows e d => Numbered d.place d.shown (es ++ [e])
  | .ends _ d => Numbered d.place d.shown es
  | .waits => True
  | .fails _ => True

theorem numbers_of_steps {s : Step S} (h : Numbered d.place d.shown es) (hsteps : d.Steps s) :
    s.Numbers es := by
  cases hsteps with
  | enters _ hnext _ _ => exact numbered_enter h hnext
  | passes => exact h
  | shows _ hrun hpays _ =>
    have hkind := Reader.yields_of_run (Paying.yields_entry _ _ _) hrun _ hpays
    exact numbered_concat h hkind.1 hkind.2
  | ends => exact h
  | waits => exact trivial
  | fails => exact trivial

theorem invariant_numbered : Invariant fun (d : Decoder S) es => Numbered d.place d.shown es where
  step {_ _ s} hsteps h := by
    have hnumbers := numbers_of_steps h hsteps
    cases s <;> exact hnumbers
  frame h _ _ := h

/-! ## Turns -/

/-- The elements that have been shown after some turns have their numbers, and fees no address. -/
theorem numbered_play (h : Numbered d.place d.shown es) (ts : List Turn) :
    es ++ (d.play ts).2 = numberedAll ((es ++ (d.play ts).2).map Element.payment) ∧
      ∀ e ∈ es ++ (d.play ts).2, e.kind = .minerFee → e.address = none := by
  induction ts generalizing d es with
  | nil =>
    rw [play, List.append_nil]
    exact ⟨h.numbers, h.fees⟩
  | cons t ts ih =>
    have hrest := ih (invariant_numbered.turn h t)
    rw [List.append_assoc] at hrest
    exact hrest

end Decoder

end Countersign
