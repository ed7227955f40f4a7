import Countersign.Proofs.Coherence
import Countersign.Proofs.FixedPoint
import Countersign.Proofs.Numbering
import Mathlib.Logic.Relation

/-!
# What is listed, on every stream

Whatever the bytes are, and however a decoder is driven, the elements that it has shown up to now
are a listing (`IsListing`): outputs in siacoins, then outputs in siafunds, then fees, each with its
number among those of its kind, with a decimal numeral for its value, and with an address that is
not the change address unless it is a fee.

The order comes from the sections, which are gone through in one direction only (`GoesTo`), and the
numbers from `Numbered`. A review takes its elements from a decoder and holds 64 of them at most, so
no number is at its end there, and no two of its elements have the same label (`listed_in_order`).
-/

namespace Countersign

/-! ## Listings -/

/-- The place of a kind in the order of review. -/
def PaymentKind.rank (kind : PaymentKind) : Nat := PaymentKind.all.idxOf kind

/-- The elements are what the user is to see of a transaction, or of the beginning of one, whose
outputs to this address are hidden. -/
structure IsListing (change : Option Address) (es : List Element) : Prop where
  /-- Outputs in siacoins come first, then those in siafunds, then the fees. -/
  order : PaymentKind.all.flatMap (fun kind => es.filter fun e => e.kind = kind) = es
  /-- Those of a kind are numbered from 1 on, and no number goes past 65535. -/
  numbers : ∀ kind k e, (es.filter fun e => e.kind = kind)[k]? = some e →
    e.index.toNat = min (k + 1) 65535
  /-- The values are decimal numerals. -/
  values : ∀ e ∈ es, (∃ n, IsNumeral e.value.toList n) ∧ e.value.length ≤ 44
  /-- Outputs have an address, and not that of the change. -/
  outputs : ∀ e ∈ es, e.kind ≠ .minerFee → ∃ a, e.address = some a ∧ change ≠ some a
  /-- Fees have none. -/
  fees : ∀ e ∈ es, e.kind = .minerFee → e.address = none

theorem filter_kind_eq_nil {kind : PaymentKind} {es : List Element}
    (h : ∀ e ∈ es, kind.rank < e.kind.rank) : es.filter (fun e => e.kind = kind) = [] := by
  refine List.filter_eq_nil_iff.2 fun e he hkind => ?_
  have hrank := h e he
  rw [of_decide_eq_true hkind] at hrank
  omega

/-- Elements that are sorted by rank fall into their kinds. -/
theorem order_of_sorted {es : List Element}
    (h : es.Pairwise fun e f => e.kind.rank ≤ f.kind.rank) :
    PaymentKind.all.flatMap (fun kind => es.filter fun e => e.kind = kind) = es := by
  induction es with
  | nil => rfl
  | cons e es ih =>
    obtain ⟨hfirst, hrest⟩ := List.pairwise_cons.1 h
    have hes := ih hrest
    simp only [PaymentKind.all, List.flatMap_cons, List.flatMap_nil, List.append_nil,
      List.filter_cons] at hes ⊢
    -- no element behind this one has a kind of lower rank
    rcases hkind : e.kind
    · simpa using hes
    · rw [hkind] at hfirst
      have hsc : es.filter (fun f => f.kind = .siacoinOutput) = [] :=
        filter_kind_eq_nil fun f hf => Nat.lt_of_lt_of_le (by decide) (hfirst f hf)
      rw [hsc] at hes ⊢
      simpa using hes
    · rw [hkind] at hfirst
      have hsc : es.filter (fun f => f.kind = .siacoinOutput) = [] :=
        filter_kind_eq_nil fun f hf => Nat.lt_of_lt_of_le (by decide) (hfirst f hf)
      have hsf : es.filter (fun f => f.kind = .siafundOutput) = [] :=
        filter_kind_eq_nil fun f hf => Nat.lt_of_lt_of_le (by decide) (hfirst f hf)
      rw [hsc, hsf] at hes ⊢
      simpa using hes

/-! ## Numbers and labels -/

/-- The numbers of a kind are consecutive. -/
theorem index_of_getElem? {before ps : List Payment} {kind : PaymentKind} {k : Nat} {e : Element}
    (h : ((numberedFrom before ps).filter fun e => e.kind = kind)[k]? = some e) :
    e.index.toNat = min (before.countP (fun q => q.kind = kind) + k + 1) 65535 := by
  induction ps generalizing before k with
  | nil => cases h
  | cons p ps ih =>
    rw [numberedFrom, List.filter_cons] at h
    by_cases hkind : p.kind = kind
    · rw [if_pos (by simpa using hkind)] at h
      rcases k with _ | k
      · cases h
        rw [toNat_min, hkind, Nat.add_zero]
      · have hindex := ih h
        rw [List.countP_append, List.countP_singleton, if_pos (by simpa using hkind)] at hindex
        rw [hindex]
        omega
    · rw [if_neg (by simpa using hkind)] at h
      have hindex := ih h
      rw [List.countP_append, List.countP_singleton, if_neg (by simpa using hkind),
        Nat.add_zero] at hindex
      exact hindex

/-- As long as numbers do not reach their end, those that come later are larger. -/
theorem lt_index_of_mem {before ps : List Payment} (h : before.length + ps.length ≤ 65535)
    {e : Element} (he : e ∈ numberedFrom before ps) :
    before.countP (fun q => q.kind = e.kind) < e.index.toNat := by
  induction ps generalizing before with
  | nil => cases he
  | cons p ps ih =>
    rw [List.length_cons] at h
    rcases List.mem_cons.1 he with rfl | he
    · have hcount := List.countP_le_length (p := fun q : Payment => q.kind = p.kind) (l := before)
      show before.countP (fun q => q.kind = p.kind) < (UInt16.ofNat _).toNat
      rw [toNat_min]
      omega
    · have hlater := ih (by rw [List.length_append, List.length_singleton]; omega) he
      rw [List.countP_append] at hlater
      omega

/-- As long as numbers do not reach their end, no two elements have the same kind and number. -/
theorem nodup_numberedFrom {before ps : List Payment} (h : before.length + ps.length ≤ 65535) :
    ((numberedFrom before ps).map fun e => (e.kind, e.index)).Nodup := by
  induction ps generalizing before with
  | nil => exact List.nodup_nil
  | cons p ps ih =>
    have hbehind : (before ++ [p]).length + ps.length ≤ 65535 := by
      rw [List.length_append, List.length_singleton]
      rw [List.length_cons] at h
      omega
    rw [numberedFrom, List.map_cons, List.nodup_cons]
    refine ⟨fun hmem => ?_, ih hbehind⟩
    obtain ⟨e, he, hsame⟩ := List.mem_map.1 hmem
    obtain ⟨hkind, hindex⟩ : e.kind = p.kind ∧
        e.index = UInt16.ofNat (min (before.countP (fun q => q.kind = p.kind) + 1) 65535) :=
      Prod.mk.inj hsame
    have hlater := lt_index_of_mem hbehind he
    rw [hindex, hkind, toNat_min, List.countP_append, List.countP_singleton,
      if_pos (decide_eq_true rfl)] at hlater
    omega

theorem numeral_inj {m n : Nat} (h : numeral m = numeral n) : m = n := by
  rw [← (isNumeral_numeral m).value, h, (isNumeral_numeral n).value]

namespace Element

/-- There is room for the kind and for every number. -/
theorem label_eq (e : Element) :
    e.label = String.ofList (e.kind.name.toList ++ " #".toList ++ numeral e.index.toNat) := by
  have hnumber : (numeral e.index.toNat).length ≤ 5 :=
    length_numeral_le (by decide) (Nat.lt_of_lt_of_le e.index.toNat_lt (by decide))
  have hname : Currency.width (e.kind.name.toList ++ " #".toList) = 11 := by
    cases e.kind <;> decide
  rw [label, if_pos]
  rw [Currency.width_append, hname, Currency.width_digits (isNumeral_numeral _).digits, maxLabel]
  omega

/-- A label tells the kind and the number. -/
theorem label_inj {e f : Element} (h : e.label = f.label) :
    e.kind = f.kind ∧ e.index = f.index := by
  have hname : ∀ kind : PaymentKind, (kind.name.toList ++ " #".toList).length = 11 := by
    intro kind
    cases kind <;> decide
  rw [label_eq, label_eq] at h
  obtain ⟨hkind, hindex⟩ := List.append_inj (String.ofList_injective h)
    ((hname e.kind).trans (hname f.kind).symm)
  refine ⟨?_, UInt16.toNat_inj.1 (numeral_inj hindex)⟩
  revert hkind
  cases e.kind <;> cases f.kind <;> decide

end Element

/-- Elements with different kinds or numbers have different labels. -/
theorem nodup_labels {es : List Element} (h : (es.map fun e => (e.kind, e.index)).Nodup) :
    (es.map Element.label).Nodup := by
  refine List.pairwise_map.2 ((List.pairwise_map.1 h).imp fun hne hlabel => hne ?_)
  obtain ⟨hkind, hindex⟩ := Element.label_inj hlabel
  rw [hkind, hindex]

/-! ## Sections in order -/

/-- A payment as transactions make it: of an amount, and to an address unless it is a fee. -/
structure Payment.IsMade (p : Payment) : Prop where
  value : ∃ a : Amount, p.value = a.digits
  address : p.address = none ↔ p.kind = .minerFee

namespace Layout

/-- How a payment of some kind is read. -/
def payment : PaymentKind → Reader Entry
  | .siacoinOutput => siacoinOutput
  | .siafundOutput => siafundOutput
  | .minerFee => minerFee

theorem isMade_of_accepts {kind : PaymentKind} {w : Bytes} {e : Entry}
    (h : (payment kind).Accepts w e) : ∀ p, e.payment = some p → p.IsMade := by
  intro p hp
  cases kind with
  | siacoinOutput =>
    obtain ⟨o, -, rfl⟩ := accepts_siacoinOutput.1 h
    cases hp
    exact ⟨⟨o.value, rfl⟩, ⟨nofun, nofun⟩⟩
  | siafundOutput =>
    obtain ⟨o, -, rfl⟩ := accepts_siafundOutput.1 h
    cases hp
    exact ⟨⟨o.value, rfl⟩, ⟨nofun, nofun⟩⟩
  | minerFee =>
    obtain ⟨a, -, rfl⟩ := accepts_minerFee.1 h
    cases hp
    exact ⟨⟨a, rfl⟩, ⟨fun _ => rfl, fun _ => rfl⟩⟩

variable {S : Type} [Layout S]

/-- From the first place the second is reached by going on to the next section, any number of
times. -/
def GoesTo (s t : S) : Prop := Relation.ReflTransGen (fun s t => next? s = some t) s t

/-- A format whose sections pay in the order of review, and pay nothing but outputs and fees. -/
class Ordered (S : Type) [Layout S] [Paying S] : Prop where
  entry_eq : ∀ {s : S} {kind : PaymentKind}, Paying.kind? s = some kind →
    ∀ i k, Layout.entry i s k = payment kind
  rank_le : ∀ {s t : S} {j k : PaymentKind}, Paying.kind? s = some j → Paying.kind? t = some k →
    Layout.depth t ≤ Layout.depth s → j.rank ≤ k.rank

instance : Ordered V1.Section where
  entry_eq := by
    intro s kind h i k
    cases s <;> cases h <;> rfl
  rank_le := by
    intro s t j k hs ht
    cases s <;> cases hs <;> cases t <;> cases ht <;> decide

instance : Ordered V2.Section where
  entry_eq := by
    intro s kind h i k
    cases s <;> cases h <;> rfl
  rank_le := by
    intro s t j k hs ht
    cases s <;> cases hs <;> cases t <;> cases ht <;> decide

theorem yields_isMade [Paying S] [Ordered S] (i : UInt16) (s : S) (k : UInt64) :
    (Layout.entry i s k).Yields fun e => ∀ p, e.payment = some p → p.IsMade := by
  refine Reader.yields_of_forall_accepts fun w e hw p hp => ?_
  rcases hkind : Paying.kind? s with _ | kind
  · -- the section pays nothing
    have hnone := (Reader.yields_of_accepts (Paying.yields_entry i s k) hw p hp).1
    rw [hkind] at hnone
    cases hnone
  · rw [Ordered.entry_eq hkind] at hw
    exact isMade_of_accepts hw p hp

end Layout

/-! ## Decoders -/

namespace Decoder

variable {S : Type} [Layout S] {d : Decoder S} {es : List Element}

theorem invariant_place (s : S) : Invariant fun d _ => Layout.GoesTo s d.place where
  step hsteps h := by
    cases hsteps with
    | enters _ hnext _ _ => exact Relation.ReflTransGen.tail h hnext
    | passes => exact h
    | shows => exact h
    | ends => exact h
    | waits => exact trivial
    | fails => exact trivial
  frame h _ _ := h

/-- No call goes back to an earlier section. -/
theorem goesTo_observe (d : Decoder S) (cs : List Call) :
    Layout.GoesTo d.place (d.observe cs).2.place :=
  @Invariant.observe S _ _ d [] (invariant_place d.place) .refl cs

theorem invariant_change (change : Option Address) :
    Invariant fun (d : Decoder S) _ => d.change = change where
  step hsteps h := by
    cases hsteps with
    | enters => exact h
    | passes => exact h
    | shows => exact h
    | ends => exact h
    | waits => exact trivial
    | fails => exact trivial
  frame h _ _ := h

/-- No call touches the change address. -/
theorem change_observe (d : Decoder S) (cs : List Call) : (d.observe cs).2.change = d.change :=
  @Invariant.observe S _ _ d [] (invariant_change d.change) rfl cs

variable [Paying S]

/-- The decoder has shown these elements, in their order and with their numbers. -/
structure Lists (d : Decoder S) (es : List Element) : Prop where
  numbered : Numbered d.place d.shown es
  sorted : es.Pairwise fun e f => e.kind.rank ≤ f.kind.rank
  made : ∀ e ∈ es, e.payment.IsMade
  shown : ∀ e ∈ es, ¬ d.Hides e.payment

theorem lists_new (sigIndex : UInt16) (change : Option Address) :
    (new sigIndex change : Decoder S).Lists [] :=
  ⟨numbered_start, .nil, nofun, nofun⟩

variable [Layout.Ordered S]

theorem invariant_lists : Invariant (Lists : Decoder S → List Element → Prop) where
  step {d es s} hsteps h := by
    have hnumbers := invariant_numbered.step hsteps h.numbered
    cases hsteps with
    | enters => exact ⟨hnumbers, h.sorted, h.made, h.shown⟩
    | passes => exact ⟨hnumbers, h.sorted, h.made, h.shown⟩
    | @shows entry rest transcript p _ hrun hpays hshown =>
      have hkind := (Reader.yields_of_run (Paying.yields_entry _ _ _) hrun p hpays).1
      have hmade := Reader.yields_of_run (Layout.yields_isMade _ _ _) hrun p hpays
      refine ⟨hnumbers, List.pairwise_append.2 ⟨h.sorted, List.pairwise_singleton _ _, ?_⟩,
        List.forall_mem_append.2 ⟨h.made, List.forall_mem_singleton.2 hmade⟩,
        List.forall_mem_append.2 ⟨h.shown, List.forall_mem_singleton.2 hshown⟩⟩
      -- those shown before come from this section or from sections ahead of it
      intro e he f hf
      obtain ⟨t, ht, hdepth⟩ := h.numbered.passed e he
      rw [List.mem_singleton.1 hf]
      exact Layout.Ordered.rank_le ht hkind hdepth
    | ends => exact ⟨hnumbers, h.sorted, h.made, h.shown⟩
    | waits => exact trivial
    | fails => exact trivial
  frame h _ _ := ⟨h.numbered, h.sorted, h.made, h.shown⟩

omit [Layout.Ordered S] in
/-- What a decoder lists is a listing. -/
theorem isListing_of_lists (h : d.Lists es) : IsListing d.change es where
  order := order_of_sorted h.sorted
  numbers kind k e hk := by
    rw [h.numbered.numbers, numberedAll] at hk
    rw [index_of_getElem? hk, List.countP_nil, Nat.zero_add]
  values e he := by
    obtain ⟨a, ha⟩ := (h.made e he).value
    have hvalue : e.value.toList = numeral a.value := by
      rw [show e.value = a.digits from ha, Amount.digits, String.toList_ofList]
    refine ⟨⟨a.value, isNumeral_iff.2 hvalue⟩, ?_⟩
    rw [← String.length_toList, hvalue]
    exact Currency.length_digits_le a
  outputs e he hkind := by
    rcases haddress : e.address with _ | a
    · exact absurd ((h.made e he).address.1 haddress) hkind
    · refine ⟨a, rfl, fun hchange => h.shown e he ⟨?_, ?_⟩⟩
      · rw [Element.payment, haddress]
        rfl
      · rw [Element.payment, haddress, hchange]
  fees e he hkind := (h.made e he).address.2 hkind

/-- The elements that have been shown after any calls are a listing. -/
theorem isListing_observe (sigIndex : UInt16) (change : Option Address) (cs : List Call) :
    IsListing change
      (elementsSeen ((new sigIndex change : Decoder S).observe cs).1) := by
  have hlisting := isListing_of_lists
    (invariant_lists.observe (lists_new (S := S) sigIndex change) cs)
  rw [change_observe] at hlisting
  exact hlisting

end Decoder

namespace AnyDecoder

/-- The address whose outputs are hidden. -/
def change : AnyDecoder → Option Address
  | v1 d => d.change
  | v2 d => d.change

/-- The decoder has shown these elements, in their order and with their numbers. -/
def Lists : AnyDecoder → List Element → Prop
  | v1 d, es => d.Lists es
  | v2 d, es => d.Lists es

variable {d d' : AnyDecoder} {es : List Element}

theorem lists_new (format : Format) (sigIndex : UInt16) (change : Option Address) :
    (new format sigIndex change).Lists [] := by
  cases format <;> exact Decoder.lists_new sigIndex change

theorem lists_next (h : d.Lists es) : d.next.2.Lists (es ++ Decoder.shownBy d.next.1) := by
  cases d <;> exact Decoder.invariant_lists.next h

theorem lists_push (h : d.Lists es) {chunk : Bytes} (hpush : d.push chunk = .ok d') :
    d'.Lists es := by
  cases d with
  | v1 d =>
    rw [push] at hpush
    rcases hd : d.push chunk with e | d₁ <;> rw [hd] at hpush <;> cases hpush
    exact Decoder.invariant_lists.push h hd
  | v2 d =>
    rw [push] at hpush
    rcases hd : d.push chunk with e | d₁ <;> rw [hd] at hpush <;> cases hpush
    exact Decoder.invariant_lists.push h hd

theorem isListing_of_lists (h : d.Lists es) : IsListing d.change es := by
  cases d <;> exact Decoder.isListing_of_lists h

/-- While numbers do not reach their end, no two elements have the same kind and number. -/
theorem nodup_of_lists (h : d.Lists es) (hlength : es.length ≤ 65535) :
    (es.map fun e => (e.kind, e.index)).Nodup := by
  have hnumbers : es = numberedAll (es.map Element.payment) := by
    cases d <;> exact h.numbered.numbers
  rw [hnumbers]
  exact nodup_numberedFrom (by simpa using hlength)

theorem isListing_observe (format : Format) (sigIndex : UInt16) (change : Option Address)
    (cs : List Call) :
    IsListing change (elementsSeen ((new format sigIndex change).observe cs).1) := by
  cases format <;> exact Decoder.isListing_observe sigIndex change cs

end AnyDecoder

/-! ## Reviews and sessions -/

namespace Review

variable {r r' : Review}

/-- A chunk that does not end the review adds what the decoder shows of it. -/
theorem lists_drain {done : Bool} (h : r.decoder.Lists r.elements)
    (hdrain : r.drain = (.ok done, r')) : r'.decoder.Lists r'.elements := by
  have hnext := AnyDecoder.lists_next h
  fun_induction drain r with
  | case1 r e decoder heq => cases hdrain
  | case2 r decoder heq =>
    rw [heq] at hnext
    cases hdrain
    simpa only [Decoder.shownBy, List.append_nil] using hnext
  | case3 r hash decoder heq =>
    rw [heq] at hnext
    cases hdrain
    simpa only [Decoder.shownBy, List.append_nil] using hnext
  | case4 r e decoder heq hroom ih =>
    rw [heq] at hnext
    exact ih hnext hdrain (AnyDecoder.lists_next hnext)
  | case5 r e decoder heq hfull => cases hdrain

theorem lists_push {done : Bool} {chunk : Bytes} (h : r.decoder.Lists r.elements)
    (hpush : r.push chunk = (.ok done, r')) : r'.decoder.Lists r'.elements := by
  unfold push at hpush
  split at hpush
  · cases hpush
  · next decoder hdecoder =>
    exact lists_drain (r := { r with decoder }) (AnyDecoder.lists_push h hdecoder) hpush

end Review

namespace Session

variable {s s' : Session} {r : Review}

/-- A review in the session has its elements from its decoder. -/
def Lists (s : Session) : Prop :=
  ∀ r, s.operation = .review r → r.decoder.Lists r.elements

theorem lists_finish (s : Session) (state : State) : (s.finish state).Lists := by
  intro r hr
  cases hr

theorem lists_delivers {flags : Flags} {data : Bytes} {answer : Except Refusal Reply}
    (h : s.Lists) (hr : r.decoder.Lists r.elements)
    (hdelivers : s.Delivers r flags data answer s') : s'.Lists := by
  cases hdelivers with
  | otherFlags => exact h
  | tooLong => exact h
  | completes hpush =>
    rintro _ ⟨⟩
    exact Review.lists_push hr hpush
  | continues hpush =>
    rintro _ ⟨⟩
    exact Review.lists_push hr hpush
  | fails => exact lists_finish s .error

theorem lists_moves {e : Event} {answer : Except Refusal Reply} (h : s.Lists)
    (hmoves : s.Moves e answer s') : s'.Lists := by
  cases hmoves with
  | @begun keyIndex sigIndex changeIndex flags data answer s' _ hdelivers =>
    have hnew :
        (Review.new keyIndex sigIndex (s.changeAddress changeIndex) flags).decoder.Lists [] :=
      AnyDecoder.lists_new _ _ _
    refine lists_delivers ?_ hnew hdelivers
    rintro _ ⟨⟩
    exact hnew
  | continued _ hreview hdelivers => exact lists_delivers h (h _ hreview) hdelivers
  | asked =>
    intro r hr
    cases hr
  | restarted => exact lists_finish s .error
  | _ => exact h

theorem lists_act (h : s.Lists) (a : Action) : (s.act a).2.Lists := by
  cases a with
  | event e => exact lists_moves h (s.moves_handle e)
  | approve =>
    show s.approve.2.Lists
    rw [approve]
    split
    · exact h
    · exact lists_finish s .complete
  | deny => exact lists_finish s .deny
  | reset => exact lists_finish s .init
  | lock => exact h
  | unlock => exact h

theorem lists_run (h : s.Lists) (actions : List Action) : (s.run actions).2.Lists := by
  induction actions generalizing s with
  | nil => exact h
  | cons a actions ih => exact ih (lists_act h a)

theorem lists_of_reachable {keys : KeySource} (h : Reachable keys s) : s.Lists := by
  obtain ⟨actions, rfl⟩ := h
  refine lists_run (s := new keys) ?_ actions
  intro r hr
  cases hr

/-- No two elements that a session holds have the same kind and number. -/
theorem nodup_elements {keys : KeySource} (h : Reachable keys s) :
    (s.elements.map fun e => (e.kind, e.index)).Nodup := by
  have hlists := lists_of_reachable h
  obtain ⟨actions, rfl⟩ := h
  have hagrees := agrees_run (agrees_new keys) actions
  rw [elements]
  rcases hoperation : ((new keys).run actions).2.operation with _ | r | _
  · exact List.nodup_nil
  · have hlength : r.elements.length ≤ 64 := length_elements_le hagrees hoperation
    exact AnyDecoder.nodup_of_lists (hlists r hoperation) (Nat.le_trans hlength (by decide))
  · exact List.nodup_nil

end Session

/-- Whatever bytes come in and whenever a decoder of either format is asked, its elements are a
listing, and its section stays or goes on to a later one. The elements that a signer holds are a
listing too, and no two of them have the same label. -/
theorem listed_in_order :
    (∀ format sigIndex change cs,
      IsListing change (elementsSeen ((AnyDecoder.new format sigIndex change).observe cs).1)) ∧
    (∀ (d : Decoder V1.Section) cs, Layout.GoesTo d.place (d.observe cs).2.place) ∧
    (∀ (d : Decoder V2.Section) cs, Layout.GoesTo d.place (d.observe cs).2.place) ∧
    ∀ keys s, Session.Reachable keys s →
      (∀ r, s.operation = .review r → IsListing r.decoder.change r.elements) ∧
      (s.elements.map fun e => (e.kind, e.index)).Nodup ∧ (s.elements.map Element.label).Nodup := by
  refine ⟨AnyDecoder.isListing_observe, Decoder.goesTo_observe, Decoder.goesTo_observe,
    fun keys s hs => ?_⟩
  have hnodup := Session.nodup_elements hs
  exact ⟨fun r hr => AnyDecoder.isListing_of_lists (Session.lists_of_reachable hs r hr), hnodup,
    nodup_labels hnodup⟩

/-- The elements of a transaction in two parts. -/
theorem listed_payOnce :
    Session.Reachable Session.oneKey ((Session.new Session.oneKey).run Session.payOnce).2 ∧
      ((Session.new Session.oneKey).run Session.payOnce).2.elements ≠ [] ∧
      (((Session.new Session.oneKey).run Session.payOnce).2.elements.map Element.label).Nodup := by
  have hreachable : Session.Reachable Session.oneKey
      ((Session.new Session.oneKey).run Session.payOnce).2 := ⟨Session.payOnce, rfl⟩
  exact ⟨hreachable, by decide +kernel, (listed_in_order.2.2.2 _ _ hreachable).2.2⟩

end Countersign
