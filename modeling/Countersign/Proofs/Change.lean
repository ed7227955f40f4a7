import Countersign.Proofs.Numbering

/-!
# Hiding change

A decoder that hides the outputs to an address and one that hides nothing are `Twins` when they
differ in that and in the counter of shown elements. Twins take the same steps, except that one of
them shows an output where the other does not (`twins_step`). So they stay twins when findings are
asked for until one is not an element (`twins_drain`), which is where they can be compared: between
two elements of one of them, the other may have gone on.

What the hiding decoder has shown are the payments of the other without those to the address. Both
have numbered what they have shown (`numbered_play`), and that gives the elements themselves.
-/

namespace Countersign

namespace Decoder

variable {S : Type} [Layout S] {a : Address} {d e : Decoder S}

/-! ## Steps -/

/-- The first decoder hides the outputs to the address, the second one hides nothing, and there is
no other difference but the counter of shown elements. -/
structure Twins (a : Address) (d e : Decoder S) : Prop where
  plain : e.change = none
  hides : ∃ shown, d = { e with change := some a, shown }

/-- Steps of twins that are the same, except that the second may show an output to the address. -/
inductive Step.Twins (a : Address) : Step S → Step S → Prop where
  | hidden {d e : Decoder S} (h : Decoder.Twins a d e) : Step.Twins a (.hidden d) (.hidden e)
  | change {d e : Decoder S} (h : Decoder.Twins a d e) {x : Element} (hx : x.address = some a) :
    Step.Twins a (.hidden d) (.shows x e)
  | shows {d e : Decoder S} (h : Decoder.Twins a d e) {x y : Element}
    (hpayment : y.payment = x.payment) (hx : x.address ≠ some a) :
    Step.Twins a (.shows y d) (.shows x e)
  | ends {d e : Decoder S} (h : Decoder.Twins a d e) (hash : Digest) :
    Step.Twins a (.ends hash d) (.ends hash e)
  | waits : Step.Twins a .waits .waits
  | fails (error : DecodeError) : Step.Twins a (.fails error) (.fails error)

theorem twins_new (sigIndex : UInt16) (a : Address) :
    Twins a (new sigIndex (some a) : Decoder S) (new sigIndex none) := ⟨rfl, 0, rfl⟩

omit [Layout S] in
theorem twins_enter (h : Twins a d e) (s : S) (header : Header) (rest : Buffer) :
    Step.Twins a (d.enter s header rest) (e.enter s header rest) := by
  obtain ⟨hplain, shown, rfl⟩ := h
  unfold enter
  dsimp only
  split
  · exact .fails _
  · exact .hidden ⟨hplain, 0, rfl⟩

omit [Layout S] in
theorem twins_complete (h : Twins a d e) (entry : Entry) (rest : Buffer) :
    Step.Twins a (d.complete entry rest) (e.complete entry rest) := by
  obtain ⟨hplain, shown, rfl⟩ := h
  unfold complete
  dsimp only
  split
  · exact .fails _
  · rcases hpayment : entry.payment with _ | p
    · exact .hidden ⟨hplain, shown, rfl⟩
    · have hshown : ¬ (p.address.isSome ∧ p.address = e.change) := by
        intro hp
        rw [hp.2, hplain] at hp
        cases hp.1
      dsimp only
      rw [if_neg hshown]
      by_cases hchange : p.address = some a
      · rw [if_pos ⟨by rw [hchange]; rfl, hchange⟩]
        refine .change ?_ ?_
        · exact ⟨hplain, shown, rfl⟩
        · exact hchange
      · rw [if_neg fun hp => hchange hp.2]
        refine .shows ?_ rfl ?_
        · exact ⟨hplain, number shown, rfl⟩
        · exact hchange

theorem twins_step (h : Twins a d e) : Step.Twins a d.step e.step := by
  -- what is read does not depend on what is hidden
  have henter := twins_enter h
  have hcomplete := twins_complete h
  obtain ⟨hplain, shown, rfl⟩ := h
  unfold step
  dsimp only
  split
  · split
    · split
      · exact .fails _
      · refine .ends ?_ _
        exact ⟨hplain, shown, rfl⟩
    · split
      · exact henter _ _ _
      · exact .waits
      · exact .fails _
  · split
    · exact hcomplete _ _
    · exact .waits
    · exact .fails _

/-! ## Answers -/

/-- The answer of a decoder that goes on is that of its step. -/
theorem next_of_step (hd : d.outcome = none) :
    d.next = match d.step with
      | .hidden d' => d'.next
      | .shows x d' => (.ok (.element x), d')
      | .ends hash d' => (.ok (.finished hash), { d' with outcome := some (.ok hash) })
      | .waits =>
        if d.buffer.rewind.isFull then { d with buffer := d.buffer.rewind }.fail .bufferExhausted
        else (.ok .needsMore, { d with buffer := d.buffer.rewind })
      | .fails error => d.fail error := by
  rw [next]
  split
  · next hended =>
    rw [hd] at hended
    cases hended
  · next hended =>
    rw [hd] at hended
    cases hended
  · split
    all_goals next hstep => rw [hstep]

/-- Decoders that answer alike can be asked further alike. -/
theorem drain_congr {d' : Decoder S} (h : d.next = d'.next) : d.drain = d'.drain := by
  rcases hnext : d'.next with ⟨r, d''⟩
  rw [hnext] at h
  rcases r with _ | _ | x | _
  · rw [drain_of_last h nofun, drain_of_last hnext nofun]
  · rw [drain_of_last h nofun, drain_of_last hnext nofun]
  · rw [drain_of_element h, drain_of_element hnext]
  · rw [drain_of_last h nofun, drain_of_last hnext nofun]

/-- Twins that are asked until they find something else than an element find the same and are twins
again, and the one has shown what the other has without the outputs to the address. -/
theorem twins_drain {d e : Decoder S} (h : Twins a d e) :
    d.drain.2.1 = e.drain.2.1 ∧ Twins a d.drain.2.2 e.drain.2.2 ∧
      d.drain.1.map Element.payment =
        (e.drain.1.filter fun x => x.address ≠ some a).map Element.payment := by
  have hstep := twins_step h
  have houtcome : d.outcome = e.outcome := by
    obtain ⟨-, shown, rfl⟩ := h
    rfl
  rcases hended : e.outcome with _ | r
  · have hd := next_of_step (houtcome.trans hended)
    have he := next_of_step hended
    generalize d.step = sd at hd hstep
    generalize hse : e.step = se at he hstep
    rcases hstep with htwins | ⟨htwins, hx⟩ | ⟨htwins, hpayment, hx⟩ | ⟨htwins, hash⟩ | _ | error
    · have hsmaller := measure_step (d := e) (by rw [hse]; rfl)
      rw [drain_congr hd, drain_congr he]
      exact twins_drain htwins
    · -- the output is hidden, and the first decoder goes on
      have hsmaller := measure_step (d := e) (by rw [hse]; rfl)
      rw [drain_congr hd, drain_of_element he, List.filter_cons_of_neg (by simpa using hx)]
      exact twins_drain htwins
    · have hsmaller := measure_step (d := e) (by rw [hse]; rfl)
      have hrest := twins_drain htwins
      rw [drain_of_element hd, drain_of_element he, List.filter_cons_of_pos (by simpa using hx),
        List.map_cons, List.map_cons, hpayment, hrest.2.2]
      exact ⟨hrest.1, hrest.2.1, rfl⟩
    · rw [drain_of_last hd nofun, drain_of_last he nofun]
      obtain ⟨hplain, shown, rfl⟩ := htwins
      exact ⟨rfl, ⟨hplain, shown, rfl⟩, rfl⟩
    · obtain ⟨hplain, shown, rfl⟩ := h
      dsimp only at hd he
      split at hd
      · next hfull =>
        rw [if_pos hfull] at he
        rw [drain_of_last hd nofun, drain_of_last he nofun]
        exact ⟨rfl, ⟨hplain, shown, rfl⟩, rfl⟩
      · next hroom =>
        rw [if_neg hroom] at he
        rw [drain_of_last hd nofun, drain_of_last he nofun]
        exact ⟨rfl, ⟨hplain, shown, rfl⟩, rfl⟩
    · rw [drain_of_last hd nofun, drain_of_last he nofun]
      obtain ⟨hplain, shown, rfl⟩ := h
      exact ⟨rfl, ⟨hplain, shown, rfl⟩, rfl⟩
  · have hd := next_of_outcome (houtcome.trans hended)
    have he := next_of_outcome hended
    have hlast : ∀ x, r.map Finding.finished ≠ .ok (.element x) := by
      rcases r with _ | _
      · exact nofun
      · exact nofun
    rw [drain_of_last hd hlast, drain_of_last he hlast]
    exact ⟨rfl, h, rfl⟩
termination_by e.measure

/-! ## Turns -/

omit [Layout S] in
/-- A chunk is taken by both of two twins or refused to both. -/
theorem twins_push (h : Twins a d e) (chunk : Bytes) :
    (∃ error, d.push chunk = .error error ∧ e.push chunk = .error error) ∨
      ∃ d' e', d.push chunk = .ok d' ∧ e.push chunk = .ok e' ∧ Twins a d' e' := by
  obtain ⟨hplain, shown, rfl⟩ := h
  unfold push
  dsimp only
  split
  · exact .inl ⟨_, rfl, rfl⟩
  · exact .inl ⟨_, rfl, rfl⟩
  · rcases e.buffer.push chunk with error | buffer
    · exact .inl ⟨error, rfl, rfl⟩
    · exact .inr ⟨_, _, rfl, rfl, hplain, shown, rfl⟩

theorem twins_turn (h : Twins a d e) (t : Turn) :
    (d.turn t).2.1 = (e.turn t).2.1 ∧ Twins a (d.turn t).2.2 (e.turn t).2.2 ∧
      (d.turn t).1.map Element.payment =
        ((e.turn t).1.filter fun x => x.address ≠ some a).map Element.payment := by
  rcases t with chunk | _
  · rw [turn, turn, call, call]
    rcases twins_push h chunk with ⟨error, hd, he⟩ | ⟨d', e', hd, he, htwins⟩
    · rw [hd, he]
      exact ⟨rfl, h, rfl⟩
    · rw [hd, he]
      exact ⟨rfl, htwins, rfl⟩
  · have hdrain := twins_drain h
    exact ⟨congrArg Sight.found hdrain.1, hdrain.2⟩

/-- Twins are seen alike in all turns, but for the outputs to the address. -/
theorem twins_play (h : Twins a d e) (ts : List Turn) :
    (d.play ts).1 = (e.play ts).1 ∧ (d.play ts).2.map Element.payment =
      ((e.play ts).2.filter fun x => x.address ≠ some a).map Element.payment := by
  induction ts generalizing d e with
  | nil => exact ⟨rfl, rfl⟩
  | cons t ts ih =>
    obtain ⟨hsight, htwins, hshown⟩ := twins_turn h t
    have hrest := ih htwins
    have hglance : (⟨(d.turn t).2.1, (d.turn t).2.2.place, (d.turn t).2.2.available⟩ : Glance S) =
        ⟨(e.turn t).2.1, (e.turn t).2.2.place, (e.turn t).2.2.available⟩ := by
      obtain ⟨-, shown, hsame⟩ := htwins
      rw [hsight, hsame]
      rfl
    apply And.intro
    · exact congrArg₂ List.cons hglance hrest.1
    · show ((d.turn t).1 ++ ((d.turn t).2.2.play ts).2).map Element.payment = _
      rw [List.map_append, hshown, hrest.2, ← List.map_append, ← List.filter_append]
      rfl

/-- A new decoder that hides the outputs to an address sees what one that hides nothing sees, and
shows the same elements but for these outputs, with the numbers that they have then. -/
theorem play_new [Paying S] (sigIndex : UInt16) (a : Address) (ts : List Turn) :
    ((new sigIndex (some a) : Decoder S).play ts).1 = ((new sigIndex none : Decoder S).play ts).1 ∧
      ((new sigIndex (some a) : Decoder S).play ts).2 =
        withoutChange a ((new sigIndex none : Decoder S).play ts).2 := by
  have hplay := twins_play (twins_new sigIndex a : Twins a (new sigIndex (some a) : Decoder S) _) ts
  have hstart : ∀ change, Numbered (new sigIndex change : Decoder S).place
      (new sigIndex change : Decoder S).shown [] := fun _ => numbered_start
  have hhiding := (numbered_play (hstart (some a)) ts).1
  have hfees := (numbered_play (hstart none) ts).2
  rw [List.nil_append] at hhiding hfees
  refine ⟨hplay.1, ?_⟩
  -- fees have no address, so all that is hidden is an output
  have hfilter : ((new sigIndex none : Decoder S).play ts).2.filter (fun x => x.address ≠ some a) =
      ((new sigIndex none : Decoder S).play ts).2.filter fun x => ¬ x.payment.IsChange a := by
    refine List.filter_congr fun x hx => ?_
    have hfee := hfees x hx
    refine decide_eq_decide.2 (not_congr ⟨fun haddress => ⟨?_, haddress⟩, fun h => h.2⟩)
    show x.kind = _ ∨ x.kind = _
    rcases hkind : x.kind with _ | _ | _
    · exact .inl rfl
    · exact .inr rfl
    · rw [hfee hkind] at haddress
      cases haddress
  rw [hhiding, hplay.2, hfilter, withoutChange]

end Decoder

/-- In either format, a decoder that hides the outputs to an address and one that hides nothing give
the same answer in every turn, and are in the same section with the same room after it; the elements
of the one are those of the other but for the outputs to the address, numbered anew. -/
theorem AnyDecoder.play_change (format : Format) (sigIndex : UInt16) (a : Address)
    (ts : List Turn) :
    ((AnyDecoder.new format sigIndex (some a)).play ts).1 =
        ((AnyDecoder.new format sigIndex none).play ts).1 ∧
      ((AnyDecoder.new format sigIndex (some a)).play ts).2 =
        withoutChange a ((AnyDecoder.new format sigIndex none).play ts).2 := by
  rcases format with _ | _
  · have hplay := Decoder.play_new (S := V1.Section) sigIndex a ts
    exact ⟨congrArg (List.map _) hplay.1, hplay.2⟩
  · have hplay := Decoder.play_new (S := V2.Section) sigIndex a ts
    exact ⟨congrArg (List.map _) hplay.1, hplay.2⟩

end Countersign
