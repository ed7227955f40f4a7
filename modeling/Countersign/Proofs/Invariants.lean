import Countersign.Txn.Turn

/-!
# What steps keep

A step of a decoder goes on to a section, takes an entry and shows what it pays or does not, or ends
the request. `Steps` lists these cases once, with what is left behind in each, and `steps_step` says
that there are no others.

An `Invariant` is so of a decoder and of the elements that it has shown. That a step keeps it is
shown by the cases of `Steps`; that requests, calls, turns and whole schedules keep it follows here
for all invariants alike.
-/

namespace Countersign.Decoder

variable {S : Type} [Layout S]

/-! ## What a step can come to -/

/-- The payment is hidden from the user: it goes to the change address. -/
def Hides (d : Decoder S) (p : Payment) : Prop := p.address.isSome ∧ p.address = d.change

/-- What a step can come to. -/
inductive Steps (d : Decoder S) : Step S → Prop where
  /-- The header of the next section is read. -/
  | enters {s : S} {header : Header} {rest : Buffer} {transcript : Transcript}
      (hend : d.index = d.count) (hnext : Layout.next? d.place = some s)
      (hrun : (Layout.header d.sigIndex s).run d.buffer = .complete header rest)
      (hrecord : d.transcript.record rest.readBytes header.cover = .ok transcript) :
    Steps d (.hidden { d with
      buffer := rest.discard, transcript, place := s, count := header.count, index := 0,
      shown := 0 })
  /-- An entry is read that pays nothing, or the change address. -/
  | passes {entry : Entry} {rest : Buffer} {transcript : Transcript} (hleft : d.index ≠ d.count)
      (hrun : (Layout.entry d.sigIndex d.place d.index).run d.buffer = .complete entry rest)
      (hpays : ∀ p, entry.payment = some p → d.Hides p) :
    Steps d (.hidden { d with buffer := rest.discard, transcript, index := d.index + 1 })
  /-- An entry is read, and the user gets to see what it pays. -/
  | shows {entry : Entry} {rest : Buffer} {transcript : Transcript} {p : Payment}
      (hleft : d.index ≠ d.count)
      (hrun : (Layout.entry d.sigIndex d.place d.index).run d.buffer = .complete entry rest)
      (hpays : entry.payment = some p) (hshown : ¬ d.Hides p) :
    Steps d (.shows (p.numbered (number d.shown)) { d with
      buffer := rest.discard, transcript, index := d.index + 1, shown := number d.shown })
  /-- There is no section left. -/
  | ends {hash : Digest} {transcript : Transcript} (hend : d.index = d.count)
      (hnext : Layout.next? d.place = none)
      (hclose : d.transcript.close = .ok (hash, transcript)) :
    Steps d (.ends hash { d with transcript })
  /-- A header or an entry is not complete. -/
  | waits : Steps d .waits
  /-- A header or an entry is refused, or the transcript is. -/
  | fails (e : DecodeError) : Steps d (.fails e)

/-- Nothing else comes of a step. -/
theorem steps_step (d : Decoder S) : d.Steps d.step := by
  unfold step
  split
  · next hend =>
    split
    · next hnext =>
      split
      · exact .fails _
      · next hclose => exact .ends hend hnext hclose
    · next s hnext =>
      split
      · next header rest hrun =>
        unfold enter
        split
        · exact .fails _
        · next hrecord => exact .enters hend hnext hrun hrecord
      · exact .waits
      · exact .fails _
  · next hleft =>
    split
    · next entry rest hrun =>
      unfold complete
      split
      · exact .fails _
      · dsimp only
        split
        · next hnone => exact .passes hleft hrun (by rw [hnone]; nofun)
        · next p hpays =>
          split
          · next hhides =>
            refine .passes hleft hrun fun q hq => ?_
            rw [hpays] at hq
            cases hq
            exact hhides
          · next hshown => exact .shows hleft hrun hpays hshown
    · exact .waits
    · exact .fails _

/-! ## Invariants -/

/-- The elements that a finding adds. -/
def shownBy : Except DecodeError Finding → List Element
  | .ok (.element e) => [e]
  | _ => []

/-- What is so of a decoder and the elements it has shown is so after the step. -/
def Step.Keeps (P : Decoder S → List Element → Prop) (es : List Element) : Step S → Prop
  | .hidden d => P d es
  | .shows e d => P d (es ++ [e])
  | .ends _ d => P d es
  | .waits | .fails _ => True

/-- A property of decoders and of the elements that they have shown. Steps keep it, and it is about
neither the bytes that wait nor the way in which decoding has ended. -/
structure Invariant (P : Decoder S → List Element → Prop) : Prop where
  step : ∀ {d : Decoder S} {es : List Element} {s : Step S}, d.Steps s → P d es → s.Keeps P es
  frame : ∀ {d : Decoder S} {es : List Element}, P d es →
    ∀ buffer outcome, P { d with buffer, outcome } es

namespace Invariant

variable {P : Decoder S → List Element → Prop} {d : Decoder S} {es : List Element}

omit [Layout S] in
theorem append_nil (h : P d es) : P d (es ++ []) := by
  rw [List.append_nil]
  exact h

/-- A request keeps it. -/
theorem next (hP : Invariant P) (h : P d es) : P d.next.2 (es ++ shownBy d.next.1) := by
  have hstep := hP.step (steps_step d) h
  -- only the step that is answered with an element adds one
  fun_induction Decoder.next d with
  | case1 d e _ => exact append_nil h
  | case2 d hash _ => exact append_nil h
  | case3 d _ d' heq ih =>
    rw [heq] at hstep
    exact ih hstep (hP.step (steps_step d') hstep)
  | case4 d _ e d' heq =>
    rw [heq] at hstep
    exact hstep
  | case5 d _ hash d' heq =>
    rw [heq] at hstep
    exact append_nil (hP.frame hstep d'.buffer (some (.ok hash)))
  | case6 d _ _ d' _ =>
    exact append_nil (hP.frame h d.buffer.rewind (some (.error .bufferExhausted)))
  | case7 d _ _ d' _ => exact append_nil (hP.frame h d.buffer.rewind d.outcome)
  | case8 d _ e _ => exact append_nil (hP.frame h d.buffer (some (.error e)))

/-- A chunk keeps it. -/
theorem push {d' : Decoder S} (hP : Invariant P) (h : P d es) {chunk : Bytes}
    (hpush : d.push chunk = .ok d') : P d' es := by
  unfold Decoder.push at hpush
  split at hpush
  · cases hpush
  · cases hpush
  · -- a chunk changes the buffer alone
    rcases hbuffer : d.buffer.push chunk with e | b
    · rw [hbuffer] at hpush
      cases hpush
    · rw [hbuffer] at hpush
      rw [← Except.ok.inj hpush]
      exact hP.frame h b d.outcome

/-- A call keeps it. -/
theorem call (hP : Invariant P) (h : P d es) (c : Call) :
    P (d.call c).2 (es ++ elementsSeen [(d.call c).1]) := by
  rcases c with chunk | _
  · rw [Decoder.call]
    split
    · next hpush => exact append_nil (hP.push h hpush)
    · exact append_nil h
  · have hnext := hP.next h
    rw [Decoder.call]
    rcases hfound : d.next with ⟨_ | _ | e | _, d'⟩ <;> rw [hfound] at hnext <;> exact hnext

/-- A schedule keeps it. -/
theorem observe (hP : Invariant P) (h : P d es) (cs : List Call) :
    P (d.observe cs).2 (es ++ elementsSeen (d.observe cs).1) := by
  induction cs generalizing d es with
  | nil => exact append_nil h
  | cons c cs ih =>
    have hrest := ih (hP.call h c)
    rw [List.append_assoc, elementsSeen, elementsSeen, ← List.filterMap_append] at hrest
    exact hrest

/-- Asking for elements until there are no more of them keeps it. -/
theorem drain (hP : Invariant P) (h : P d es) : P d.drain.2.2 (es ++ d.drain.1) := by
  have hnext := hP.next h
  fun_induction Decoder.drain d generalizing es with
  | case1 d e d' hfound es' r d'' hdrain ih =>
    rw [hfound] at hnext
    have hrest := ih hnext (hP.next hnext)
    rw [hdrain, List.append_assoc] at hrest
    exact hrest
  | case2 d r d' hother hfound =>
    rw [hfound] at hnext
    rcases r with _ | _ | e | _
    · exact hnext
    · exact hnext
    · exact (hother e rfl).elim
    · exact hnext

/-- A turn keeps it. -/
theorem turn (hP : Invariant P) (h : P d es) (t : Turn) :
    P (d.turn t).2.2 (es ++ (d.turn t).1) := by
  rcases t with chunk | _
  · rw [Decoder.turn, Decoder.call]
    split
    · next hpush => exact append_nil (hP.push h hpush)
    · exact append_nil h
  · exact hP.drain h

end Invariant

end Countersign.Decoder
