import Countersign.Proofs.Numbers
import Countersign.Txn.Parse

/-!
# What readers accept

A reader works its way through bytes from the front, so its answer depends on nothing behind the
bytes it has asked for. Two things follow from that:

* a value that is complete, or refused, stays so when more bytes come, and bytes that are too few
  are still too few when some are taken away;
* `r.Accepts w a`, the bytes `w` being all of the value `a` and nothing else, says everything about
  a reader that succeeds: it has found such a `w` at the front.

The rules `accepts_done` to `accepts_byte` take `Accepts` through the parts that readers are made
of, so that the bytes an element may have can be read off its reader.
-/

namespace Countersign.Reader

variable {α β : Type}

/-! ## More bytes -/

/-- A byte string that begins with a block is read from behind the block. -/
theorem parse_take {n : Nat} (next : Block n → Reader α) (x : Block n) (bs : Bytes) :
    (take n next).parse (x.bytes ++ bs) = (next x).parse bs := by
  have hlen : n ≤ (x.bytes ++ bs).length := by simp
  have hfront : (x.bytes ++ bs).take n = x.bytes := by simp
  have hback : (x.bytes ++ bs).drop n = bs := by simp
  have hblock : (⟨(x.bytes ++ bs).take n, by simp⟩ : Block n) = x := Block.ext hfront
  rw [parse, dif_pos hlen, hblock, hback]

/-- A byte string that is long enough begins with a block. -/
theorem exists_block {n : Nat} {bs : Bytes} (h : n ≤ bs.length) :
    ∃ (x : Block n) (rest : Bytes), bs = x.bytes ++ rest :=
  ⟨⟨bs.take n, by simp [h]⟩, bs.drop n, by simp⟩

/-- A value that is complete stays so. -/
theorem parse_append_of_complete {r : Reader α} {bs rest : Bytes} {a : α}
    (h : r.parse bs = .complete a rest) (more : Bytes) :
    r.parse (bs ++ more) = .complete a (rest ++ more) := by
  -- the reader asks for the same blocks, whatever is behind them
  induction r generalizing bs with
  | done a' =>
    cases h
    rfl
  | refuse e => cases h
  | take n next ih =>
    by_cases hlen : n ≤ bs.length
    · obtain ⟨x, bs, rfl⟩ := exists_block hlen
      rw [parse_take] at h
      rw [List.append_assoc, parse_take]
      exact ih x h
    · rw [parse, dif_neg hlen] at h
      cases h

/-- Bytes that are refused stay so. -/
theorem parse_append_of_refused {r : Reader α} {bs : Bytes} {e : DecodeError}
    (h : r.parse bs = .refused e) (more : Bytes) : r.parse (bs ++ more) = .refused e := by
  induction r generalizing bs with
  | done a => cases h
  | refuse e' =>
    cases h
    rfl
  | take n next ih =>
    by_cases hlen : n ≤ bs.length
    · obtain ⟨x, bs, rfl⟩ := exists_block hlen
      rw [parse_take] at h
      rw [List.append_assoc, parse_take]
      exact ih x h
    · rw [parse, dif_neg hlen] at h
      cases h

/-- Bytes that are too few are so when there are even fewer. -/
theorem parse_short_of_append {r : Reader α} {bs more : Bytes}
    (h : r.parse (bs ++ more) = .short) : r.parse bs = .short := by
  rcases hparse : r.parse bs with ⟨a, v⟩ | _ | e
  · rw [parse_append_of_complete hparse more] at h
    cases h
  · rfl
  · rw [parse_append_of_refused hparse more] at h
    cases h

/-! ## Accepted bytes -/

/-- The bytes are all of one value, and this is the value. -/
def Accepts (r : Reader α) (w : Bytes) (a : α) : Prop := r.parse w = .complete a []

theorem accepts_done {a b : α} {w : Bytes} : (done a).Accepts w b ↔ w = [] ∧ b = a := by
  simp only [Accepts, parse, Outcome.complete.injEq]
  apply Iff.intro
  · intro h
    exact ⟨h.2, h.1.symm⟩
  · intro h
    exact ⟨h.2.symm, h.1⟩

theorem not_accepts_refuse {e : DecodeError} {w : Bytes} {a : α} : ¬ (refuse e).Accepts w a := by
  intro h
  cases h

theorem accepts_take {n : Nat} {next : Block n → Reader α} {w : Bytes} {a : α} :
    (take n next).Accepts w a ↔ ∃ (x : Block n) (v : Bytes), w = x.bytes ++ v ∧
      (next x).Accepts v a := by
  apply Iff.intro
  · intro h
    by_cases hlen : n ≤ w.length
    · obtain ⟨x, v, rfl⟩ := exists_block hlen
      refine ⟨x, v, rfl, ?_⟩
      rwa [Accepts, parse_take] at h
    · rw [Accepts, parse, dif_neg hlen] at h
      cases h
  · intro h
    obtain ⟨x, v, rfl, h⟩ := h
    rw [Accepts, parse_take]
    exact h

/-- A reader that succeeds has found a whole value at the front, and the rest is behind it. -/
theorem parse_eq_complete_iff {r : Reader α} {bs rest : Bytes} {a : α} :
    r.parse bs = .complete a rest ↔ ∃ w, bs = w ++ rest ∧ r.Accepts w a := by
  apply Iff.intro
  · intro h
    -- the value is the blocks that have been asked for
    induction r generalizing bs with
    | done a' =>
      cases h
      exact ⟨[], rfl, rfl⟩
    | refuse e => cases h
    | take n next ih =>
      by_cases hlen : n ≤ bs.length
      · obtain ⟨x, bs, rfl⟩ := exists_block hlen
        rw [parse_take] at h
        obtain ⟨w, rfl, hw⟩ := ih x h
        exact ⟨x.bytes ++ w, by simp, accepts_take.2 ⟨x, w, rfl, hw⟩⟩
      · rw [parse, dif_neg hlen] at h
        cases h
  · intro h
    obtain ⟨w, rfl, hw⟩ := h
    exact parse_append_of_complete hw rest

/-- A byte string has no more than one value at its front. -/
theorem eq_of_accepts {r : Reader α} {w w' v v' : Bytes} {a a' : α} (hw : r.Accepts w a)
    (hw' : r.Accepts w' a') (h : w ++ v = w' ++ v') : w = w' ∧ a = a' := by
  have hparse := parse_append_of_complete hw v
  rw [h, parse_append_of_complete hw' v'] at hparse
  simp only [List.nil_append, Outcome.complete.injEq] at hparse
  obtain ⟨rfl, rfl⟩ := hparse
  exact ⟨List.append_cancel_right h, rfl⟩

/-- Fewer bytes than all of a value are too few. -/
theorem parse_short_of_lt {r : Reader α} {w v : Bytes} {a : α} (hw : r.Accepts w a)
    (hv : v <+: w) (hlt : v.length < w.length) : r.parse v = .short := by
  obtain ⟨u, rfl⟩ := hv
  rcases hparse : r.parse v with ⟨a', x⟩ | _ | e
  · -- the value would be complete earlier
    obtain ⟨w', rfl, hw'⟩ := parse_eq_complete_iff.1 hparse
    have hsplit : (w' ++ x ++ u) ++ [] = w' ++ (x ++ u) := by simp
    have heq := congrArg List.length (eq_of_accepts hw hw' hsplit).1
    simp only [List.length_append] at heq hlt
    omega
  · rfl
  · have hrefused := parse_append_of_refused hparse u
    rw [hw] at hrefused
    cases hrefused

theorem bind_eq (r : Reader α) (f : α → Reader β) : (r >>= f) = r.bind f := rfl

/-- Two readers one after the other accept what the first accepts and then what the second does. -/
theorem accepts_bind {r : Reader α} {f : α → Reader β} {w : Bytes} {b : β} :
    (r >>= f).Accepts w b ↔ ∃ a u v, w = u ++ v ∧ r.Accepts u a ∧ (f a).Accepts v b := by
  rw [bind_eq]
  induction r generalizing w with
  | done a =>
    simp only [bind, accepts_done]
    apply Iff.intro
    · intro h
      exact ⟨a, [], w, rfl, ⟨rfl, rfl⟩, h⟩
    · intro h
      obtain ⟨_, _, v, rfl, ⟨rfl, rfl⟩, h⟩ := h
      exact h
  | refuse e =>
    apply Iff.intro
    · intro h
      exact (not_accepts_refuse h).elim
    · intro h
      obtain ⟨_, _, _, -, h, -⟩ := h
      exact (not_accepts_refuse h).elim
  | take n next ih =>
    -- the block in front belongs to what the first reader accepts
    simp only [bind, accepts_take]
    apply Iff.intro
    · intro h
      obtain ⟨x, v, rfl, h⟩ := h
      obtain ⟨a, u, v, rfl, hu, hv⟩ := (ih x).1 h
      exact ⟨a, x.bytes ++ u, v, by simp, ⟨x, u, rfl, hu⟩, hv⟩
    · intro h
      obtain ⟨a, _, v, rfl, ⟨x, u, rfl, hu⟩, hv⟩ := h
      exact ⟨x, u ++ v, by simp, (ih x).2 ⟨a, u, v, rfl, hu, hv⟩⟩

/-- A value seen through a function has the bytes of the value. -/
theorem accepts_bind_done {r : Reader α} {f : α → β} {w : Bytes} {b : β} :
    (r >>= fun a => done (f a)).Accepts w b ↔ ∃ a, r.Accepts w a ∧ b = f a := by
  rw [accepts_bind]
  apply Iff.intro
  · intro h
    obtain ⟨a, u, v, rfl, hu, hv⟩ := h
    obtain ⟨rfl, rfl⟩ := accepts_done.1 hv
    exact ⟨a, by rwa [List.append_nil], rfl⟩
  · intro h
    obtain ⟨a, hw, rfl⟩ := h
    exact ⟨a, w, [], by simp, hw, accepts_done.2 ⟨rfl, rfl⟩⟩

theorem accepts_map {r : Reader α} {f : α → β} {w : Bytes} {b : β} :
    (f <$> r).Accepts w b ↔ ∃ a, r.Accepts w a ∧ b = f a := accepts_bind_done

theorem parse_map (f : α → β) (r : Reader α) (bs : Bytes) :
    (f <$> r).parse bs = match r.parse bs with
      | .complete a rest => .complete (f a) rest
      | .short => .short
      | .refused e => .refused e := by
  induction r generalizing bs with
  | done a => rfl
  | refuse e => rfl
  | take n next ih =>
    by_cases hlen : n ≤ bs.length
    · obtain ⟨x, bs, rfl⟩ := exists_block hlen
      rw [parse_take]
      exact (parse_take _ x bs).trans (ih x bs)
    · rw [parse, dif_neg hlen]
      exact dif_neg hlen

/-- A reader that needs at least one byte accepts no empty byte string. -/
theorem length_pos_of_accepts {r : Reader α} (hr : r.Reads) {w : Bytes} {a : α}
    (h : r.Accepts w a) : 0 < w.length := by
  induction r generalizing w with
  | done a' => exact hr.elim
  | refuse e => exact (not_accepts_refuse h).elim
  | take n next ih =>
    obtain ⟨x, v, rfl, hv⟩ := accepts_take.1 h
    rw [List.length_append, x.length_bytes]
    -- either this block has a byte, or a later one has
    rcases hr with hn | hnext
    · omega
    · have hpos : 0 < v.length := ih x (hnext x) hv
      omega

/-! ## Single reads -/

theorem accepts_block {n : Nat} {w : Bytes} {x : Block n} :
    (block n).Accepts w x ↔ w = x.bytes := by
  simp only [block, accepts_take, accepts_done]
  apply Iff.intro
  · intro h
    obtain ⟨y, v, rfl, rfl, rfl⟩ := h
    simp
  · intro h
    exact ⟨x, [], by simp [h], rfl, rfl⟩

theorem accepts_skip {n : Nat} {w : Bytes} : (skip n).Accepts w () ↔ w.length = n := by
  simp only [skip, accepts_take, accepts_done]
  apply Iff.intro
  · intro h
    obtain ⟨x, v, rfl, rfl, -⟩ := h
    simp
  · intro h
    exact ⟨⟨w, h⟩, [], by simp, rfl, trivial⟩

theorem accepts_word {w : Bytes} {n : UInt64} : word.Accepts w n ↔ w = bytesOfWord n := by
  simp only [word, accepts_take, accepts_done]
  apply Iff.intro
  · intro h
    obtain ⟨x, v, rfl, rfl, rfl⟩ := h
    rw [bytesOfWord_wordOfBytes x.length_bytes, List.append_nil]
  · intro h
    exact ⟨⟨bytesOfWord n, by simp⟩, [], by simp [h], rfl, by simp⟩

theorem accepts_byte {w : Bytes} {v : UInt8} : byte.Accepts w v ↔ w = [v] := by
  simp only [byte, accepts_take, accepts_done]
  apply Iff.intro
  · intro h
    obtain ⟨⟨bs, hbs⟩, v, rfl, rfl, rfl⟩ := h
    obtain ⟨b, rfl⟩ := List.length_eq_one_iff.1 hbs
    simp [ofLittleEndian]
  · intro h
    exact ⟨⟨[v], rfl⟩, [], by simp [h], rfl, by simp [ofLittleEndian]⟩

end Countersign.Reader
