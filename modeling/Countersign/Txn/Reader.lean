import Countersign.Txn.Buffer

/-!
# Readers

A reader describes how an element is read, apart from where its bytes come from: it is done, or it
refuses what it has seen, or it asks for the next `n` bytes and goes on from them. A count on the
wire may be as large as 2^64 − 1; the reader of that many parts is never built, since each part is
only described once the bytes of the one before it have been seen.

`run` reads from a buffer. A run that meets too little data is `short`, and the buffer it started
from is as good as before.
-/

namespace Countersign

/-- A description of how to read an `α`. -/
inductive Reader (α : Type) where
  /-- The value is complete. -/
  | done (a : α)
  /-- The bytes read so far cannot belong to a valid element. -/
  | refuse (e : DecodeError)
  /-- The next `n` bytes decide how to go on. -/
  | take (n : Nat) (next : Block n → Reader α)

namespace Reader

variable {α β : Type}

/-- Reads with the first reader and goes on with the one chosen by its value. -/
def bind : Reader α → (α → Reader β) → Reader β
  | done a, f => f a
  | refuse e, _ => refuse e
  | take n next, f => take n fun x => (next x).bind f

instance : Monad Reader where
  pure := done
  bind := bind

/-! ## Single reads -/

/-- Reads `n` bytes. -/
def block (n : Nat) : Reader (Block n) := take n done

/-- Reads one byte. -/
def byte : Reader UInt8 := take 1 fun x => done (UInt8.ofNat (ofLittleEndian x.bytes))

/-- Reads a number of eight bytes, least significant byte first. -/
def word : Reader UInt64 := take 8 fun x => done (wordOfBytes x.bytes)

/-- Passes over `n` bytes. -/
def skip (n : Nat) : Reader Unit := take n fun _ => done ()

/-- Reads the same thing `n` times and keeps nothing of it. -/
def times (n : Nat) (r : Reader Unit) : Reader Unit :=
  match n with
  | 0 => done ()
  | n + 1 => r.bind fun _ => times n r

/-! ## Running a reader -/

/-- What a reader makes of the bytes there are. -/
inductive Outcome (σ α : Type) where
  /-- The value, and what is left to read from. -/
  | complete (a : α) (rest : σ)
  /-- More bytes are needed. -/
  | short
  /-- The bytes are refused, whatever follows. -/
  | refused (e : DecodeError)

/-- Reads from a buffer. -/
def run : Reader α → Buffer → Outcome Buffer α
  | done a, b => .complete a b
  | refuse e, _ => .refused e
  | take n next, b =>
    match b.take n with
    | none => .short
    | some (x, rest) => (next x).run rest

/-! ## Readers that need at least one byte -/

/-- The value is not complete before some byte has been read. -/
def Reads : Reader α → Prop
  | done _ => False
  | refuse _ => True
  | take n next => 0 < n ∨ ∀ x, (next x).Reads

/-- A run keeps the buffered bytes and never moves the offset back. -/
theorem length_run {r : Reader α} {b b' : Buffer} {a : α} (h : r.run b = .complete a b') :
    b'.length = b.length ∧ b.offset ≤ b'.offset := by
  induction r generalizing b with
  | done a' =>
    cases h
    exact ⟨rfl, Nat.le_refl _⟩
  | refuse e => cases h
  | take n next ih =>
    simp only [run] at h
    split at h
    · cases h
    · next x rest hx =>
      have hstep := Buffer.length_take hx
      have hrest := ih x h
      omega

/-- A reader that needs at least one byte moves the offset, and not past the end. -/
theorem offset_run_lt {r : Reader α} (hr : r.Reads) {b b' : Buffer} {a : α}
    (h : r.run b = .complete a b') : b.offset < b'.offset ∧ b.offset < b.length := by
  induction r generalizing b with
  | done a' => exact hr.elim
  | refuse e => cases h
  | take n next ih =>
    simp only [run] at h
    split at h
    · cases h
    · next x rest hx =>
      have hstep := Buffer.length_take hx
      have hrest := length_run h
      simp only [Buffer.unreadLength] at hstep
      rcases Nat.eq_zero_or_pos n with hn | hn
      · have hx' := ih x ((hr.resolve_left (by omega)) x) h
        omega
      · omega

end Reader

end Countersign
