import Countersign.Txn.Queue
import Countersign.Txn.Reader

/-!
# Reading from a byte string

A reader that is handed all the bytes there are, without a buffer. `map_unread_run` says that a
run on a buffer is a reading of its unread bytes, so what holds of byte strings holds of buffers.
-/

namespace Countersign.Reader

variable {α σ τ : Type}

/-- Reads from the front of a byte string. -/
def parse : Reader α → Bytes → Outcome Bytes α
  | done a, bs => .complete a bs
  | refuse e, _ => .refused e
  | take n next, bs =>
    if h : n ≤ bs.length then (next ⟨bs.take n, List.length_take_of_le h⟩).parse (bs.drop n)
    else .short

/-- The same outcome, with what is left seen through a function. -/
def Outcome.map (f : σ → τ) : Outcome σ α → Outcome τ α
  | .complete a rest => .complete a (f rest)
  | .short => .short
  | .refused e => .refused e

theorem unread_take {b b' : Buffer} {n : Nat} {x : Block n} (h : b.take n = some (x, b')) :
    b.unread = x.bytes ++ b'.unread := by
  obtain ⟨hunread, hbytes, rfl⟩ := Buffer.eq_of_take h
  have hcount : b.unreadLength = n + (b.unreadLength - n) := by omega
  have hleft : ({ b with offset := b.offset + n } : Buffer).unreadLength =
      b.unreadLength - n := by
    simp only [Buffer.unreadLength]
    omega
  conv => lhs; rw [Buffer.unread, hcount, Buffer.slice_add]
  rw [hbytes, Buffer.unread, hleft]
  rfl

theorem take_eq_none {b : Buffer} {n : Nat} (h : b.take n = none) : b.unread.length < n := by
  unfold Buffer.take at h
  split at h
  · next hunread => simpa [Buffer.unread] using hunread
  · cases h

/-- A run on a buffer reads its unread bytes. -/
theorem map_unread_run (r : Reader α) (b : Buffer) :
    (r.run b).map Buffer.unread = r.parse b.unread := by
  induction r generalizing b with
  | done a => rfl
  | refuse e => rfl
  | take n next ih =>
    simp only [run, parse]
    split
    · next h =>
      have hlen := take_eq_none h
      rw [dif_neg (by omega)]
      rfl
    · next x rest h =>
      have hbytes := unread_take h
      have hlen : n ≤ b.unread.length := by simp [hbytes]
      rw [dif_pos hlen, ih]
      have hfront : b.unread.take n = x.bytes := by simp [hbytes]
      have hback : b.unread.drop n = rest.unread := by simp [hbytes]
      have hblock : (⟨b.unread.take n, by simp [hlen]⟩ : Block n) = x := Block.ext hfront
      rw [hblock, hback]

end Countersign.Reader
