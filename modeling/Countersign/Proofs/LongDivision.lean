import Countersign.Proofs.Amounts

/-!
# Long division by ten

A division by ten goes through the limbs from the most significant one down. `dividends` is what it
divides on the way: each limb, below what remains of the limbs above it. Every limb has its turn
(`map_low_dividends`), and the quotients are the limbs of the result (`quotients_divideByTen`).

What remains is below ten at the start, since nothing has been divided yet, and after each turn
(`divideWide_eq`), so it is below ten whenever a limb is divided (`high_lt_of_mem`). That is all it
takes for a quotient to fit one word (`Dividend.quotient_eq`).
-/

namespace Countersign.Currency

/-- Two words that are divided by ten, one above the other. -/
structure Dividend where
  high : UInt64
  low : UInt64
deriving DecidableEq

namespace Dividend

/-- The number that the two words denote. -/
def value (d : Dividend) : Nat := d.high.toNat * UInt64.size + d.low.toNat

/-- The quotient, as it is kept in one word. -/
def quotient (d : Dividend) : UInt64 := (divideWide d.high d.low).1

/-- What remains. -/
def remainder (d : Dividend) : UInt64 := (divideWide d.high d.low).2

theorem remainder_lt (d : Dividend) (h : d.high.toNat < 10) : d.remainder.toNat < 10 :=
  (divideWide_eq h d.low).2

/-- Below an upper word that is below ten, the quotient fits one word. -/
theorem quotient_lt (d : Dividend) (h : d.high.toNat < 10) : d.value / 10 < UInt64.size := by
  have hlow := d.low.toNat_lt
  simp only [value, UInt64.size]
  omega

/-- Below an upper word that is below ten, nothing of the quotient is cut. -/
theorem quotient_eq (d : Dividend) (h : d.high.toNat < 10) : d.quotient.toNat = d.value / 10 := by
  obtain ⟨hvalue, hrem⟩ := divideWide_eq h d.low
  simp only [quotient, value]
  omega

end Dividend

/-- What is divided in turn: the limbs from the most significant one down, each below what remains
of the limbs above it; this is `carry` for the first. -/
def dividends (carry : UInt64) : List UInt64 → List Dividend
  | [] => []
  | w :: ws => ⟨carry, w⟩ :: dividends (Dividend.remainder ⟨carry, w⟩) ws

/-- What remains when the limbs have been divided. -/
def remainderOf (carry : UInt64) (ws : List UInt64) : UInt64 :=
  ws.foldl (fun carry w => Dividend.remainder ⟨carry, w⟩) carry

/-! ## The turns of a division -/

/-- Every limb has its turn. -/
theorem map_low_dividends (carry : UInt64) (ws : List UInt64) :
    (dividends carry ws).map Dividend.low = ws := by
  induction ws generalizing carry with
  | nil => rfl
  | cons w ws ih => rw [dividends, List.map_cons, ih]

/-- The last limb is divided below what remains of all others. -/
theorem dividends_concat (carry : UInt64) (ws : List UInt64) (w : UInt64) :
    dividends carry (ws ++ [w]) = dividends carry ws ++ [⟨remainderOf carry ws, w⟩] := by
  induction ws generalizing carry with
  | nil => rfl
  | cons w' ws ih =>
    rw [List.cons_append, dividends, ih, dividends, List.cons_append]
    rfl

theorem remainderOf_concat (carry : UInt64) (ws : List UInt64) (w : UInt64) :
    remainderOf carry (ws ++ [w]) = Dividend.remainder ⟨remainderOf carry ws, w⟩ :=
  List.foldl_append

/-- What is carried from turn to turn stays below ten. -/
theorem high_lt_of_mem {carry : UInt64} (hcarry : carry.toNat < 10) {ws : List UInt64}
    {d : Dividend} (hd : d ∈ dividends carry ws) : d.high.toNat < 10 := by
  induction ws generalizing carry with
  | nil => exact (List.not_mem_nil hd).elim
  | cons w ws ih =>
    rcases List.mem_cons.1 hd with rfl | hd
    · exact hcarry
    · exact ih (Dividend.remainder_lt ⟨carry, w⟩ hcarry) hd

/-! ## The division of limbs -/

theorem remainder_divideByTen (ws : List UInt64) :
    (divideByTen ws).2 = remainderOf 0 ws.reverse := by
  induction ws with
  | nil => rfl
  | cons w ws ih =>
    rw [List.reverse_cons, remainderOf_concat, ← ih]
    rfl

/-- The limbs of the result are the quotients, of which the first is the most significant one. -/
theorem quotients_divideByTen (ws : List UInt64) :
    (divideByTen ws).1 = ((dividends 0 ws.reverse).map Dividend.quotient).reverse := by
  induction ws with
  | nil => rfl
  | cons w ws ih =>
    rw [List.reverse_cons, dividends_concat, List.map_append, List.reverse_append, ← ih,
      ← remainder_divideByTen]
    rfl

theorem high_lt (ws : List UInt64) {d : Dividend} (hd : d ∈ dividends 0 ws) : d.high.toNat < 10 :=
  high_lt_of_mem (by decide) hd

/-- Nothing of a quotient is cut. -/
theorem toNat_quotients_divideByTen (ws : List UInt64) :
    (divideByTen ws).1.map UInt64.toNat =
      ((dividends 0 ws.reverse).map fun d => d.value / 10).reverse := by
  have hquotients : (dividends 0 ws.reverse).map (fun d => d.quotient.toNat) =
      (dividends 0 ws.reverse).map fun d => d.value / 10 :=
    List.map_congr_left fun d hd => d.quotient_eq (high_lt _ hd)
  rw [quotients_divideByTen, List.map_reverse, List.map_map, ← hquotients]
  rfl

/-- No limb is lost. -/
theorem length_divideByTen (ws : List UInt64) : (divideByTen ws).1.length = ws.length := by
  have hlow := congrArg List.length (map_low_dividends 0 ws.reverse)
  rw [List.length_map, List.length_reverse] at hlow
  rw [quotients_divideByTen, List.length_reverse, List.length_map, hlow]

/-- Limbs of any number are divided by ten exactly: they denote ten times what the limbs of the
quotient denote and the remainder, which is below ten. Whenever a limb is divided, from the most
significant one down, the word above it is below ten and the quotient fits one word; so every limb
has its turn, and the limbs of the result are the quotients with nothing cut off, one for each. -/
theorem divideByTen_exact (ws : List UInt64) :
    (valueOfLimbs ws = 10 * valueOfLimbs (divideByTen ws).1 + (divideByTen ws).2.toNat ∧
      (divideByTen ws).2.toNat < 10) ∧
    (∀ d ∈ dividends 0 ws.reverse, d.high.toNat < 10 ∧ d.value / 10 < UInt64.size) ∧
    (dividends 0 ws.reverse).map Dividend.low = ws.reverse ∧
    (divideByTen ws).1.map UInt64.toNat =
      ((dividends 0 ws.reverse).map fun d => d.value / 10).reverse ∧
    (divideByTen ws).1.length = ws.length := by
  refine ⟨valueOfLimbs_divideByTen ws, fun d hd => ?_, map_low_dividends 0 ws.reverse,
    toNat_quotients_divideByTen ws, length_divideByTen ws⟩
  have hhigh := high_lt _ hd
  exact ⟨hhigh, d.quotient_lt hhigh⟩

end Countersign.Currency
