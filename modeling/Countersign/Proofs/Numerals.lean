import Countersign.Numeral
import Mathlib.Algebra.Group.Nat.Defs
import Mathlib.Data.List.Basic
import Mathlib.Data.List.Induction

/-!
# Numerals

The numeral of a number is digits, denotes the number, and has no zero in front unless zero is all
there is (`isNumeral_numeral`). No other text has these properties (`isNumeral_iff`): the last
digit of a numeral is the remainder by ten, and the digits ahead of it are a numeral again.

`valueOfDigits_append` takes the value of a text apart at any place, which is what a point does.
-/

namespace Countersign

/-! ## Digits -/

theorem toNat_digitChar {v : Nat} (h : v < 10) : (digitChar v).toNat = 48 + v := by
  have hvalid : (48 + v).isValidChar := Or.inl (by omega)
  rw [digitChar, Char.ofNat, dif_pos hvalid]
  rfl

theorem isDigit_digitChar {v : Nat} (h : v < 10) : isDigit (digitChar v) = true := by
  simp only [isDigit, toNat_digitChar h, Bool.and_eq_true, decide_eq_true_eq]
  omega

theorem isDigit_iff {c : Char} : isDigit c = true ↔ 48 ≤ c.toNat ∧ c.toNat ≤ 57 := by
  simp only [isDigit, Bool.and_eq_true, decide_eq_true_eq]

/-- A digit is the one of its value. -/
theorem digitChar_of_isDigit {c : Char} (h : isDigit c = true) : digitChar (c.toNat - 48) = c := by
  have hc := isDigit_iff.1 h
  rw [digitChar, show 48 + (c.toNat - 48) = c.toNat by omega, Char.ofNat_toNat]

/-! ## Values -/

theorem valueOfDigits_concat (ds : List Char) (c : Char) :
    valueOfDigits (ds ++ [c]) = 10 * valueOfDigits ds + (c.toNat - 48) := by
  simp only [valueOfDigits, List.foldl_append, List.foldl_cons, List.foldl_nil]

theorem valueOfDigits_append (ds es : List Char) :
    valueOfDigits (ds ++ es) = valueOfDigits ds * 10 ^ es.length + valueOfDigits es := by
  induction es using List.reverseRecOn with
  | nil => simp [valueOfDigits]
  | append_singleton es c ih =>
    rw [← List.append_assoc, valueOfDigits_concat, ih, valueOfDigits_concat, List.length_append,
      List.length_singleton, Nat.pow_succ, Nat.mul_add, Nat.add_assoc, Nat.mul_left_comm,
      Nat.mul_comm 10]

theorem valueOfDigits_replicate_zero (n : Nat) : valueOfDigits (List.replicate n '0') = 0 := by
  induction n with
  | zero => rfl
  | succ n ih => rw [List.replicate_succ', valueOfDigits_concat, ih]; rfl

theorem valueOfDigits_lt {ds : List Char} (h : ds.all isDigit = true) :
    valueOfDigits ds < 10 ^ ds.length := by
  induction ds using List.reverseRecOn with
  | nil => decide
  | append_singleton ds c ih =>
    rw [List.all_append, Bool.and_eq_true, List.all_cons, Bool.and_eq_true] at h
    have hc := isDigit_iff.1 h.2.1
    have hds := ih h.1
    rw [valueOfDigits_concat, List.length_append, List.length_singleton, Nat.pow_succ]
    omega

/-! ## Numerals -/

/-- The text is the digits of the number, and a zero in front is all of it. -/
structure IsNumeral (ds : List Char) (n : Nat) : Prop where
  nonempty : ds ≠ []
  digits : ds.all isDigit = true
  lead : ds.head? = some '0' → ds = ['0']
  value : valueOfDigits ds = n

theorem numeral_of_lt {n : Nat} (h : n < 10) : numeral n = [digitChar n] := by
  rw [numeral, if_pos h]

theorem numeral_of_le {n : Nat} (h : 10 ≤ n) :
    numeral n = numeral (n / 10) ++ [digitChar (n % 10)] := by
  rw [numeral, if_neg (by omega)]

theorem isNumeral_numeral (n : Nat) : IsNumeral (numeral n) n := by
  fun_induction numeral n with
  | case1 n h =>
    refine ⟨List.cons_ne_nil _ _, ?_, ?_, ?_⟩
    · rw [List.all_cons, isDigit_digitChar h]
      rfl
    · intro hlead
      rw [Option.some.inj hlead]
    · rw [← List.nil_append [digitChar n], valueOfDigits_concat, toNat_digitChar h]
      simp [valueOfDigits]
  | case2 n h ih =>
    have hlast : n % 10 < 10 := Nat.mod_lt _ (by decide)
    refine ⟨by simp, ?_, ?_, ?_⟩
    · rw [List.all_append, ih.digits, List.all_cons, isDigit_digitChar hlast]
      rfl
    · -- the digits in front are those of a positive number
      rw [List.head?_append_of_ne_nil _ ih.nonempty]
      intro hlead
      have hvalue := ih.value
      rw [ih.lead hlead] at hvalue
      have hzero : n / 10 = 0 := hvalue.symm
      omega
    · rw [valueOfDigits_concat, ih.value, toNat_digitChar hlast]
      omega

/-- A text with these properties is the numeral of its number. -/
theorem IsNumeral.eq_numeral {ds : List Char} {n : Nat} (h : IsNumeral ds n) : ds = numeral n := by
  induction ds using List.reverseRecOn generalizing n with
  | nil => exact absurd rfl h.nonempty
  | append_singleton ds c ih =>
    have hdigits := h.digits
    rw [List.all_append, Bool.and_eq_true, List.all_cons, Bool.and_eq_true] at hdigits
    have hc := isDigit_iff.1 hdigits.2.1
    have hvalue := h.value
    rw [valueOfDigits_concat] at hvalue
    have hlast : c = digitChar (n % 10) := by
      rw [← digitChar_of_isDigit hdigits.2.1, show c.toNat - 48 = n % 10 by omega]
    have hquot : valueOfDigits ds = n / 10 := by omega
    rcases eq_or_ne ds [] with rfl | hne
    · have hn : n < 10 := by
        rw [show valueOfDigits [] = 0 from rfl] at hvalue
        omega
      rw [numeral_of_lt hn, hlast, Nat.mod_eq_of_lt hn, List.nil_append]
    · -- more than one digit, so the first of them is not zero
      have hlead : ds.head? ≠ some '0' := by
        intro hzero
        have hone := congrArg List.length
          (h.lead (by rw [List.head?_append_of_ne_nil _ hne, hzero]))
        rw [List.length_append, List.length_singleton, List.length_singleton] at hone
        exact hne (List.length_eq_zero_iff.1 (by omega))
      have hfront : ds = numeral (n / 10) :=
        ih ⟨hne, hdigits.1, fun hzero => absurd hzero hlead, hquot⟩
      have hn : 10 ≤ n := by
        refine Nat.le_of_not_lt fun hlt => hlead ?_
        rw [hfront, Nat.div_eq_of_lt hlt, numeral_of_lt (by decide)]
        rfl
      rw [numeral_of_le hn, ← hfront, hlast]

/-- Every number has one numeral. -/
theorem isNumeral_iff {ds : List Char} {n : Nat} : IsNumeral ds n ↔ ds = numeral n := by
  refine ⟨IsNumeral.eq_numeral, fun h => ?_⟩
  rw [h]
  exact isNumeral_numeral n

/-- A number below a power of ten has at most so many digits. -/
theorem length_numeral_le {k n : Nat} (hk : 0 < k) (h : n < 10 ^ k) : (numeral n).length ≤ k := by
  induction k generalizing n with
  | zero => omega
  | succ k ih =>
    rcases Nat.lt_or_ge n 10 with hn | hn
    · rw [numeral_of_lt hn, List.length_singleton]
      omega
    · rw [Nat.pow_succ] at h
      have hpos : 0 < k := by
        refine Nat.pos_of_ne_zero ?_
        rintro rfl
        omega
      have hrest := ih hpos (n := n / 10) (by omega)
      rw [numeral_of_le hn, List.length_append, List.length_singleton]
      omega

/-- The digits of a numeral ahead of its last `k` are the numeral of the quotient by `10 ^ k`. -/
theorem take_numeral {k n : Nat} (h : k < (numeral n).length) :
    (numeral n).take ((numeral n).length - k) = numeral (n / 10 ^ k) := by
  have hn := isNumeral_numeral n
  generalize numeral n = ds at h hn
  have hsplit : ds.take (ds.length - k) ++ ds.drop (ds.length - k) = ds := List.take_append_drop _ _
  have hdigits := hn.digits
  rw [← hsplit, List.all_append, Bool.and_eq_true] at hdigits
  have hlast : (ds.drop (ds.length - k)).length = k := by
    rw [List.length_drop]
    omega
  have hvalue := hn.value
  rw [← hsplit, valueOfDigits_append, hlast] at hvalue
  have hlt := valueOfDigits_lt hdigits.2
  rw [hlast] at hlt
  have hquot : valueOfDigits (ds.take (ds.length - k)) = n / 10 ^ k := by
    rw [← hvalue, Nat.add_comm, Nat.add_mul_div_right _ _ (Nat.pow_pos (by decide)),
      Nat.div_eq_of_lt hlt, Nat.zero_add]
  have hne : ds.take (ds.length - k) ≠ [] := by
    intro hnil
    have hlen := congrArg List.length hnil
    rw [List.length_take, List.length_nil] at hlen
    omega
  refine IsNumeral.eq_numeral ⟨hne, hdigits.1, fun hzero => ?_, hquot⟩
  -- a zero in front would be in front of all digits
  have hone := hn.lead (by rw [← hsplit, List.head?_append_of_ne_nil _ hne, hzero])
  rw [hone] at h ⊢
  rw [List.length_singleton] at h ⊢
  rw [show k = 0 by omega]
  rfl

end Countersign
