import Countersign.Currency.Limbs
import Countersign.Numeral
import Countersign.Proofs.Numbers
import Countersign.Proofs.Numerals

/-!
# The digits of an amount

`Currency.decode` turns big-endian bytes into limbs and limbs into digits. Each step keeps the
number that is denoted:

* the limbs of a byte string denote the number of the byte string (`valueOfLimbs_limbsOfBytes`);
* a division by ten gives the quotient and a remainder below ten (`valueOfLimbs_divideByTen`),
  because the remainder that is carried into a limb is below ten and so no quotient is cut;
* the remainders are the digits of the number (`digitsOfLimbs_eq`), and 18 bytes denote less than
  10^44, so the places for the digits are enough (`digitsOfLimbs_limbsOfBytes`).

So `decode` gives the numeral of the number, and nothing but a length over 18 bytes is refused
(`decode_exact`).
-/

namespace Countersign.Currency

/-! ## Division -/

/-- Two words of which the upper one is below ten are divided without loss. -/
theorem divideWide_eq {high : UInt64} (h : high.toNat < 10) (low : UInt64) :
    high.toNat * UInt64.size + low.toNat =
      10 * (divideWide high low).1.toNat + (divideWide high low).2.toNat ∧
    (divideWide high low).2.toNat < 10 := by
  have hlow := low.toNat_lt
  have hq : (divideWide high low).1.toNat = (high.toNat * UInt64.size + low.toNat) / 10 := by
    rw [divideWide, UInt64.toNat_ofNat', UInt64.size]
    omega
  have hr : (divideWide high low).2.toNat = (high.toNat * UInt64.size + low.toNat) % 10 := by
    rw [divideWide, UInt64.toNat_ofNat', UInt64.size]
    omega
  rw [hq, hr]
  omega

/-- The limbs of the quotient by ten, and a remainder below ten. -/
theorem valueOfLimbs_divideByTen (ws : List UInt64) :
    valueOfLimbs ws = 10 * valueOfLimbs (divideByTen ws).1 + (divideByTen ws).2.toNat ∧
      (divideByTen ws).2.toNat < 10 := by
  induction ws with
  | nil => simp [divideByTen, valueOfLimbs]
  | cons w ws ih =>
    obtain ⟨hvalue, hcarry⟩ := ih
    -- the invariant of the loop: what is carried down from the limbs above is below ten
    have hstep := divideWide_eq hcarry w
    have hlimbs : valueOfLimbs (divideByTen (w :: ws)).1 =
        (divideWide (divideByTen ws).2 w).1.toNat +
          UInt64.size * valueOfLimbs (divideByTen ws).1 := rfl
    have hrest : (divideByTen (w :: ws)).2 = (divideWide (divideByTen ws).2 w).2 := rfl
    rw [hlimbs, hrest, valueOfLimbs]
    rw [UInt64.size] at hstep ⊢
    omega

/-! ## Limbs -/

/-- Limbs with room for all bytes denote the number of the bytes. -/
theorem valueOfLimbs_limbsOfBytes (n : Nat) (bs : Bytes) (h : bs.length ≤ 8 * n) :
    valueOfLimbs (limbsOfBytes n bs) = ofLittleEndian bs := by
  induction n generalizing bs with
  | zero =>
    rw [List.length_eq_zero_iff.1 (by omega : bs.length = 0)]
    rfl
  | succ n ih =>
    have hlow : (wordOfBytes (bs.take 8)).toNat = ofLittleEndian (bs.take 8) := by
      have hlt := ofLittleEndian_lt (bs.take 8)
      have hpow : 256 ^ (bs.take 8).length ≤ 256 ^ 8 :=
        Nat.pow_le_pow_right (by omega) (by rw [List.length_take]; omega)
      rw [wordOfBytes, UInt64.toNat_ofNat']
      omega
    rw [limbsOfBytes, valueOfLimbs, hlow, ih _ (by rw [List.length_drop]; omega)]
    by_cases hlen : bs.length ≤ 8
    · rw [List.drop_eq_nil_of_le hlen, List.take_of_length_le hlen]
      rfl
    · have hfront : (bs.take 8).length = 8 := by
        rw [List.length_take]
        omega
      have hpow : 256 ^ (bs.take 8).length = UInt64.size := by simp [hfront]
      conv => rhs; rw [← List.take_append_drop 8 bs, ofLittleEndian_append, hpow]

/-- Limbs are all zero exactly when they denote zero. -/
theorem all_zero_iff (ws : List UInt64) : ws.all (· == 0) = true ↔ valueOfLimbs ws = 0 := by
  induction ws with
  | nil => simp [valueOfLimbs]
  | cons w ws ih =>
    have hw : w = 0 ↔ w.toNat = 0 := by rw [← UInt64.toNat_inj]; rfl
    rw [List.all_cons, Bool.and_eq_true, ih, beq_iff_eq, hw, valueOfLimbs, UInt64.size]
    omega

/-! ## Digits -/

/-- The digits of limbs are the numeral of their number, and none for zero. -/
theorem digitsOfLimbs_eq (places : Nat) (ws : List UInt64) (found : List Char)
    (h : valueOfLimbs ws < 10 ^ places) :
    digitsOfLimbs places ws found =
      some ((if valueOfLimbs ws = 0 then [] else numeral (valueOfLimbs ws)) ++ found) := by
  induction places generalizing ws found with
  | zero =>
    have hzero : valueOfLimbs ws = 0 := by omega
    rw [digitsOfLimbs, if_pos ((all_zero_iff ws).2 hzero), if_pos hzero]
    rfl
  | succ places ih =>
    by_cases hzero : valueOfLimbs ws = 0
    · rw [digitsOfLimbs, if_pos ((all_zero_iff ws).2 hzero), if_pos hzero]
      rfl
    · obtain ⟨hvalue, hdigit⟩ := valueOfLimbs_divideByTen ws
      rw [digitsOfLimbs, if_neg (mt (all_zero_iff ws).1 hzero), if_neg hzero]
      dsimp only
      -- the remainder is the last digit, and the quotient has one digit less
      rw [ih _ _ (by rw [Nat.pow_succ] at h; omega)]
      have hquot : valueOfLimbs (divideByTen ws).1 = valueOfLimbs ws / 10 := by omega
      have hrem : (divideByTen ws).2.toNat = valueOfLimbs ws % 10 := by omega
      rw [hquot, hrem]
      by_cases hten : valueOfLimbs ws < 10
      · rw [if_pos (by omega), numeral, if_pos hten, Nat.mod_eq_of_lt hten]
        rfl
      · conv => rhs; rw [numeral, if_neg hten]
        rw [if_neg (by omega), List.append_assoc]
        rfl

/-- 18 bytes denote less than 10^44. -/
theorem ofBigEndian_lt {raw : Bytes} (h : raw.length ≤ maxBytes) : ofBigEndian raw < 10 ^ 44 := by
  simp only [maxBytes] at h
  calc ofBigEndian raw < 256 ^ raw.reverse.length := ofLittleEndian_lt _
    _ ≤ 256 ^ 18 := Nat.pow_le_pow_right (by omega) (by rw [List.length_reverse]; exact h)
    _ ≤ 10 ^ 44 := by decide

/-- There are places for all digits of an amount of at most 18 bytes. -/
theorem digitsOfLimbs_limbsOfBytes {raw : Bytes} (h : raw.length ≤ maxBytes) :
    digitsOfLimbs maxDigits (limbsOfBytes 3 raw.reverse) [] =
      some (if ofBigEndian raw = 0 then [] else numeral (ofBigEndian raw)) := by
  have hvalue : valueOfLimbs (limbsOfBytes 3 raw.reverse) = ofBigEndian raw := by
    simp only [maxBytes] at h
    exact valueOfLimbs_limbsOfBytes 3 raw.reverse (by rw [List.length_reverse]; omega)
  have hlt : ofBigEndian raw < 10 ^ maxDigits :=
    Nat.lt_of_lt_of_le (ofBigEndian_lt h) (by decide)
  have hdigits := digitsOfLimbs_eq maxDigits (limbsOfBytes 3 raw.reverse) []
    (by rw [hvalue]; exact hlt)
  rw [hvalue, List.append_nil] at hdigits
  exact hdigits

/-- An amount of at most 18 bytes has the decimal numeral of its number. -/
theorem decode_eq_numeral {raw : Bytes} (h : raw.length ≤ maxBytes) :
    decode raw = .ok (String.ofList (numeral (ofBigEndian raw))) := by
  rw [decode, if_neg (by omega), digitsOfLimbs_limbsOfBytes h]
  -- no digits at all stand for zero
  by_cases hzero : ofBigEndian raw = 0
  · rw [if_pos hzero, hzero, numeral, if_pos (by omega)]
    rfl
  · rw [if_neg hzero]
    split
    · next heq => cases heq
    · next heq =>
      exact absurd (Option.some.inj heq) (numeral_ne_nil _)
    · next heq =>
      rw [Option.some.inj heq]

/-- The bytes of a number, with any number of zeros in front, denote the number. -/
theorem ofBigEndian_bigEndian {k n : Nat} (h : n < 256 ^ k) : ofBigEndian (bigEndian k n) = n := by
  rw [ofBigEndian, bigEndian, List.reverse_reverse, ofLittleEndian_littleEndian, Nat.mod_eq_of_lt h]

/-- An amount of at most 18 bytes is decoded to the numeral of its number, which is the only text
of its digits without a zero in front; there are at most 44 digits, so the 48 places for them never
run out. A longer amount is refused. Hence a number written in up to 18 bytes, with or without
zeros in front, is read back as its numeral. -/
theorem decode_exact (raw : Bytes) :
    (raw.length ≤ maxBytes →
      decode raw = .ok (String.ofList (numeral (ofBigEndian raw))) ∧
      (∀ ds, IsNumeral ds (ofBigEndian raw) ↔ ds = numeral (ofBigEndian raw)) ∧
      ∃ ds, digitsOfLimbs maxDigits (limbsOfBytes 3 raw.reverse) [] = some ds ∧ ds.length ≤ 44) ∧
    (raw.length > maxBytes → decode raw = .error .currencyTooLarge) ∧
    ∀ n k, n < 256 ^ k → k ≤ maxBytes →
      decode (bigEndian k n) = .ok (String.ofList (numeral n)) := by
  refine ⟨fun h => ⟨decode_eq_numeral h, fun ds => isNumeral_iff, _,
    digitsOfLimbs_limbsOfBytes h, ?_⟩, fun h => ?_, fun n k hn hk => ?_⟩
  · split
    · exact Nat.zero_le _
    · exact length_numeral_le (by decide) (ofBigEndian_lt h)
  · rw [decode, if_pos h]
  · rw [decode_eq_numeral (by rw [length_bigEndian]; exact hk), ofBigEndian_bigEndian hn]

/-- The largest amount, one that is too long although it is zero, and ten with zeros in front. -/
theorem decode_largest_and_padded :
    decode (List.replicate 18 255) = .ok "22300745198530623141535718272648361505980415" ∧
      decode (List.replicate 19 0) = .error .currencyTooLarge ∧
      decode (bigEndian 18 10) = .ok "10" := by
  have hlargest : String.ofList (numeral (ofBigEndian (List.replicate 18 255))) =
      "22300745198530623141535718272648361505980415" := by decide +kernel
  have hten : String.ofList (numeral 10) = "10" := by decide +kernel
  refine ⟨?_, (decode_exact _).2.1 (by decide), ?_⟩
  · rw [← hlargest]
    exact ((decode_exact _).1 (by decide)).1
  · rw [← hten]
    exact (decode_exact []).2.2 10 18 (by decide) (by decide)

end Countersign.Currency
