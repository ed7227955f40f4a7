import Countersign.Currency.FixedPoint
import Countersign.Proofs.Amounts
import Countersign.Txn.Output
import Mathlib.Algebra.Order.Field.Rat
import Mathlib.Data.List.DropRight
import Mathlib.Tactic.FieldSimp
import Mathlib.Tactic.Ring

/-!
# What an amount on the screen says

A decimal text is read as it is written: digits, and behind a point the digits of a fraction
(`valueOfDecimal`). `IsTrimmed` says that it has no zero and no point too many, and `ShowsScaled`
that it stands for other digits with a point some places from their right end. The argument goes
from the single operations to the whole text:

* a text is cut where its first part has the wanted number of bytes, and nowhere else
  (`cut_eq_some_iff`); on digits, widths are lengths and a cut is a split of the list
  (`width_digits`, `cut_digits`);
* whatever fits the screen is put on it as a whole (`put_of_fits`, `putZeros_of_fits`);
* trimming takes the zeros off the fraction, which leaves its value (`trim_point`,
  `valueOfDecimal_pointed`).

So `fixedPoint` shows the digits with their point in place whenever they fit (`exists_fixedPoint`),
and the two ways of showing an amount are cases of it.
-/

namespace Countersign.Currency

/-! ## Reading a decimal text -/

/-- The digits ahead of the point. -/
def wholePart (text : List Char) : List Char := text.takeWhile (· != '.')

/-- The digits behind the point, and none if there is no point. -/
def fractionPart (text : List Char) : List Char := (text.dropWhile (· != '.')).drop 1

/-- The number that a decimal text denotes. -/
def valueOfDecimal (text : List Char) : ℚ :=
  valueOfDigits (wholePart text) +
    valueOfDigits (fractionPart text) / 10 ^ (fractionPart text).length

/-- Digits, and if there is a point digits behind it, of which the last is not zero. -/
structure IsTrimmed (text : List Char) : Prop where
  nonempty : wholePart text ≠ []
  whole : (wholePart text).all isDigit = true
  fraction : (fractionPart text).all isDigit = true
  point : '.' ∈ text → fractionPart text ≠ []
  last : (fractionPart text).getLast? ≠ some '0'

/-- The digits ahead of a point that is `places` from the right end; a zero if there are none. -/
def digitsAhead (ds : List Char) (places : Nat) : List Char :=
  if ds.length > places then ds.take (ds.length - places) else ['0']

/-- The text denotes the number of the digits divided by `10 ^ places`, and shows those digits that
are ahead of the point as they are. -/
structure ShowsScaled (ds : List Char) (places : Nat) (text : List Char) : Prop where
  trimmed : IsTrimmed text
  whole : wholePart text = digitsAhead ds places
  length_le : (fractionPart text).length ≤ places
  value : valueOfDecimal text * 10 ^ places = valueOfDigits ds

/-! ## Widths and cuts -/

theorem width_append (cs ds : List Char) : width (cs ++ ds) = width cs + width ds := by
  induction cs with
  | nil => simp [width]
  | cons c cs ih => rw [List.cons_append, width, width, ih, Nat.add_assoc]

/-- The bytes of a text in UTF-8 are those of the string. -/
theorem width_toList (s : String) : width s.toList = s.utf8ByteSize := by
  have h : ∀ cs : List Char, width cs = (String.ofList cs).utf8ByteSize := by
    intro cs
    induction cs with
    | nil => rfl
    | cons c cs ih =>
      rw [← List.singleton_append, width_append, String.ofList_append, String.utf8ByteSize_append,
        ← ih, ← String.singleton_eq_ofList, String.utf8ByteSize_singleton]
      rfl
  rw [h, String.ofList_toList]

theorem utf8Size_digit {c : Char} (h : isDigit c = true) : c.utf8Size = 1 := by
  have hc : c.val.toNat ≤ 57 := (isDigit_iff.1 h).2
  rw [Char.utf8Size_eq_one_iff, UInt32.le_iff_toNat_le]
  exact Nat.le_trans hc (by decide)

theorem width_digits {ds : List Char} (h : ds.all isDigit = true) : width ds = ds.length := by
  induction ds with
  | nil => rfl
  | cons c ds ih =>
    rw [List.all_cons, Bool.and_eq_true] at h
    rw [width, utf8Size_digit h.1, ih h.2, List.length_cons, Nat.add_comm]

theorem all_zeros (n : Nat) : (List.replicate n '0').all isDigit = true :=
  List.all_eq_true.2 fun c hc => by rw [List.eq_of_mem_replicate hc]; rfl

theorem width_zeros (n : Nat) : width (List.replicate n '0') = n := by
  rw [width_digits (all_zeros n), List.length_replicate]

/-- A text is cut where the first part has `n` bytes, and only there. -/
theorem cut_eq_some_iff {n : Nat} {ds front back : List Char} :
    cut n ds = some (front, back) ↔ ds = front ++ back ∧ width front = n := by
  induction ds generalizing n front with
  | nil =>
    rw [cut]
    apply Iff.intro
    · intro h
      split at h
      · next hn =>
        cases h
        exact ⟨rfl, hn.symm⟩
      · cases h
    · intro h
      obtain ⟨hparts, rfl⟩ := h
      obtain ⟨rfl, rfl⟩ := List.append_eq_nil_iff.1 hparts.symm
      rfl
  | cons c cs ih =>
    have hpos := c.utf8Size_pos
    rw [cut]
    apply Iff.intro
    · intro h
      split at h
      · next hn =>
        cases h
        exact ⟨rfl, hn.symm⟩
      · split at h
        · next hfits =>
          obtain ⟨⟨front', back'⟩, hcut, hfront⟩ := Option.map_eq_some_iff.1 h
          cases hfront
          obtain ⟨rfl, hwidth⟩ := ih.1 hcut
          exact ⟨rfl, by rw [width, hwidth]; omega⟩
        · cases h
    · intro h
      obtain ⟨hparts, rfl⟩ := h
      rcases front with _ | ⟨c', front⟩
      · rw [hparts]
        rfl
      · obtain ⟨rfl, rfl⟩ := List.cons.inj hparts
        rw [width]
        -- the cut is behind the first character, and comes to that of the others
        rw [if_neg (by omega), if_pos (by omega), ih.2 ⟨rfl, (Nat.add_sub_cancel_left _ _).symm⟩]
        rfl

theorem cut_digits {ds : List Char} (h : ds.all isDigit = true) {n : Nat} (hn : n ≤ ds.length) :
    cut n ds = some (ds.take n, ds.drop n) := by
  refine cut_eq_some_iff.2 ⟨(List.take_append_drop n ds).symm, ?_⟩
  have hdigits : (ds.take n).all isDigit = true :=
    List.all_eq_true.2 fun c hc => List.all_eq_true.1 h c (List.mem_of_mem_take hc)
  rw [width_digits hdigits, List.length_take, Nat.min_eq_left hn]

/-! ## Putting text on the screen -/

theorem put_of_fits {shown more : List Char} (h : width shown + width more ≤ maxShown) :
    put shown more = shown ++ more := if_pos h

theorem putZeros_of_fits {n : Nat} {shown : List Char} (h : width shown + n ≤ maxShown) :
    putZeros n shown = shown ++ List.replicate n '0' := by
  have hone : width ['0'] = 1 := rfl
  induction n generalizing shown with
  | zero => rw [putZeros, List.replicate_zero, List.append_nil]
  | succ n ih =>
    rw [putZeros, put_of_fits (by omega), ih (by rw [width_append]; omega), List.append_assoc,
      List.replicate_succ]
    rfl

/-- A text in two parts, with a point and some zeros between them, is put on the screen as a whole
if there is room for it. -/
theorem put_point {whole fraction : List Char} {zeros : Nat}
    (h : width whole + 1 + zeros + width fraction ≤ maxShown) :
    put (putZeros zeros (put (put [] whole) ['.'])) fraction =
      whole ++ '.' :: (List.replicate zeros '0' ++ fraction) := by
  have hpoint : width ['.'] = 1 := rfl
  have hnil : width [] = 0 := rfl
  -- what is put on the screen at some time is no wider than all of it
  have h₁ : put [] whole = whole := put_of_fits (by omega)
  have h₂ : put whole ['.'] = whole ++ ['.'] := put_of_fits (by omega)
  have h₃ : putZeros zeros (whole ++ ['.']) = whole ++ ['.'] ++ List.replicate zeros '0' :=
    putZeros_of_fits (by rw [width_append]; omega)
  rw [h₁, h₂, h₃, put_of_fits]
  · simp only [List.append_assoc, List.cons_append, List.nil_append]
  · rw [width_append, width_append, width_zeros]
    omega

/-! ## Trimming -/

/-- A whole number and the digits of a fraction, with a point between them if there are any. -/
def pointed (whole fraction : List Char) : List Char :=
  if fraction = [] then whole else whole ++ '.' :: fraction

theorem ne_point_of_isDigit {c : Char} (h : isDigit c = true) : (c != '.') = true := by
  refine bne_iff_ne.2 ?_
  rintro rfl
  cases h

theorem isPrefix_trim (text : List Char) : trim text <+: text := by
  have hzeros : (text.reverse.dropWhile (· == '0')).reverse <+: text :=
    List.rdropWhile_prefix (· == '0') text
  rw [trim]
  split
  · next rest hrest =>
    -- the point goes as well
    rw [hrest, List.reverse_cons] at hzeros
    exact (List.prefix_append _ _).trans hzeros
  · exact hzeros

theorem width_le_of_isPrefix {front text : List Char} (h : front <+: text) :
    width front ≤ width text := by
  obtain ⟨back, rfl⟩ := h
  rw [width_append]
  exact Nat.le_add_right _ _

/-- The zeros at the end of a fraction are dropped, and the point if nothing is left behind it. -/
theorem trim_point (whole : List Char) {fraction : List Char} (h : fraction.all isDigit = true) :
    trim (whole ++ '.' :: fraction) = pointed whole (fraction.rdropWhile (· == '0')) := by
  have hreverse :
      (whole ++ '.' :: fraction).reverse = fraction.reverse ++ '.' :: whole.reverse := by
    simp
  rw [trim, hreverse, List.dropWhile_append, List.rdropWhile]
  rcases hleft : fraction.reverse.dropWhile (· == '0') with _ | ⟨c, cs⟩
  · rw [pointed, List.reverse_nil, if_pos rfl, List.isEmpty_nil, if_pos rfl]
    simp
  · -- what is left begins with a digit, which is not a point
    have hmem : c ∈ fraction.reverse :=
      (List.dropWhile_sublist _).subset (hleft ▸ List.mem_cons_self)
    have hc := ne_point_of_isDigit (List.all_eq_true.1 h c (List.mem_reverse.1 hmem))
    rw [List.isEmpty_cons, if_neg Bool.false_ne_true, List.cons_append]
    split
    · next heq =>
      rw [(List.cons.inj heq).1] at hc
      cases hc
    · rw [pointed, if_neg (by simp)]
      simp

/-- Digits are themselves and zeros behind them when the zeros at their end are dropped. -/
theorem exists_zeros (ds : List Char) :
    ∃ n, ds = ds.rdropWhile (· == '0') ++ List.replicate n '0' := by
  induction ds using List.reverseRecOn with
  | nil => exact ⟨0, rfl⟩
  | append_singleton ds c ih =>
    rw [List.rdropWhile_concat]
    split
    · next hzero =>
      obtain ⟨n, hn⟩ := ih
      refine ⟨n + 1, ?_⟩
      rw [List.replicate_succ', ← List.append_assoc, ← hn, beq_iff_eq.1 hzero]
    · exact ⟨0, (List.append_nil _).symm⟩

/-- What is left when the zeros at the end are dropped does not end in zero. -/
theorem getLast?_rdropWhile_ne (ds : List Char) :
    (ds.rdropWhile (· == '0')).getLast? ≠ some '0' := by
  intro hzero
  have hne : ds.rdropWhile (· == '0') ≠ [] := by
    intro hnil
    rw [hnil] at hzero
    cases hzero
  rw [List.getLast?_eq_some_getLast hne] at hzero
  exact List.rdropWhile_last_not _ ds hne (beq_iff_eq.2 (Option.some.inj hzero))

section pointed

variable {whole fraction : List Char}

theorem wholePart_pointed (hw : whole.all isDigit = true) :
    wholePart (pointed whole fraction) = whole := by
  have hdigits : ∀ c ∈ whole, (c != '.') = true :=
    fun c hc => ne_point_of_isDigit (List.all_eq_true.1 hw c hc)
  rw [wholePart, pointed]
  split
  · exact List.takeWhile_eq_self_iff.2 hdigits
  · rw [List.takeWhile_append_of_pos hdigits, List.takeWhile_cons_of_neg (by decide),
      List.append_nil]

theorem fractionPart_pointed (hw : whole.all isDigit = true) :
    fractionPart (pointed whole fraction) = fraction := by
  have hdigits : ∀ c ∈ whole, (c != '.') = true :=
    fun c hc => ne_point_of_isDigit (List.all_eq_true.1 hw c hc)
  rw [fractionPart, pointed]
  split
  · next hnil =>
    rw [List.dropWhile_eq_nil_iff.2 hdigits, hnil]
    rfl
  · rw [List.dropWhile_append_of_pos hdigits, List.dropWhile_cons_of_neg (by decide)]
    rfl

/-- A whole number and a fraction that does not end in zero are trimmed. -/
theorem isTrimmed_pointed (hne : whole ≠ []) (hw : whole.all isDigit = true)
    (hf : fraction.all isDigit = true) (hlast : fraction.getLast? ≠ some '0') :
    IsTrimmed (pointed whole fraction) := by
  have hwhole : wholePart (pointed whole fraction) = whole := wholePart_pointed hw
  have hfraction : fractionPart (pointed whole fraction) = fraction := fractionPart_pointed hw
  refine ⟨?_, ?_, ?_, ?_, ?_⟩
  · rw [hwhole]
    exact hne
  · rw [hwhole]
    exact hw
  · rw [hfraction]
    exact hf
  · rw [hfraction]
    rintro hpoint rfl
    -- a whole number has no point
    have hdigit := List.all_eq_true.1 hw '.' hpoint
    cases hdigit
  · rw [hfraction]
    exact hlast

/-- A fraction may have any number of zeros behind it. -/
theorem valueOfDecimal_pointed (hw : whole.all isDigit = true) {n places : Nat}
    (hplaces : fraction.length + n = places) :
    valueOfDecimal (pointed whole fraction) * 10 ^ places =
      valueOfDigits (whole ++ (fraction ++ List.replicate n '0')) := by
  rw [valueOfDecimal, wholePart_pointed hw, fractionPart_pointed hw, ← hplaces,
    valueOfDigits_append, valueOfDigits_append, valueOfDigits_replicate_zero, List.length_append,
    List.length_replicate]
  push_cast
  rw [pow_add]
  field_simp
  ring

end pointed

/-! ## The point in its place -/

/-- The digits behind a point that is `places` from the right end, with zeros in front if there are
fewer. -/
def digitsBehind (ds : List Char) (places : Nat) : List Char :=
  List.replicate (places - ds.length) '0' ++ ds.drop (ds.length - places)

section point

variable {ds : List Char} (hd : ds.all isDigit = true) (places : Nat)

theorem length_digitsBehind : (digitsBehind ds places).length = places := by
  rw [digitsBehind, List.length_append, List.length_replicate, List.length_drop]
  omega

include hd

theorem all_digitsAhead : (digitsAhead ds places).all isDigit = true := by
  rw [digitsAhead]
  split
  · rw [← List.take_append_drop (ds.length - places) ds, List.all_append, Bool.and_eq_true] at hd
    exact hd.1
  · rfl

theorem all_digitsBehind : (digitsBehind ds places).all isDigit = true := by
  rw [← List.take_append_drop (ds.length - places) ds, List.all_append, Bool.and_eq_true] at hd
  rw [digitsBehind, List.all_append, hd.2, Bool.and_true]
  exact all_zeros _

omit hd in
theorem digitsAhead_ne_nil : digitsAhead ds places ≠ [] := by
  rw [digitsAhead]
  split
  · intro hnil
    have hlen := congrArg List.length hnil
    rw [List.length_take, List.length_nil] at hlen
    omega
  · exact List.cons_ne_nil _ _

omit hd in
/-- The point does not change what digits denote. -/
theorem valueOfDigits_ahead_behind :
    valueOfDigits (digitsAhead ds places ++ digitsBehind ds places) = valueOfDigits ds := by
  rw [digitsAhead, digitsBehind]
  split
  · next hlong =>
    rw [show places - ds.length = 0 by omega, List.replicate_zero, List.nil_append,
      List.take_append_drop]
  · next hshort =>
    -- all digits are behind the point, and all zeros in front of them
    rw [show ds.length - places = 0 by omega, List.drop_zero, ← List.append_assoc,
      ← List.replicate_one, List.replicate_append_replicate, valueOfDigits_append,
      valueOfDigits_replicate_zero, Nat.zero_mul, Nat.zero_add]

theorem split_digits :
    split ds places = some (digitsAhead ds places, ds.drop (ds.length - places)) := by
  rw [split, width_digits hd, digitsAhead]
  split
  · exact cut_digits hd (by omega)
  · next hshort => rw [show ds.length - places = 0 by omega, List.drop_zero]

/-- Before it is trimmed, the text is as wide as has been foreseen. -/
theorem untrimmedWidth_eq : untrimmedWidth ds places =
    (digitsAhead ds places).length + (1 + (digitsBehind ds places).length) := by
  rw [untrimmedWidth, width_digits hd, length_digitsBehind, digitsAhead]
  split
  · rw [List.length_take]
    omega
  · rw [List.length_singleton]
    omega

/-- The digits and their point are put on the screen as a whole if there is room for them. -/
theorem put_digits (hfit : untrimmedWidth ds places ≤ maxShown) :
    put (putZeros (places - width ds) (put (put [] (digitsAhead ds places)) ['.']))
        (ds.drop (ds.length - places)) =
      digitsAhead ds places ++ '.' :: digitsBehind ds places := by
  have hahead := width_digits (all_digitsAhead hd places)
  have hbehind := width_digits (all_digitsBehind hd places)
  rw [untrimmedWidth_eq hd, ← hahead, ← hbehind] at hfit
  rw [digitsBehind, width_append, width_zeros] at hfit
  rw [width_digits hd]
  exact put_point (by omega)

/-- A trimmed text is no wider than before. -/
theorem width_pointed_le :
    width (pointed (digitsAhead ds places) ((digitsBehind ds places).rdropWhile (· == '0'))) ≤
      untrimmedWidth ds places := by
  have hahead := width_digits (all_digitsAhead hd places)
  have hbehind := all_digitsBehind hd places
  have hpoint : width ['.'] = 1 := rfl
  have htrim := width_le_of_isPrefix
    (isPrefix_trim (digitsAhead ds places ++ '.' :: digitsBehind ds places))
  rw [trim_point _ hbehind, ← List.singleton_append, width_append, width_append, hpoint, hahead,
    width_digits hbehind] at htrim
  rw [untrimmedWidth_eq hd]
  exact htrim

/-- Digits that fit the screen before they are trimmed are shown with the point in its place,
without superfluous zeros, and with the whole unit behind them. -/
theorem exists_fixedPoint {unit : List Char}
    (hfit : untrimmedWidth ds places + width unit ≤ maxShown) :
    ∃ text, fixedPoint ds places unit = some (text ++ unit) ∧ ShowsScaled ds places text := by
  have hahead := all_digitsAhead hd places
  have hbehind := all_digitsBehind hd places
  have hwidth := width_pointed_le hd places
  obtain ⟨n, hn⟩ := exists_zeros (digitsBehind ds places)
  have hlast := getLast?_rdropWhile_ne (digitsBehind ds places)
  generalize hfraction : (digitsBehind ds places).rdropWhile (· == '0') = fraction
    at hn hwidth hlast
  have hdigits : fraction.all isDigit = true := by
    rw [hn, List.all_append, Bool.and_eq_true] at hbehind
    exact hbehind.1
  have hlength : fraction.length + n = places := by
    have hlen := congrArg List.length hn
    rw [length_digitsBehind, List.length_append, List.length_replicate] at hlen
    exact hlen.symm
  refine ⟨pointed (digitsAhead ds places) fraction, ?_, ?_⟩
  · rw [fixedPoint, split_digits hd, Option.map_some]
    dsimp only
    rw [put_digits hd places (by omega), trim_point _ hbehind, hfraction, put_of_fits (by omega)]
  · refine ⟨isTrimmed_pointed (digitsAhead_ne_nil places) hahead hdigits hlast,
      wholePart_pointed hahead, ?_, ?_⟩
    · rw [fractionPart_pointed hahead]
      omega
    · rw [valueOfDecimal_pointed hahead hlength, ← hn, valueOfDigits_ahead_behind]

end point

/-! ## Scaling -/

/-- The bytes of a scaled text with its unit, before it is trimmed. -/
def fullWidth (digits : String) (places : Nat) (unit : String) : Nat :=
  (if digits.utf8ByteSize > places then digits.utf8ByteSize + 1 else places + 2) +
    unit.utf8ByteSize

theorem untrimmedWidth_add_width (digits : String) (places : Nat) (unit : String) :
    untrimmedWidth digits.toList places + width unit.toList = fullWidth digits places unit := by
  rw [untrimmedWidth, width_toList, width_toList, fullWidth]

/-- Any text that is not decimal is refused. Decimal digits are shown exactly, with the whole unit
behind them, if they would fit the screen before they are trimmed, and refused if they would not,
up to a length that is a 64-bit number; that of a longer text overflows. -/
theorem scale_exact (digits : String) (places : UInt64) (unit : String) :
    (digits.toList.all isDigit = false → scale digits places unit = .error .unshowable) ∧
    (digits.toList.all isDigit = true →
      (fullWidth digits places.toNat unit ≤ maxShown →
        ∃ text, scale digits places unit = .ok (String.ofList text ++ unit) ∧
          ShowsScaled digits.toList places.toNat text) ∧
      (maxShown < fullWidth digits places.toNat unit →
        fullWidth digits places.toNat unit < UInt64.size →
          scale digits places unit = .error .unshowable) ∧
      (UInt64.size ≤ fullWidth digits places.toNat unit →
        scale digits places unit = .error .lengthOverflow)) := by
  have hscreen : maxShown < UInt64.size := by decide
  rw [scale, untrimmedWidth_add_width]
  refine ⟨fun hd => ?_, fun hd => ⟨fun hfit => ?_, fun hlong hsize => ?_, fun hsize => ?_⟩⟩
  · rw [hd]
    rfl
  · have hroom : untrimmedWidth digits.toList places.toNat + width unit.toList ≤ maxShown := by
      rw [untrimmedWidth_add_width]
      exact hfit
    obtain ⟨text, htext, hshows⟩ := exists_fixedPoint hd places.toNat hroom
    refine ⟨text, ?_, hshows⟩
    rw [hd, Bool.not_true, if_neg Bool.false_ne_true, if_neg (by omega), if_neg (by omega), htext]
    dsimp only
    rw [String.ofList_append, String.ofList_toList]
  · rw [hd, Bool.not_true, if_neg Bool.false_ne_true, if_neg (by omega), if_pos hlong]
  · rw [hd, Bool.not_true, if_neg Bool.false_ne_true, if_pos hsize]

theorem scale_hundredths : ∃ text, scale "12300" 2 " X" = .ok (String.ofList text ++ " X") ∧
    ShowsScaled "12300".toList 2 text :=
  ((scale_exact "12300" 2 " X").2 (by decide)).1 (by decide)

/-- The digit 1 behind as many places as there can be is too long for the screen, and the length
overflows before that is seen. -/
theorem scale_largest_places : "1".toList.all isDigit = true ∧
    maxShown < fullWidth "1" (18446744073709551615 : UInt64).toNat "" ∧
    scale "1" 18446744073709551615 "" = .error .lengthOverflow :=
  ⟨by decide, by decide, by decide⟩

/-! ## Amounts -/

/-- The numeral of a number has its point in its place when the number is divided. -/
theorem digitsAhead_numeral (n places : Nat) :
    digitsAhead (numeral n) places = numeral (n / 10 ^ places) := by
  rw [digitsAhead]
  split
  · next hlong => exact take_numeral hlong
  · next hshort =>
    have hn := isNumeral_numeral n
    have hlt : n < 10 ^ places := by
      calc n = valueOfDigits (numeral n) := hn.value.symm
        _ < 10 ^ (numeral n).length := valueOfDigits_lt hn.digits
        _ ≤ 10 ^ places := Nat.pow_le_pow_right (by decide) (by omega)
    rw [Nat.div_eq_of_lt hlt, numeral_of_lt (by decide)]
    rfl

/-- The digits of an amount fit the screen in either unit. -/
theorem length_digits_le (a : Amount) : (numeral a.value).length ≤ 44 :=
  length_numeral_le (by decide) (ofBigEndian_lt a.length_le)

/-- In siacoins every text that an element can hold fits the screen with its point. -/
theorem untrimmedWidth_siacoins {ds : List Char} (h : width ds ≤ maxDigits) :
    untrimmedWidth ds siacoinPlaces + width siacoinUnit ≤ maxShown := by
  have hunit : width siacoinUnit = 3 := rfl
  rw [maxDigits] at h
  rw [untrimmedWidth, siacoinPlaces, hunit, maxShown]
  split <;> omega

theorem exists_formatSiacoins (a : Amount) :
    ∃ text, formatSiacoins a.digits = some (String.ofList text ++ " SC") ∧
      ShowsScaled (numeral a.value) siacoinPlaces text := by
  have hd := (isNumeral_numeral a.value).digits
  have hlen := length_digits_le a
  have hfit : untrimmedWidth (numeral a.value) siacoinPlaces + width siacoinUnit ≤ maxShown :=
    untrimmedWidth_siacoins (by rw [width_digits hd, maxDigits]; omega)
  obtain ⟨text, htext, hshows⟩ := exists_fixedPoint hd siacoinPlaces hfit
  refine ⟨text, ?_, hshows⟩
  rw [formatSiacoins, Amount.digits, String.toList_ofList, htext, Option.map_some,
    String.ofList_append, siacoinUnit, String.ofList_toList]

/-- In siafunds every text that an element can hold is shown as it is. -/
theorem formatSiafunds_eq {digits : String} (h : width digits.toList ≤ maxDigits) :
    formatSiafunds digits = digits ++ " SF" := by
  have hunit : width siafundUnit = 3 := rfl
  have hnil : width [] = 0 := rfl
  rw [maxDigits] at h
  have hdigits : put [] digits.toList = digits.toList :=
    put_of_fits (by rw [hnil, maxShown]; omega)
  rw [formatSiafunds, hdigits, put_of_fits (by rw [hunit, maxShown]; omega), String.ofList_append,
    String.ofList_toList, siafundUnit, String.ofList_toList]

theorem formatSiafunds_digits (a : Amount) :
    formatSiafunds a.digits = String.ofList (numeral a.value) ++ " SF" := by
  have hlen := length_digits_le a
  refine formatSiafunds_eq ?_
  rw [Amount.digits, String.toList_ofList, width_digits (isNumeral_numeral a.value).digits,
    maxDigits]
  omega

/-- In siacoins and in siafunds alike, an amount can be told from its text. -/
theorem formatSiacoins_inj {a b : Amount} (h : formatSiacoins a.digits = formatSiacoins b.digits) :
    a.value = b.value := by
  obtain ⟨text, htext, hshows⟩ := exists_formatSiacoins a
  obtain ⟨text', htext', hshows'⟩ := exists_formatSiacoins b
  rw [htext, htext', Option.some.injEq, String.append_left_inj, String.ofList_inj] at h
  have hvalue := hshows.value
  rw [h, hshows'.value, (isNumeral_numeral _).value, (isNumeral_numeral _).value] at hvalue
  exact_mod_cast hvalue.symm

theorem formatSiafunds_inj {a b : Amount} (h : formatSiafunds a.digits = formatSiafunds b.digits) :
    a.value = b.value := by
  rw [formatSiafunds_digits, formatSiafunds_digits, String.append_left_inj, String.ofList_inj] at h
  rw [← (isNumeral_numeral a.value).value, h, (isNumeral_numeral b.value).value]

/-- An amount of at most 18 bytes is shown in siacoins as the trimmed decimal that is the amount
divided by 10^24, with a numeral ahead of the point, and in siafunds as its numeral, each with the
whole unit behind it. So two elements of one kind have the same text exactly when their amounts are
the same number. -/
theorem shown_exactly (a : Amount) :
    decode a.bytes = .ok a.digits ∧
    (∃ text, formatSiacoins a.digits = some (String.ofList text ++ " SC") ∧ IsTrimmed text ∧
      IsNumeral (wholePart text) (a.value / 10 ^ 24) ∧ (fractionPart text).length ≤ 24 ∧
      valueOfDecimal text * 10 ^ 24 = a.value) ∧
    formatSiafunds a.digits = String.ofList (numeral a.value) ++ " SF" ∧
    ∀ (b : Amount) (e e' : Element), decode a.bytes = .ok e.value → decode b.bytes = .ok e'.value →
      e.kind = e'.kind → e.formatted.isSome ∧ (e.formatted = e'.formatted ↔ a.value = b.value) := by
  have hdecode : ∀ a : Amount, decode a.bytes = .ok a.digits := fun a =>
    decode_eq_numeral a.length_le
  obtain ⟨text, htext, hshows⟩ := exists_formatSiacoins a
  refine ⟨hdecode a, ⟨text, htext, hshows.trimmed, ?_, hshows.length_le, ?_⟩,
    formatSiafunds_digits a, fun b e e' he he' hkind => ?_⟩
  · rw [hshows.whole, digitsAhead_numeral, siacoinPlaces]
    exact isNumeral_numeral _
  · rw [← (isNumeral_numeral a.value).value]
    exact hshows.value
  · have hvalue : e.value = a.digits := Except.ok.inj (he.symm.trans (hdecode a))
    have hvalue' : e'.value = b.digits := Except.ok.inj (he'.symm.trans (hdecode b))
    rw [Element.formatted, Element.formatted, ← hkind, hvalue, hvalue']
    -- the text depends on nothing but the amount and its unit
    have hsame : a.value = b.value → a.digits = b.digits := by
      intro h
      rw [Amount.digits, Amount.digits, h]
    rcases e.kind with _ | _ | _
    · refine ⟨by rw [htext]; rfl, formatSiacoins_inj, fun h => by rw [hsame h]⟩
    · refine ⟨rfl, fun h => formatSiafunds_inj (Option.some.inj h), fun h => by rw [hsame h]⟩
    · refine ⟨by rw [htext]; rfl, formatSiacoins_inj, fun h => by rw [hsame h]⟩

/-- Nine, with a zero in front, and ninety are told apart. -/
theorem shown_nine_and_ninety :
    decode [0, 9] = .ok "9" ∧ decode [90] = .ok "90" ∧
      (⟨.siacoinOutput, 1, "9", none⟩ : Element).formatted ≠
        (⟨.siacoinOutput, 2, "90", none⟩ : Element).formatted := by
  have hnine : decode [0, 9] = .ok "9" := by decide +kernel
  have hninety : decode [90] = .ok "90" := by decide +kernel
  have hshown := (shown_exactly ⟨[0, 9], by decide⟩).2.2.2 ⟨[90], by decide⟩
    ⟨.siacoinOutput, 1, "9", none⟩ ⟨.siacoinOutput, 2, "90", none⟩ hnine hninety rfl
  exact ⟨hnine, hninety, mt hshown.2.1 (by decide)⟩

end Countersign.Currency
