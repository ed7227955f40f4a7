import Countersign.Proofs.FixedPoint

/-!
# Texts of any kind on the screen

The value of an element is a text of at most 48 bytes, and nothing makes it a decimal one. Here it
is any text. There is always room for all of it, with its point, its zeros and its unit, so nothing
is left out (`rendered_in_full`). What can fail is the point: it stands 24 bytes from the right end,
and where that is inside a character there is no text at all (`no_point_inside_character`).
-/

namespace Countersign.Currency

/-! ## Where the point falls -/

/-- The point falls between two characters, or the text is all fraction. -/
def HasPoint (ds : List Char) (places : Nat) : Prop :=
  width ds ≤ places ∨ ∃ whole fraction, ds = whole ++ fraction ∧ width fraction = places

theorem isSome_split_iff {ds : List Char} {places : Nat} :
    (split ds places).isSome ↔ HasPoint ds places := by
  rw [split, HasPoint]
  split
  · next hlong =>
    rw [Option.isSome_iff_exists]
    apply Iff.intro
    · intro h
      obtain ⟨⟨whole, fraction⟩, hcut⟩ := h
      obtain ⟨hparts, hwidth⟩ := cut_eq_some_iff.1 hcut
      have hsum := congrArg width hparts
      rw [width_append] at hsum
      exact Or.inr ⟨whole, fraction, hparts, by omega⟩
    · intro h
      rcases h with hshort | ⟨whole, fraction, hparts, hwidth⟩
      · omega
      · have hsum := congrArg width hparts
        rw [width_append] at hsum
        exact ⟨(whole, fraction), cut_eq_some_iff.2 ⟨hparts, by omega⟩⟩
  · next hshort =>
    simp only [Option.isSome_some, true_iff]
    exact Or.inl (by omega)

/-! ## The text before it is trimmed -/

/-- The text with its point and the zeros behind the point, in full. -/
def fullText (ds : List Char) (places : Nat) : Option (List Char) :=
  (split ds places).map fun (whole, fraction) =>
    whole ++ '.' :: (List.replicate (places - width ds) '0' ++ fraction)

theorem width_split {ds whole fraction : List Char} {places : Nat}
    (h : split ds places = some (whole, fraction)) :
    width whole + 1 + (places - width ds) + width fraction = untrimmedWidth ds places := by
  rw [untrimmedWidth]
  rw [split] at h
  split at h
  · next hlong =>
    have hsum := congrArg width (cut_eq_some_iff.1 h).1
    rw [width_append] at hsum
    rw [if_pos hlong]
    omega
  · next hshort =>
    cases h
    have hzero : width ['0'] = 1 := rfl
    rw [if_neg hshort, hzero]
    omega

theorem width_fullText {ds text : List Char} {places : Nat} (h : fullText ds places = some text) :
    width text = untrimmedWidth ds places := by
  obtain ⟨⟨whole, fraction⟩, hsplit, rfl⟩ := Option.map_eq_some_iff.1 h
  have hpoint : width ['.'] = 1 := rfl
  dsimp only
  rw [← width_split hsplit, ← List.singleton_append, width_append, width_append, width_append,
    width_zeros]
  omega

/-- What comes to stand on the screen before it is trimmed. -/
def putText (ds : List Char) (places : Nat) : Option (List Char) :=
  (split ds places).map fun (whole, fraction) =>
    put (putZeros (places - width ds) (put (put [] whole) ['.'])) fraction

theorem fixedPoint_eq_putText (ds : List Char) (places : Nat) (unit : List Char) :
    fixedPoint ds places unit = (putText ds places).map fun text => put (trim text) unit := by
  rw [fixedPoint, putText, Option.map_map]
  rfl

/-- Where there is room for the full text, it comes to stand on the screen byte for byte. -/
theorem putText_eq {ds : List Char} {places : Nat} (h : untrimmedWidth ds places ≤ maxShown) :
    putText ds places = fullText ds places := by
  rw [putText, fullText]
  rcases hsplit : split ds places with _ | ⟨whole, fraction⟩
  · rfl
  · have hwidth := width_split hsplit
    exact congrArg some (put_point (by omega))

/-- Where there is room for the full text and its unit, the unit is put behind it as a whole. -/
theorem fixedPoint_eq {ds unit : List Char} {places : Nat}
    (h : untrimmedWidth ds places + width unit ≤ maxShown) :
    fixedPoint ds places unit = (fullText ds places).map fun text => trim text ++ unit := by
  rw [fixedPoint_eq_putText, putText_eq (by omega)]
  rcases htext : fullText ds places with _ | text
  · rfl
  · have htrim := width_le_of_isPrefix (isPrefix_trim text)
    rw [width_fullText htext] at htrim
    exact congrArg some (put_of_fits (by omega))

/-! ## Texts of at most 48 bytes -/

variable {digits : String}

theorem formatSiacoins_eq (h : width digits.toList ≤ maxDigits) :
    formatSiacoins digits = (fullText digits.toList siacoinPlaces).map
      (fun text => String.ofList (trim text) ++ " SC") := by
  rw [formatSiacoins, fixedPoint_eq (untrimmedWidth_siacoins h), Option.map_map]
  refine congrFun (congrArg _ (funext fun text => ?_)) _
  rw [Function.comp, String.ofList_append]
  rfl

theorem utf8ByteSize_siafunds (h : width digits.toList ≤ maxDigits) :
    (formatSiafunds digits).utf8ByteSize ≤ maxShown := by
  have hunit : " SF".utf8ByteSize = 3 := rfl
  rw [width_toList, maxDigits] at h
  rw [formatSiafunds_eq (by rw [width_toList]; exact h), String.utf8ByteSize_append, hunit,
    maxShown]
  omega

theorem utf8ByteSize_siacoins (h : width digits.toList ≤ maxDigits) {shown : String}
    (hshown : formatSiacoins digits = some shown) : shown.utf8ByteSize ≤ maxShown := by
  rw [formatSiacoins_eq h] at hshown
  obtain ⟨text, htext, rfl⟩ := Option.map_eq_some_iff.1 hshown
  have hroom := untrimmedWidth_siacoins h
  have hunit : " SC".utf8ByteSize = width siacoinUnit := rfl
  have htrim := width_le_of_isPrefix (isPrefix_trim text)
  rw [width_fullText htext] at htrim
  rw [String.utf8ByteSize_append, ← width_toList (String.ofList _), String.toList_ofList, hunit]
  omega

/-- Every text of at most 48 bytes is shown in siafunds as it is, with the whole unit behind it. In
siacoins it is shown if its point does not fall inside a character: the full text comes to stand on
the screen, it is trimmed, and the whole unit is put behind it. So an element has a text on the
screen under the same condition, and none needs more room than there is. -/
theorem rendered_in_full (digits : String) (h : digits.utf8ByteSize ≤ maxDigits) :
    formatSiafunds digits = digits ++ " SF" ∧
    putText digits.toList siacoinPlaces = fullText digits.toList siacoinPlaces ∧
    formatSiacoins digits = (putText digits.toList siacoinPlaces).map
      (fun text => String.ofList (trim text) ++ " SC") ∧
    ((formatSiacoins digits).isSome ↔ HasPoint digits.toList siacoinPlaces) ∧
    ∀ e : Element, e.value = digits →
      (e.formatted.isSome ↔ e.kind = .siafundOutput ∨ HasPoint digits.toList siacoinPlaces) ∧
      ∀ shown, e.formatted = some shown → shown.utf8ByteSize ≤ maxShown := by
  have hwidth : width digits.toList ≤ maxDigits := by
    rw [width_toList]
    exact h
  have hroom := untrimmedWidth_siacoins hwidth
  have hfull : putText digits.toList siacoinPlaces = fullText digits.toList siacoinPlaces :=
    putText_eq (by omega)
  have hsiacoins := formatSiacoins_eq hwidth
  have hpoint : (formatSiacoins digits).isSome ↔ HasPoint digits.toList siacoinPlaces := by
    rw [hsiacoins, Option.isSome_map, fullText, Option.isSome_map, isSome_split_iff]
  refine ⟨formatSiafunds_eq hwidth, hfull, by rw [hfull, hsiacoins], hpoint, fun e he => ?_⟩
  rw [Element.formatted, he]
  rcases e.kind
  · exact ⟨hpoint.trans (by simp), fun shown => utf8ByteSize_siacoins hwidth⟩
  · refine ⟨by simp, fun shown hshown => ?_⟩
    rw [← Option.some.inj hshown]
    exact utf8ByteSize_siafunds hwidth
  · exact ⟨hpoint.trans (by simp), fun shown => utf8ByteSize_siacoins hwidth⟩

/-- Twelve characters of two bytes each are all fraction. -/
theorem rendered_letters : "éééééééééééé".utf8ByteSize ≤ maxDigits ∧
    formatSiacoins "éééééééééééé" = some "0.éééééééééééé SC" := by
  have hlength : "éééééééééééé".utf8ByteSize ≤ maxDigits := by decide
  have hshown := (rendered_in_full "éééééééééééé" hlength).2.2.1
  rw [hshown]
  exact ⟨hlength, by decide⟩

/-- A text of 25 bytes that begins with a character of two has its point inside that character, and
no place on the screen. -/
theorem no_point_inside_character :
    "é11111111111111111111111".utf8ByteSize = 25 ∧
      formatSiacoins "é11111111111111111111111" = none ∧
      (⟨.minerFee, 1, "é11111111111111111111111", none⟩ : Element).formatted = none := by
  decide

end Countersign.Currency
