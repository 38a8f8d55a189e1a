import Mathlib
import Unproxy.Number.Basic
import Unproxy.Proofs.Text.Numeral

/-!
# Unproxy.Proofs.Number.Reading

Reading integers from rows of digits, and doubles from decimals.

Main definitions:

* `Decimal.Spelled`: digits with a fraction, an exponent or both, and the decimal they stand for.

Main statements:

* `Number.readInt_digits`: digits of a base behind a sign or none read as the number
  they stand for, as long as a decimal integer is not too long;
* `Number.readFloat_spelled`: a decimal behind a sign or none reads as the number nearest to it.
-/

namespace Unproxy

open Binary64 (signed withSign)

namespace Number

/-! ### Code points of numerals -/

/-- The code points a numeral is made of: digits of some base, signs and the point. -/
def isNumeral (c : CodePoint) : Bool := c.digitValue?.isSome || "-+.".toText.contains c

theorem isNumeral_of_isDigitOf {base : Nat} {c : CodePoint} (h : c.isDigitOf base = true) :
    isNumeral c = true := by
  unfold CodePoint.isDigitOf at h
  unfold isNumeral
  split at h
  · rename_i hv
    rw [hv]
    rfl
  · cases h

theorem isNumeral_of_isDigit {c : CodePoint} (h : c.isDigit = true) : isNumeral c = true := by
  rw [← CodePoint.isDigitOf_ten] at h
  exact isNumeral_of_isDigitOf h

/-- A numeral holds no white space and nothing beyond ASCII. -/
theorem bounds_of_isNumeral {c : CodePoint} (h : isNumeral c = true) :
    0x2B ≤ c.val ∧ c.val < 0x80 := by
  simp only [isNumeral, CodePoint.digitValue?, Bool.or_eq_true] at h
  rcases h with h | h
  · by_cases hd : c.isDigit = true
    · simp only [CodePoint.isDigit, Bool.and_eq_true, decide_eq_true_eq] at hd
      omega
    by_cases hl : c.isLower = true
    · simp only [CodePoint.isLower, Bool.and_eq_true, decide_eq_true_eq] at hl
      omega
    by_cases hu : c.isUpper = true
    · simp only [CodePoint.isUpper, Bool.and_eq_true, decide_eq_true_eq] at hu
      omega
    · simp only [if_neg hd, if_neg hl, if_neg hu] at h
      cases h
  · have hall : ("-+.".toText.all fun c => 0x2B ≤ c.val && c.val < 0x80) = true := by decide
    have hc := List.all_eq_true.mp hall c (List.contains_iff_mem.mp h)
    simpa using hc

theorem not_isPadding_of_isNumeral {c : CodePoint} (h : isNumeral c = true) :
    isPadding c = false := by
  have hbounds := bounds_of_isNumeral h
  have hspace : c.isAscii = true := by simpa [CodePoint.isAscii] using hbounds.2
  simp only [isPadding, hspace, Bool.not_true, Bool.false_and, Bool.or_false, Bool.or_eq_false_iff,
    Bool.and_eq_false_iff, decide_eq_false_iff_not, beq_eq_false_iff_ne, ne_eq]
  omega

/-- Digits of ASCII stay as they are. -/
theorem plainDigit_of_isNumeral {c : CodePoint} (h : isNumeral c = true) : plainDigit c = c := by
  have hascii : c.isAscii = true := by
    simpa [CodePoint.isAscii] using (bounds_of_isNumeral h).2
  unfold plainDigit CodePoint.decimalValue?
  by_cases hd : c.isDigit = true
  · simp only [hascii, hd, if_true]
    simp only [CodePoint.isDigit, Bool.and_eq_true, decide_eq_true_eq] at hd
    rw [CodePoint.ofDigit, if_pos (by omega), show 0x30 + (c.val - 0x30) = c.val by omega,
      CodePoint.ofNat_val]
  · simp only [hascii, if_true, if_neg hd]

/-! ### The steps of reading -/

theorem trim_of_isNumeral {t : Text} (h : t.all isNumeral = true) : trim t = t := by
  have hfirst : ∀ s : Text, s.all isNumeral = true → s.dropWhile isPadding = s := by
    intro s hs
    cases s with
    | nil => rfl
    | cons c s =>
      rw [List.all_cons, Bool.and_eq_true] at hs
      rw [List.dropWhile_cons, not_isPadding_of_isNumeral hs.1]
      rfl
  rw [trim, hfirst t h, Text.dropEndWhile, hfirst t.reverse (by rwa [List.all_reverse]),
    List.reverse_reverse]

theorem map_plainDigit_of_isNumeral {t : Text} (h : t.all isNumeral = true) :
    t.map plainDigit = t := by
  rw [List.all_eq_true] at h
  exact (List.map_congr_left fun c hc => plainDigit_of_isNumeral (h c hc)).trans (List.map_id' t)

theorem splitSign_withSign {base : Nat} {digits : Text} (negative : Bool)
    (h : digits.all (CodePoint.isDigitOf base) = true) :
    splitSign (withSign negative digits) = (negative, digits) := by
  cases negative with
  | true => rfl
  | false =>
    cases digits with
    | nil => rfl
    | cons c digits =>
      rw [List.all_cons, Bool.and_eq_true] at h
      have hminus : c ≠ CodePoint.ofChar '-' := by
        rintro rfl
        exact absurd h.1 (by simp [CodePoint.isDigitOf,
          show (CodePoint.ofChar '-').digitValue? = none by decide])
      have hplus : c ≠ CodePoint.ofChar '+' := by
        rintro rfl
        exact absurd h.1 (by simp [CodePoint.isDigitOf,
          show (CodePoint.ofChar '+').digitValue? = none by decide])
      simp only [withSign, Bool.false_eq_true, if_false, splitSign, if_neg hminus, if_neg hplus]

/-- Both cases of a letter have the same value as digits. -/
theorem digitValue?_toLower (c : CodePoint) : c.toLower.digitValue? = c.digitValue? := by
  unfold CodePoint.toLower
  split
  · rename_i hu
    have hu' := hu
    simp only [CodePoint.isUpper, Bool.and_eq_true, decide_eq_true_eq] at hu'
    have hval : (CodePoint.ofNat (c.val + 32)).val = c.val + 32 := CodePoint.val_ofNat (by omega)
    have hdigit : c.isDigit = false := by
      simp only [CodePoint.isDigit, Bool.and_eq_false_iff, decide_eq_false_iff_not]
      omega
    have hlower : c.isLower = false := by
      simp only [CodePoint.isLower, Bool.and_eq_false_iff, decide_eq_false_iff_not]
      omega
    have hdigit' : (CodePoint.ofNat (c.val + 32)).isDigit = false := by
      simp only [CodePoint.isDigit, hval, Bool.and_eq_false_iff, decide_eq_false_iff_not]
      omega
    have hlower' : (CodePoint.ofNat (c.val + 32)).isLower = true := by
      simp only [CodePoint.isLower, hval, Bool.and_eq_true, decide_eq_true_eq]
      omega
    simp only [CodePoint.digitValue?, hu, hdigit, hlower, hdigit', hlower', hval,
      Bool.false_eq_true, if_false, if_true]
    congr 1
  · rfl

/-- The letter that marks a base is no digit of it. -/
theorem not_isDigitOf_mark {base : Nat} {letter : Char} {c : CodePoint}
    (hmark : baseMark base = some letter) (hc : c.toLower = CodePoint.ofChar letter) :
    c.isDigitOf base = false := by
  have hvalue : c.digitValue? = (CodePoint.ofChar letter).digitValue? := by
    rw [← hc, digitValue?_toLower]
  unfold baseMark at hmark
  split_ifs at hmark with hbase hbase hbase
  all_goals
    cases hmark
    rw [CodePoint.isDigitOf, hvalue, hbase]
    decide

theorem dropMark_digits {base : Nat} {digits : Text}
    (h : digits.all (CodePoint.isDigitOf base) = true) : dropMark base digits = digits := by
  unfold dropMark
  split
  · rename_i z mark rest letter hmark
    simp only [List.all_cons, Bool.and_eq_true] at h
    rw [if_neg]
    simp only [Bool.and_eq_true, decide_eq_true_eq, not_and]
    intro _ hletter
    exact absurd h.2.1 (by rw [not_isDigitOf_mark hmark hletter]; decide)
  · rfl

theorem all_isNumeral_withSign (negative : Bool) {t : Text} (h : t.all isNumeral = true) :
    (withSign negative t).all isNumeral = true := by
  cases negative with
  | true => simpa [withSign, show isNumeral (CodePoint.ofChar '-') = true by decide] using h
  | false => exact h

theorem all_isNumeral_of_isDigit {digits : Text} (h : digits.all CodePoint.isDigit = true) :
    digits.all isNumeral = true := by
  rw [List.all_eq_true] at h ⊢
  exact fun c hc => isNumeral_of_isDigit (h c hc)

section

variable {base : Nat} {digits : Text} (negative : Bool) (hne : digits ≠ [])
  (h : digits.all (CodePoint.isDigitOf base) = true)

include hne h

/-- Digits of a base behind a sign or none are counted and then read as the number they stand
for. -/
theorem readInt_eq :
    readInt base (withSign negative digits) =
      if base = 10 && maxDigits < digits.length then .error (.tooManyDigits digits.length)
      else .ok (signed negative (Text.valueIn base digits)) := by
  have hnumeral : (withSign negative digits).all isNumeral = true := by
    refine all_isNumeral_withSign negative ?_
    rw [List.all_eq_true] at h ⊢
    exact fun c hc => isNumeral_of_isDigitOf (h c hc)
  have htake : digits.takeWhile (CodePoint.isDigitOf base) = digits := by
    rw [List.takeWhile_eq_self_iff]
    exact List.all_eq_true.mp h
  have hpos : digits.length ≠ 0 := fun h0 => hne (List.length_eq_zero_iff.mp h0)
  simp only [readInt, trim_of_isNumeral hnumeral, map_plainDigit_of_isNumeral hnumeral,
    splitSign_withSign negative h, dropMark_digits h, htake, if_neg hpos, ne_eq, not_true_eq_false,
    if_false]

/-- Digits of a base behind a sign or none read as the number they stand for. -/
theorem readInt_digits (hlength : base = 10 → digits.length ≤ maxDigits) :
    readInt base (withSign negative digits) = .ok (signed negative (Text.valueIn base digits)) := by
  rw [readInt_eq negative hne h, if_neg]
  simpa using hlength

end

end Number

/-! ### Decimals -/

/-- The sign of an exponent, if it has one. -/
def Decimal.signText : Option Bool → Text
  | none => []
  | some negative => [if negative then CodePoint.ofChar '-' else '+']

/-- What may stand behind the digits of a decimal: an exponent, or nothing. -/
inductive Decimal.Scale : Text → Int → Prop
  | none : Scale [] 0
  | exponent {mark : CodePoint} (isMark : mark = 'e' ∨ mark = 'E') (sign : Option Bool)
      {digits : Text} (nonempty : digits ≠ []) (isDigits : digits.all CodePoint.isDigit = true) :
      Scale (mark :: (signText sign ++ digits))
        (signed (sign.getD false) (Text.valueIn 10 digits))

/-- A decimal without a sign: digits, a fraction or none, and an exponent or none. -/
inductive Decimal.Spelled : Text → Decimal → Prop
  | whole {whole scale : Text} {exponent : Int} (nonempty : whole ≠ [])
      (isDigits : whole.all CodePoint.isDigit = true) (isScale : Scale scale exponent) :
      Spelled (whole ++ scale) ⟨Text.valueIn 10 whole, exponent⟩
  | pointed {whole fraction scale : Text} {exponent : Int} (nonempty : whole ≠ [])
      (isDigits : whole.all CodePoint.isDigit = true)
      (isFraction : fraction.all CodePoint.isDigit = true) (isScale : Scale scale exponent) :
      Spelled (whole ++ CodePoint.ofChar '.' :: (fraction ++ scale))
        ⟨Text.valueIn 10 (whole ++ fraction), exponent - fraction.length⟩

namespace Decimal

theorem Scale.readExponent {scale : Text} {exponent : Int} (h : Scale scale exponent) :
    Number.readExponent scale = some exponent := by
  cases h with
  | none => rfl
  | @exponent mark isMark sign digits nonempty isDigits =>
    have hsplit : Number.splitSign (signText sign ++ digits) = (sign.getD false, digits) := by
      match sign with
      | some true => rfl
      | some false => rfl
      | Option.none =>
        have hbase : digits.all (CodePoint.isDigitOf 10) = true := by
          rw [Text.all_isDigitOf_ten, isDigits]
        exact Number.splitSign_withSign false hbase
    have hmark : (mark = 'e' || mark = 'E') = true := by
      simpa using isMark
    simp [Number.readExponent, hmark, hsplit, nonempty, isDigits]

theorem Scale.all_isNumeral {scale : Text} {exponent : Int} (h : Scale scale exponent) :
    scale.all Number.isNumeral = true := by
  cases h with
  | none => rfl
  | exponent isMark sign nonempty isDigits =>
    have hmark : Number.isNumeral (CodePoint.ofChar 'e') = true ∧
        Number.isNumeral (CodePoint.ofChar 'E') = true := by decide
    have hsign : ∀ sign, (signText sign).all Number.isNumeral = true := by decide
    rw [List.all_cons, List.all_append, hsign, Number.all_isNumeral_of_isDigit isDigits]
    rcases isMark with rfl | rfl
    · rw [hmark.1]
      rfl
    · rw [hmark.2]
      rfl

theorem Scale.head {scale : Text} {exponent : Int} (h : Scale scale exponent) {c : CodePoint}
    (hc : c ∈ scale.head?) : c = CodePoint.ofChar 'e' ∨ c = CodePoint.ofChar 'E' := by
  cases h with
  | none => cases hc
  | exponent isMark sign nonempty isDigits =>
    cases hc
    exact isMark

theorem Spelled.all_isNumeral {t : Text} {d : Decimal} (h : Spelled t d) :
    t.all Number.isNumeral = true := by
  cases h with
  | whole nonempty isDigits isScale =>
    rw [List.all_append, Number.all_isNumeral_of_isDigit isDigits, isScale.all_isNumeral]
    rfl
  | pointed nonempty isDigits isFraction isScale =>
    rw [List.all_append, List.all_cons, List.all_append,
      Number.all_isNumeral_of_isDigit isDigits, Number.all_isNumeral_of_isDigit isFraction,
      isScale.all_isNumeral]
    decide

/-- A decimal begins with a digit. -/
theorem Spelled.head {t : Text} {d : Decimal} (h : Spelled t d) :
    ∃ c rest, t = c :: rest ∧ c.isDigit = true := by
  have hwhole : ∀ {whole : Text} (rest : Text), whole ≠ [] →
      whole.all CodePoint.isDigit = true →
      ∃ c more, whole ++ rest = c :: more ∧ c.isDigit = true := by
    intro whole rest nonempty isDigits
    obtain ⟨c, whole, rfl⟩ := List.exists_cons_of_ne_nil nonempty
    rw [List.all_cons, Bool.and_eq_true] at isDigits
    exact ⟨c, whole ++ rest, rfl, isDigits.1⟩
  cases h with
  | whole nonempty isDigits isScale => exact hwhole _ nonempty isDigits
  | pointed nonempty isDigits isFraction isScale => exact hwhole _ nonempty isDigits

theorem takeWhile_isDigit {digits rest : Text} (h : digits.all CodePoint.isDigit = true)
    (hrest : ∀ c ∈ rest.head?, c.isDigit = false) :
    (digits ++ rest).takeWhile CodePoint.isDigit = digits := by
  rw [List.takeWhile_append_of_pos (List.all_eq_true.mp h)]
  cases rest with
  | nil => simp
  | cons c rest => simp [hrest c rfl]

theorem Scale.head_isDigit {scale : Text} {exponent : Int} (h : Scale scale exponent)
    (c : CodePoint) (hc : c ∈ scale.head?) : c.isDigit = false := by
  rcases h.head hc with rfl | rfl <;> rfl

theorem Spelled.readDecimal {t : Text} {d : Decimal} (h : Spelled t d) (negative : Bool) :
    Number.readDecimal negative t =
      some (Binary64.ofDecimal negative d.significand d.exponent) := by
  cases h with
  | @whole whole scale exponent nonempty isDigits isScale =>
    have htake := takeWhile_isDigit isDigits isScale.head_isDigit
    unfold Number.readDecimal
    simp only [htake, List.drop_left]
    cases hscale : scale with
    | nil =>
      rw [hscale] at isScale
      simp [nonempty, isScale.readExponent]
    | cons c more =>
      rw [hscale] at isScale
      have hpoint : c ≠ CodePoint.ofChar '.' := by
        rcases isScale.head rfl with rfl | rfl <;> decide
      simp [hpoint, nonempty, isScale.readExponent]
  | @pointed whole fraction scale exponent nonempty isDigits isFraction isScale =>
    have hwhole : (whole ++ CodePoint.ofChar '.' :: (fraction ++ scale)).takeWhile
        CodePoint.isDigit = whole := by
      refine takeWhile_isDigit isDigits ?_
      rintro c ⟨⟩
      rfl
    have hfraction := takeWhile_isDigit isFraction isScale.head_isDigit
    unfold Number.readDecimal
    simp only [hwhole, List.drop_left]
    simp [hfraction, nonempty, isScale.readExponent]

end Decimal

/-- A decimal behind a sign or none reads as the number nearest to it. -/
theorem Number.readFloat_spelled (negative : Bool) {t : Text} {d : Decimal}
    (h : Decimal.Spelled t d) :
    readFloat (withSign negative t) =
      .ok (Binary64.ofDecimal negative d.significand d.exponent) := by
  have hnumeral := all_isNumeral_withSign negative h.all_isNumeral
  obtain ⟨c, rest, rfl, hc⟩ := h.head
  have hne : ∀ e : CodePoint, e.isDigit = false → c ≠ e := by
    rintro e he rfl
    rw [hc] at he
    cases he
  have hsplit : splitSign (withSign negative (c :: rest)) = (negative, c :: rest) := by
    cases negative with
    | true => rfl
    | false =>
      simp [withSign, splitSign, hne (CodePoint.ofChar '-') rfl, hne (CodePoint.ofChar '+') rfl]
  -- Names begin with a letter.
  have hlower : c.toLower = c := by
    unfold CodePoint.toLower
    rw [if_neg]
    simp only [CodePoint.isDigit, CodePoint.isUpper, Bool.and_eq_true, decide_eq_true_eq] at hc ⊢
    omega
  have hname : ∀ (e : CodePoint) (word : Text), e.isDigit = false →
      ¬Text.toLower (c :: rest) = e :: word := by
    intro e word he heq
    rw [Text.toLower, List.map_cons, hlower] at heq
    exact hne e he (List.cons.inj heq).1
  simp only [readFloat, trim_of_isNumeral hnumeral, map_plainDigit_of_isNumeral hnumeral, hsplit,
    h.readDecimal]
  rw [if_neg, if_neg]
  · exact hname _ _ rfl
  · simp only [Bool.or_eq_true, decide_eq_true_eq, not_or]
    exact ⟨hname _ _ rfl, hname _ _ rfl⟩

end Unproxy
