import Mathlib
import Unproxy.Access.Name
import Unproxy.Proofs.Number.Spelling

/-!
# Unproxy.Proofs.Number.Index

Integer literals as indices. However an integer is spelled in a program, it names the same property,
and an array has an element of that name or none.

Main definitions:

* `Syntax.Lexeme.IntegerLiteral`: the spellings of integers, with the base and the digits of each;
* `Value.Selects`: what a property name selects from an array.

Main statements:

* `Syntax.Lexeme.IntegerLiteral.number?_append`: the spellings are numbers of the language;
* `Number.ofSpelling_literal`: all of them are read as the integers they stand for, but for decimals
  with zeros in front that are too long;
* `Value.selects_field`: looking a property up in an array;
* `Syntax.Tree.element_of_literal`: what an access with an integer literal reads.
-/

namespace Unproxy

open CodePoint (ofChar)

namespace Syntax.Lexeme

/-! ### Integer literals -/

/-- The letters behind a zero that tell a base. -/
def baseMarks : List (CodePoint × Nat) :=
  [('x', 16), ('X', 16), ('o', 8), ('O', 8), ('b', 2), ('B', 2)]

/-- The spellings of integers: a text, the base in which it is read, and its digits. A zero in front
of more digits makes them octal, unless one of them is an eight or a nine. -/
inductive IntegerLiteral : Text → Nat → Text → Prop
  | based {mark : CodePoint} {base : Nat} {w digits : Text} (isMark : (mark, base) ∈ baseMarks)
      (separated : Separated (CodePoint.isDigitOf base) w digits) :
      IntegerLiteral (ofChar '0' :: mark :: w) base digits
  | decimal {w digits : Text} (separated : Separated CodePoint.isDigit w digits)
      (head : digits.head? = some (ofChar '0') → digits.length = 1) :
      IntegerLiteral w 10 digits
  | oldOctal {w digits : Text}
      (separated : Separated CodePoint.isDigit w (ofChar '0' :: digits))
      (nonempty : digits ≠ []) (octal : digits.all CodePoint.isOctalDigit = true) :
      IntegerLiteral w 8 (ofChar '0' :: digits)
  | oldDecimal {w digits : Text}
      (separated : Separated CodePoint.isDigit w (ofChar '0' :: digits))
      (decimal : ∃ c ∈ digits, c = ofChar '8' ∨ c = ofChar '9') :
      IntegerLiteral w 10 (ofChar '0' :: digits)

/-- A nine behind zeros is a decimal of the old kind. -/
theorem integerLiteral_zeros (n : Nat) :
    IntegerLiteral (List.replicate (n + 1) (ofChar '0') ++ "9".toText) 10
      (List.replicate (n + 1) (ofChar '0') ++ "9".toText) := by
  rw [List.replicate_succ, List.cons_append]
  refine .oldDecimal (.of_all (List.cons_ne_nil _ _) ?_) ⟨ofChar '9', ?_, .inr rfl⟩
  · rw [List.all_cons, List.all_append, List.all_replicate]
    split <;> rfl
  · exact List.mem_append_right _ List.mem_cons_self

theorem baseOfMark_of_mem {mark : CodePoint} {base : Nat} (h : (mark, base) ∈ baseMarks) :
    baseOfMark mark = some base := by
  have hall : ∀ pair ∈ baseMarks, baseOfMark pair.1 = some pair.2 := by decide
  exact hall (mark, base) h

/-- Nothing that goes on with a number begins a text where a number ends. -/
theorem Ends.head {r : Text} (h : Ends r) {c : CodePoint} (hc : c ∈ r.head?) :
    (∀ base, c.isDigitOf base = false) ∧ c.isDigit = false ∧ c ≠ ofChar '_' ∧
      c ≠ ofChar '.' ∧ c ≠ ofChar 'n' := by
  obtain ⟨hdigit, hunderscore, hpoint, hbig, -⟩ := IsScale.head (.inl rfl) h hc
  refine ⟨fun base => ?_, hdigit, hunderscore, hpoint, hbig⟩
  by_contra hbase
  rw [Bool.not_eq_false] at hbase
  have hpart := isNamePart_of_isDigitOf hbase
  rw [(h c hc).1] at hpart
  cases hpart

theorem decimalNumber?_separated {w digits r : Text} (h : Separated CodePoint.isDigit w digits)
    (hr : Ends r) : decimalNumber? (w ++ r) = some w := by
  have hwhole : decimals (w ++ r) = w :=
    h.separated_append fun c hc => ⟨(hr.head hc).2.1, (hr.head hc).2.2.1⟩
  have hempty : w.isEmpty = false := by
    obtain ⟨c, w', rfl, -⟩ := h.head
    rfl
  have hexponent := IsScale.exponent (.inl rfl) hr
  rw [List.nil_append] at hexponent
  rw [decimalNumber?_eq, hwhole, List.drop_left]
  cases r with
  | nil => simp [decimalBehind?, hempty]
  | cons c r =>
    obtain ⟨-, -, -, hpoint, hbig⟩ := hr.head (c := c) rfl
    simp [decimalBehind?, hempty, hpoint, hbig, hexponent]

theorem basedNumber?_separated {w digits r : Text} (h : Separated CodePoint.isDigit w digits)
    (hr : Ends r) : basedNumber? (w ++ r) = none := by
  refine basedNumber?_of_second fun c hc => ?_
  cases h with
  | last allowed => exact (IsScale.head (.inl rfl) hr hc).2.2.2.2
  | digit allowed rest =>
    obtain ⟨d, w', rfl, hd⟩ := rest.head
    obtain rfl : d = c := Option.some.inj hc
    exact baseOfMark_of_isDigit hd
  | underscore allowed rest =>
    obtain rfl : ofChar '_' = c := Option.some.inj hc
    rfl

/-- The spellings of integers are numbers of the language. -/
theorem IntegerLiteral.number?_append {t digits r : Text} {base : Nat}
    (h : IntegerLiteral t base digits) (hr : Ends r) : number? (t ++ r) = some t := by
  have hdecimal : ∀ {w digits : Text}, Separated CodePoint.isDigit w digits →
      number? (w ++ r) = some w := by
    intro w digits hw
    rw [number?, basedNumber?_separated hw hr, decimalNumber?_separated hw hr]
    rfl
  cases h with
  | @based mark base w digits isMark separated =>
    have hdigits : Lexeme.separated (CodePoint.isDigitOf base) (w ++ r) = w :=
      separated.separated_append fun c hc => ⟨(hr.head hc).1 base, (hr.head hc).2.2.1⟩
    have hbig : (r.take 1).filter (· = ofChar 'n') = [] := by
      cases r with
      | nil => rfl
      | cons c r => simp [(hr.head (c := c) rfl).2.2.2.2]
    have hempty : w.isEmpty = false := by
      obtain ⟨c, w', rfl, -⟩ := separated.head
      rfl
    have hbased : basedNumber? (ofChar '0' :: mark :: (w ++ r)) =
        some (ofChar '0' :: mark :: w) := by
      simp only [basedNumber?, baseOfMark_of_mem isMark, hdigits, hempty, List.drop_left, hbig,
        List.append_nil]
      rfl
    rw [List.cons_append, List.cons_append, number?, hbased]
    rfl
  | decimal separated head => exact hdecimal separated
  | oldOctal separated nonempty octal => exact hdecimal separated
  | oldDecimal separated decimal => exact hdecimal separated

end Syntax.Lexeme

open Syntax.Lexeme

/-! ### Their values -/

namespace Number

/-- Underscores do not count. -/
theorem ofSpelling_filter (t : Text) :
    ofSpelling (t.filter (· ≠ ofChar '_')) = ofSpelling t := by
  simp only [ofSpelling, List.filter_filter, Bool.and_self]

/-- Digits behind a base mark are read in that base. -/
theorem ofSpelling_based {mark : CodePoint} {base : Nat} {w digits : Text}
    (isMark : (mark, base) ∈ baseMarks) (h : Separated (CodePoint.isDigitOf base) w digits) :
    base ≠ 10 ∧ ofSpelling (ofChar '0' :: mark :: w) =
      .ok (some (.int (Text.valueIn base digits))) := by
  -- Neither an underscore nor an `n` is a digit of any of the bases.
  have hmarks : ∀ pair ∈ baseMarks, pair.1 ≠ ofChar '_' ∧ pair.2 ≠ 10 ∧
      (ofChar '_').isDigitOf pair.2 = false ∧
      (ofChar 'n').isDigitOf pair.2 = false := by
    decide
  obtain ⟨hmark, hbase, hunderscore, hbig⟩ := hmarks _ isMark
  have hfilter : (ofChar '0' :: mark :: w).filter (· ≠ ofChar '_') =
      ofChar '0' :: mark :: digits := by
    rw [List.filter_cons_of_pos (by decide), List.filter_cons_of_pos (by simpa using hmark),
      h.filter_eq hunderscore]
  have hlast : (ofChar '0' :: mark :: digits).getLast? ≠ some (ofChar 'n') := by
    rw [List.getLast?_cons_cons, List.getLast?_cons_of_ne_nil h.ne_nil]
    intro hlast
    rw [List.all_eq_true.mp h.all_digits _ (List.mem_of_getLast? hlast)] at hbig
    cases hbig
  have hliteral : literalBase? (ofChar '0' :: mark :: digits) = some base := by
    simp only [baseMarks, List.mem_cons, Prod.mk.injEq, List.not_mem_nil, or_false] at isMark
    rcases isMark with ⟨rfl, rfl⟩ | ⟨rfl, rfl⟩ | ⟨rfl, rfl⟩ | ⟨rfl, rfl⟩ | ⟨rfl, rfl⟩ | ⟨rfl, rfl⟩ <;>
      rfl
  have hread := readInt_digits false h.ne_nil h.all_digits fun hten => absurd hten hbase
  rw [Binary64.withSign, if_neg Bool.false_ne_true] at hread
  refine ⟨hbase, ?_⟩
  simp only [ofSpelling, hfilter, if_neg hlast, hliteral, List.drop_succ_cons, List.drop_zero, hread]
  rfl

/-- Digits behind a zero are octal if all of them are octal digits, and decimal otherwise. -/
theorem ofSpelling_leadingZero {w digits : Text} (hne : digits ≠ [])
    (h : Separated CodePoint.isDigit w (ofChar '0' :: digits)) :
    ofSpelling w =
      (readInt (if digits.all CodePoint.isOctalDigit then 8 else 10)
        (ofChar '0' :: digits)).map fun i => some (.int i) := by
  have hdigits := List.all_eq_true.mp h.all_digits
  have hfilter := h.filter_eq rfl
  have hlast : (ofChar '0' :: digits).getLast? ≠ some (ofChar 'n') :=
    fun hlast => absurd (hdigits _ (List.mem_of_getLast? hlast)) (by decide)
  obtain ⟨c, rest, rfl⟩ := List.exists_cons_of_ne_nil hne
  have hliteral : literalBase? (ofChar '0' :: c :: rest) = none := by
    obtain ⟨d, hd, rfl⟩ := CodePoint.exists_digitChar (hdigits c (by simp))
    interval_cases d <;> rfl
  have hzero : hasLeadingZero (ofChar '0' :: c :: rest) = true := by
    have hany : (ofChar '0' :: c :: rest).all CodePoint.isAnyDigit = true := by
      rw [List.all_eq_true]
      intro e he
      simp [CodePoint.isAnyDigit, CodePoint.decimalValue?, hdigits e he,
        CodePoint.isAscii_of_isDigit (hdigits e he)]
    simp only [hasLeadingZero, hany, Bool.and_true]
    rfl
  have hoctal : (ofChar '0' :: c :: rest).all CodePoint.isOctalDigit =
      (c :: rest).all CodePoint.isOctalDigit := by
    rw [List.all_cons]
    exact Bool.true_and _
  simp only [ofSpelling, hfilter, if_neg hlast, hliteral, hzero, if_true, hoctal]

/-- Every spelling of an integer is read as that integer, as long as a decimal one with zeros in
front is not too long. -/
theorem ofSpelling_literal {t digits : Text} {base : Nat} (h : IntegerLiteral t base digits)
    (small : Text.valueIn base digits < exponentBound) :
    ofSpelling t = if base = 10 ∧ maxDigits < digits.length then
        .error (.tooManyDigits digits.length)
      else .ok (some (.int (Text.valueIn base digits))) := by
  cases h with
  | based isMark separated =>
    obtain ⟨hbase, hread⟩ := ofSpelling_based isMark separated
    rw [hread, if_neg fun hten => hbase hten.1]
  | decimal separated head =>
    have hnumeral := Text.ofNat_valueIn separated.ne_nil separated.all_digits head
    have hlength : digits.length ≤ 21 := by
      rw [← hnumeral]
      exact length_ofNat_le small
    have hshort : ¬(10 = 10 ∧ maxDigits < digits.length) := by
      rw [maxDigits]
      omega
    rw [← ofSpelling_filter, separated.filter_eq rfl, if_neg hshort,
      ← ofSpelling_ofNat (small.trans_le exponentBound_le_overflowBound),
      hnumeral]
  | @oldOctal _ digits separated nonempty octal =>
    have hbase : (ofChar '0' :: digits).all (CodePoint.isDigitOf 8) = true := by
      rw [List.all_cons, Text.all_isDigitOf_eight octal]
      rfl
    have hread := readInt_eq false (List.cons_ne_nil _ _) hbase
    rw [Binary64.withSign, if_neg Bool.false_ne_true] at hread
    rw [ofSpelling_leadingZero nonempty separated, octal, if_pos rfl, hread]
    rfl
  | @oldDecimal _ digits separated decimal =>
    obtain ⟨c, hc, height⟩ := decimal
    have hoctal : digits.all CodePoint.isOctalDigit = false := by
      refine List.all_eq_false.mpr ⟨c, hc, ?_⟩
      rcases height with rfl | rfl <;> decide
    have hbase : (ofChar '0' :: digits).all (CodePoint.isDigitOf 10) = true := by
      rw [Text.all_isDigitOf_ten]
      exact separated.all_digits
    have hread := readInt_eq false (List.cons_ne_nil _ _) hbase
    rw [Binary64.withSign, if_neg Bool.false_ne_true] at hread
    rw [ofSpelling_leadingZero (List.ne_nil_of_mem hc) separated, hoctal,
      if_neg Bool.false_ne_true, hread]
    by_cases hlong : maxDigits < (ofChar '0' :: digits).length
    · rw [if_pos (by simpa using hlong), if_pos ⟨rfl, hlong⟩]
      rfl
    · rw [if_neg (by simpa using hlong), if_neg fun hboth => hlong hboth.2]
      rfl

end Number

/-! ### Elements -/

namespace Value

/-- What a property name selects from an array: its length, the element whose place the name spells,
or nothing. -/
inductive Selects (items : List Value) : Text → Option Value → Prop
  | length : Selects items "length".toText (some (.number (.int items.length)))
  | element {i : Nat} {item : Value} (place : items[i]? = some item) :
      Selects items (Text.ofNat i) (some item)
  | missing {name : Text} (notLength : name ≠ "length".toText)
      (notPlace : ∀ i < items.length, name ≠ Text.ofNat i) : Selects items name none

theorem isIndex_iff {name : Text} : isIndex name = true ↔ ∃ i, name = Text.ofNat i := by
  constructor
  · intro h
    unfold isIndex at h
    split at h
    · cases h
    · rename_i c rest
      rw [Bool.and_eq_true] at h
      refine ⟨Text.valueIn 10 (c :: rest), (Text.ofNat_valueIn (List.cons_ne_nil _ _) h.1 ?_).symm⟩
      intro hzero
      obtain rfl : c = ofChar '0' := Option.some.inj hzero
      simpa using h.2
  · rintro ⟨i, rfl⟩
    have hdigits := Text.all_isDigit_ofNat i
    cases hname : Text.ofNat i with
    | nil => exact absurd hname (Text.ofNat_ne_nil i)
    | cons c rest =>
      rw [hname] at hdigits
      rw [isIndex, hdigits, Bool.true_and]
      by_cases hzero : c = ofChar '0'
      · have hi := Text.eq_zero_of_head?_ofNat (n := i) (by rw [hname, hzero]; rfl)
        rw [hi] at hname
        cases hname
        rfl
      · simp [hzero]

/-- A place that is not too long to spell selects its element or nothing. -/
theorem field_ofNat (items : List Value) {i : Nat} (h : (Text.ofNat i).length ≤ Number.maxDigits) :
    (Value.array items).field (Text.ofNat i) = .ok items[i]? := by
  have hdigits : (Text.ofNat i).all (CodePoint.isDigitOf 10) = true := by
    rw [Text.all_isDigitOf_ten, Text.all_isDigit_ofNat]
  have hread := Number.readInt_digits false (Text.ofNat_ne_nil i) hdigits fun _ => h
  rw [Text.valueIn_ofNat, Binary64.withSign, if_neg Bool.false_ne_true] at hread
  have hlength : Text.ofNat i ≠ "length".toText := by
    intro heq
    have hall := Text.all_isDigit_ofNat i
    rw [heq] at hall
    cases hall
  rw [field, if_neg hlength, if_pos (isIndex_iff.mpr ⟨i, rfl⟩), hread]
  rfl

/-- Looking a property up in an array never fails for a name of at most 4300 code points. -/
theorem selects_field (items : List Value) {name : Text} (h : name.length ≤ Number.maxDigits) :
    ∃ found, (Value.array items).field name = .ok found ∧ Selects items name found := by
  by_cases hlength : name = "length".toText
  · subst hlength
    exact ⟨_, rfl, .length⟩
  by_cases hindex : isIndex name = true
  · obtain ⟨i, rfl⟩ := isIndex_iff.mp hindex
    refine ⟨_, field_ofNat items h, ?_⟩
    cases hitem : items[i]? with
    | some item => exact .element hitem
    | none =>
      refine .missing hlength fun j hj heq => ?_
      have hij : i = j := by rw [← Text.valueIn_ofNat i, heq, Text.valueIn_ofNat]
      rw [List.getElem?_eq_none_iff] at hitem
      omega
  · refine ⟨none, ?_, .missing hlength fun i _ heq => hindex (isIndex_iff.mpr ⟨i, heq⟩)⟩
    rw [field, if_neg hlength, if_neg hindex]

end Value

namespace Syntax.Tree

/-- Every spelling of an index finds the same element. A literal that stands for `v` is a number of the
language, it names the property that the numeral of `v` names, and looking that up reads element `v`
or nothing. Only decimals with zeros in front that are longer than what can be read fail. A name of at
most 4300 code points selects the length, an element or nothing from an array. -/
theorem element_of_literal {t digits : Text} {base : Nat} (h : IntegerLiteral t base digits)
    (small : Text.valueIn base digits < 2 ^ 53) (items : List Value) :
    (∀ r, Ends r → number? (t ++ r) = some t) ∧
    (∀ name : Text, name.length ≤ 4300 →
      ∃ found, (Value.array items).field name = .ok found ∧ Value.Selects items name found) ∧
    if base = 10 ∧ 4300 < digits.length then
      Number.ofSpelling t = .error (.tooManyDigits digits.length)
    else
      (∃ n, Number.ofSpelling t = .ok (some n) ∧
        n.spelling = .ok (Text.ofNat (Text.valueIn base digits))) ∧
      ∀ access index : Tree, access.kind = .subscript →
        (access.child? .index).bind unwrapped = some index → index.kind = .number →
        index.text = t →
        ∃ name, access.propertyName = .ok (some name) ∧
          (Value.array items).field name = .ok items[Text.valueIn base digits]? := by
  have hbound : Text.valueIn base digits < Number.exponentBound :=
    small.trans_le (by decide)
  have hread := Number.ofSpelling_literal h hbound
  have hspelling : (Number.int (Text.valueIn base digits)).spelling =
      .ok (Text.ofNat (Text.valueIn base digits)) := by
    rw [Number.spelling, Int.natAbs_natCast, if_pos hbound]
    rfl
  refine ⟨fun r hr => h.number?_append hr, fun name hname => Value.selects_field items hname, ?_⟩
  split
  · rename_i hlong
    rw [hread]
    exact if_pos hlong
  · rename_i hshort
    rw [show Number.maxDigits = 4300 from rfl, if_neg hshort] at hread
    refine ⟨⟨_, hread, hspelling⟩, ?_⟩
    intro access index hkind hindex hnumber htext
    have hlength : (Text.ofNat (Text.valueIn base digits)).length ≤ Number.maxDigits :=
      (Number.length_ofNat_le hbound).trans (by decide)
    refine ⟨_, ?_, Value.field_ofNat items hlength⟩
    rw [propertyName, if_neg (by simp [hkind]), hindex]
    simp only [indexName, hnumber, htext, hread, hspelling]
    rfl

/-- Three spellings of nine: hexadecimal with an underscore, octal of the old kind, and a decimal of
the old kind that has one digit too many. -/
theorem element_of_literal_nine :
    let long := List.replicate 4300 (ofChar '0') ++ "9".toText
    (∃ n, Number.ofSpelling "0X0_9".toText = .ok (some n) ∧ n.spelling = .ok "9".toText) ∧
    (∃ n, Number.ofSpelling "0_11".toText = .ok (some n) ∧ n.spelling = .ok "9".toText) ∧
    IntegerLiteral long 10 long ∧ Text.valueIn 10 long = 9 ∧ number? long = some long ∧
    Number.ofSpelling long = .error (.tooManyDigits 4301) := by
  intro long
  have hhex : IntegerLiteral "0X0_9".toText 16 "09".toText :=
    @IntegerLiteral.based _ 16 "0_9".toText _ (by decide) (.underscore (by decide) (.last (by decide)))
  have hoctal : IntegerLiteral "0_11".toText 8 "011".toText :=
    @IntegerLiteral.oldOctal _ "11".toText (.underscore (by decide) (.digit (by decide)
      (.last (by decide)))) (by decide) (by decide)
  have hlong : IntegerLiteral long 10 long := integerLiteral_zeros 4299
  have hnine : Text.valueIn 10 long = 9 := Text.valueIn_replicate_zero_append 10 4300 "9".toText
  have hlength : long.length = 4301 := by
    rw [List.length_append, List.length_replicate]
    rfl
  clear_value long
  obtain ⟨hwhole, -, herror⟩ := element_of_literal hlong (by rw [hnine]; decide) []
  refine ⟨?_, ?_, hlong, hnine, ?_, ?_⟩
  · exact ((if_neg (by decide)).mp (element_of_literal hhex (by decide) []).2.2).1
  · exact ((if_neg (by decide)).mp (element_of_literal hoctal (by decide) []).2.2).1
  · rw [← hwhole [] (by simp [Ends]), List.append_nil]
  · rwa [if_pos ⟨rfl, by rw [hlength]; decide⟩, hlength] at herror

end Syntax.Tree

end Unproxy
