import Mathlib
import Unproxy.Proofs.Json.Grammar

/-!
# Unproxy.Proofs.Json.Reading

The reader accepts every text of the grammar and gives the value it spells.

Each part of the reader is shown to take exactly the spelling of its phrase from
the head of a longer text. A number is the only phrase that does not show where it
ends, so what follows a value must not go on with digits, a point or an exponent.
The bound on the nesting is counted in code points: a value of a spelling of `n`
code points is read within `2 * n` steps.

Main statements:

* `Json.readString_quoted`: strings;
* `Json.readNumber_integer`: integers;
* `Json.read_spelled`: whole texts.
-/

namespace Unproxy.Json

open CodePoint (ofChar)

/-! ### Places -/

theorem Place.skip_append (s rest : Text) (position : Nat) :
    Place.skip ⟨s ++ rest, position⟩ s.length = ⟨rest, position + s.length⟩ := by
  simp [Place.skip]

theorem Place.skip_one (c : CodePoint) (rest : Text) (position : Nat) :
    Place.skip ⟨c :: rest, position⟩ 1 = ⟨rest, position + 1⟩ := rfl

/-- A text that does not begin with white space. -/
def Solid (t : Text) : Prop := ∀ c rest, t = c :: rest → Place.isBlank c = false

theorem solid_cons {c : CodePoint} {t : Text} (h : Place.isBlank c = false) : Solid (c :: t) := by
  intro d rest hd
  cases hd
  exact h

theorem Place.blank_append {b t : Text} (hb : Blank b) (h : Solid t) (position : Nat) :
    Place.blank ⟨b ++ t, position⟩ = ⟨t, position + b.length⟩ := by
  have htake : (b ++ t).takeWhile Place.isBlank = b := by
    rw [List.takeWhile_append_of_pos (List.all_eq_true.mp hb)]
    cases t with
    | nil => simp
    | cons c t => simp [h c t rfl]
  rw [Place.blank]
  simp only [htake]
  exact Place.skip_append b t position

/-! ### Strings -/

theorem FourHex.fourHex? {unit : Nat} {digits : Text} (h : FourHex unit digits) (rest : Text) :
    Json.fourHex? (digits ++ rest) = some unit := by
  have htake : (digits ++ rest).take 4 = digits := by
    rw [← h.length, List.take_left]
  simp only [Json.fourHex?, htake, h.length, h.isHex, h.value, decide_true, Bool.and_self, if_true]

theorem FourHex.drop {unit : Nat} {digits : Text} (h : FourHex unit digits) (rest : Text) :
    (digits ++ rest).drop 4 = rest := by
  rw [← h.length, List.drop_left]

theorem lowHalf?_unitEscape {unit : Nat} {digits : Text} (h : FourHex unit digits)
    (spelling rest : Text) (position : Nat) :
    lowHalf? (unitEscape digits spelling ++ ofChar '"' :: rest) position =
      .ok (if Utf16.isLow unit then some unit else none) := by
  have hlength : 4 < (digits ++ (spelling ++ ofChar '"' :: rest)).length := by
    simp only [List.length_append, h.length, List.length_cons]
    omega
  simp only [unitEscape, List.cons_append, List.append_assoc, lowHalf?, hlength, h.fourHex?,
    decide_true, Bool.and_self, if_true]

theorem lowHalf?_of_ne_backslash {c : CodePoint} (h : c ≠ ofChar '\\') (t : Text)
    (position : Nat) : lowHalf? (c :: t) position = .ok none := by
  cases t with
  | nil => rfl
  | cons d t => simp [lowHalf?, h]

theorem ne_u_of_simpleEscape? {d c : CodePoint} (h : simpleEscape? d = some c) :
    d ≠ ofChar 'u' := by
  rintro rfl
  have hnone : simpleEscape? (ofChar 'u') = none := by decide
  rw [hnone] at h
  cases h

theorem not_isLow_of_isHigh {unit : Nat} (h : Utf16.isHigh unit = true) :
    Utf16.isLow unit = false := by
  simp only [Utf16.isHigh, Utf16.isLow, Bool.and_eq_true, Bool.and_eq_false_iff,
    decide_eq_true_eq, decide_eq_false_iff_not] at h ⊢
  omega

/-- Where no low half is escaped, none is found. -/
theorem lowHalf?_none {value spelling : Text} (h : StringBody value spelling)
    (hlow : ¬BeginsLow spelling) (rest : Text) (position : Nat) :
    lowHalf? (spelling ++ ofChar '"' :: rest) position = .ok none := by
  cases h with
  | nil => exact lowHalf?_of_ne_backslash (by decide) rest position
  | plain control quote backslash body => exact lowHalf?_of_ne_backslash backslash _ position
  | letter escape body =>
    simp [lowHalf?, ne_u_of_simpleEscape? escape]
  | @unit unit digits value spelling escape lone body =>
    rw [lowHalf?_unitEscape escape]
    cases hunit : Utf16.isLow unit with
    | true => exact absurd ⟨unit, digits, spelling, escape, hunit, rfl⟩ hlow
    | false => rfl
  | pair first second isHigh isLow body =>
    rw [lowHalf?_unitEscape first, not_isLow_of_isHigh isHigh]
    rfl

section Steps

variable (start n position : Nat) (reversed : Text)

/-! Each form of a code point inside a string takes one step. -/

theorem readStringRest_plain {c : CodePoint} (control : 0x20 ≤ c.val)
    (quote : c ≠ ofChar '"') (backslash : c ≠ ofChar '\\') (t : Text) :
    readStringRest start (n + 1) ⟨c :: t, position⟩ reversed =
      readStringRest start n ⟨t, position + 1⟩ (c :: reversed) := by
  simp only [readStringRest, if_neg quote, if_neg backslash, if_neg (Nat.not_lt.mpr control),
    Place.skip_one]

theorem readStringRest_letter {d c : CodePoint} (escape : simpleEscape? d = some c) (t : Text) :
    readStringRest start (n + 1) ⟨'\\' :: d :: t, position⟩ reversed =
      readStringRest start n ⟨t, position + 2⟩ (c :: reversed) := by
  have hquote : ofChar '\\' ≠ ofChar '"' := by decide
  simp only [readStringRest, if_neg hquote, if_true, if_neg (ne_u_of_simpleEscape? escape), escape,
    Place.skip, List.drop_succ_cons, List.drop_zero]

theorem readStringRest_unit {unit : Nat} {digits t : Text} (escape : FourHex unit digits)
    (ht : t ≠ []) (lone : Utf16.isHigh unit = true → ∀ p, lowHalf? t p = .ok none) :
    readStringRest start (n + 1) ⟨unitEscape digits t, position⟩ reversed =
      readStringRest start n ⟨t, position + 6⟩ (CodePoint.ofNat unit :: reversed) := by
  have hquote : ofChar '\\' ≠ ofChar '"' := by decide
  have hlength : ¬((digits ++ t).length ≤ 4) := by
    have := List.length_pos_iff.mpr ht
    rw [List.length_append, escape.length]
    omega
  have hskip : Place.skip ⟨unitEscape digits t, position⟩ 6 = ⟨t, position + 6⟩ := by
    simp only [Place.skip, unitEscape, List.drop_succ_cons, escape.drop]
  rw [readStringRest]
  simp only [unitEscape, if_neg hquote, if_true, escape.fourHex?, if_neg hlength, escape.drop]
  rw [← unitEscape, hskip]
  cases hhigh : Utf16.isHigh unit with
  | true => simp only [if_true, lone hhigh]
  | false => simp only [Bool.false_eq_true, if_false]

theorem readStringRest_pair {high low : Nat} {digits digits' : Text} (first : FourHex high digits)
    (second : FourHex low digits') (isHigh : Utf16.isHigh high = true)
    (isLow : Utf16.isLow low = true) (spelling rest : Text) :
    readStringRest start (n + 1)
        ⟨unitEscape digits (unitEscape digits' spelling) ++ ofChar '"' :: rest, position⟩
        reversed =
      readStringRest start n ⟨spelling ++ ofChar '"' :: rest, position + 12⟩
        (Utf16.pair high low :: reversed) := by
  have hquote : ofChar '\\' ≠ ofChar '"' := by decide
  have happend : unitEscape digits (unitEscape digits' spelling) ++ ofChar '"' :: rest =
      unitEscape digits (unitEscape digits' spelling ++ ofChar '"' :: rest) := by
    simp only [unitEscape, List.cons_append, List.append_assoc]
  have hlength :
      ¬((digits ++ (unitEscape digits' spelling ++ ofChar '"' :: rest)).length ≤ 4) := by
    simp only [List.length_append, first.length, List.length_cons]
    omega
  have hskip : Place.skip
      ⟨unitEscape digits (unitEscape digits' spelling ++ ofChar '"' :: rest), position⟩
        12 = ⟨spelling ++ ofChar '"' :: rest, position + 12⟩ := by
    have hdrop :
        (unitEscape digits (unitEscape digits' spelling ++ ofChar '"' :: rest)).drop
          (6 + 6) = spelling ++ ofChar '"' :: rest := by
      rw [← List.drop_drop]
      simp only [unitEscape, List.drop_succ_cons, first.drop, List.cons_append, List.append_assoc,
        second.drop]
    rw [Place.skip]
    simp only [hdrop]
  rw [happend, readStringRest]
  simp only [unitEscape, if_neg hquote, if_true, first.fourHex?, first.drop, isHigh]
  rw [← unitEscape, ← unitEscape, lowHalf?_unitEscape second, isLow]
  simp only [if_true, hskip, if_neg hlength]

end Steps

/-- The reader takes the inside of a string and its closing quote. -/
theorem readStringRest_body {value spelling : Text} (h : StringBody value spelling)
    (start : Nat) (rest : Text) :
    ∀ (n position : Nat) (reversed : Text), spelling.length < n →
      readStringRest start n ⟨spelling ++ ofChar '"' :: rest, position⟩ reversed =
        .ok (reversed.reverse ++ value, ⟨rest, position + spelling.length + 1⟩) := by
  induction h with
  | nil =>
    intro n position reversed hn
    obtain ⟨n, rfl⟩ := Nat.exists_eq_add_one_of_ne_zero (Nat.ne_of_gt hn)
    simp [readStringRest, Place.skip]
  | plain control quote backslash body ih =>
    intro n position reversed hn
    obtain ⟨n, rfl⟩ := Nat.exists_eq_add_one_of_ne_zero (Nat.ne_of_gt (Nat.zero_lt_of_lt hn))
    rw [List.length_cons] at hn
    rw [List.cons_append, readStringRest_plain start n position reversed control quote backslash,
      ih n _ _ (by omega)]
    simp only [List.reverse_cons, List.append_assoc, List.singleton_append, List.length_cons]
    congr 3
    omega
  | letter escape body ih =>
    intro n position reversed hn
    obtain ⟨n, rfl⟩ := Nat.exists_eq_add_one_of_ne_zero (Nat.ne_of_gt (Nat.zero_lt_of_lt hn))
    rw [List.length_cons, List.length_cons] at hn
    rw [List.cons_append, List.cons_append,
      readStringRest_letter start n position reversed escape, ih n _ _ (by omega)]
    simp only [List.reverse_cons, List.append_assoc, List.singleton_append, List.length_cons]
    congr 3
    omega
  | @unit unit digits value spelling escape lone body ih =>
    intro n position reversed hn
    obtain ⟨n, rfl⟩ := Nat.exists_eq_add_one_of_ne_zero (Nat.ne_of_gt (Nat.zero_lt_of_lt hn))
    have hlength : (unitEscape digits spelling).length = spelling.length + 6 := by
      simp only [unitEscape, List.length_cons, List.length_append, escape.length]
      omega
    have happend : unitEscape digits spelling ++ ofChar '"' :: rest =
        unitEscape digits (spelling ++ ofChar '"' :: rest) := by
      simp only [unitEscape, List.cons_append, List.append_assoc]
    rw [happend, readStringRest_unit start n position reversed escape (by simp)
      fun hhigh p => lowHalf?_none body (lone hhigh) rest p, ih n _ _ (by omega), hlength]
    simp only [List.reverse_cons, List.append_assoc, List.singleton_append]
    congr 3
    omega
  | @pair high low digits digits' value spelling first second isHigh isLow body ih =>
    intro n position reversed hn
    obtain ⟨n, rfl⟩ := Nat.exists_eq_add_one_of_ne_zero (Nat.ne_of_gt (Nat.zero_lt_of_lt hn))
    have hlength : (unitEscape digits (unitEscape digits' spelling)).length =
        spelling.length + 12 := by
      simp only [unitEscape, List.length_cons, List.length_append, first.length, second.length]
      omega
    rw [readStringRest_pair start n position reversed first second isHigh isLow,
      ih n _ _ (by omega), hlength]
    simp only [List.reverse_cons, List.append_assoc, List.singleton_append]
    congr 3
    omega

/-- A text in quotes is read as the text. -/
theorem readString_quoted {value spelling : Text} (h : StringBody value spelling) (rest : Text)
    (position : Nat) :
    readString ⟨quoted spelling ++ rest, position⟩ =
      .ok (value, ⟨rest, position + (quoted spelling).length⟩) := by
  have happend : quoted spelling ++ rest =
      ofChar '"' :: (spelling ++ ofChar '"' :: rest) := by
    simp [quoted]
  have hlength : (quoted spelling).length = spelling.length + 2 := by
    simp [quoted]
  rw [readString, happend, Place.skip_one, readStringRest_body h position rest _ _ _
    (by simp only [List.length_cons, List.length_append]; omega), hlength]
  simp only [List.reverse_nil, List.nil_append]
  congr 3
  omega

/-! ### Numbers -/

/-- A text that cannot go on with a number. -/
def NumberEnds (t : Text) : Prop :=
  ∀ c rest, t = c :: rest → c.isDigit = false ∧ c ≠ ofChar '.' ∧
    c ≠ ofChar 'e' ∧ c ≠ ofChar 'E'

theorem NumberEnds.head {t : Text} (h : NumberEnds t) (c : CodePoint) (hc : c ∈ t.head?) :
    c.isDigit = false ∧ c ≠ ofChar '.' := by
  obtain ⟨rest, rfl⟩ := List.head?_eq_some_iff.mp hc
  exact ⟨(h c rest rfl).1, (h c rest rfl).2.1⟩

theorem integerPart_append {digits rest : Text} (hne : digits ≠ [])
    (h : digits.all CodePoint.isDigit = true)
    (zero : digits.head? = some (ofChar '0') → digits.length = 1)
    (hrest : ∀ c ∈ rest.head?, c.isDigit = false) : integerPart (digits ++ rest) = digits := by
  cases digits with
  | nil => exact absurd rfl hne
  | cons c digits =>
    rw [List.all_cons, Bool.and_eq_true] at h
    simp only [List.cons_append, integerPart]
    by_cases hc : c = ofChar '0'
    · have hnil : digits = [] := by
        simpa using zero (by rw [hc]; rfl)
      rw [if_pos hc, hnil]
    · rw [if_neg hc, if_pos h.1, Decimal.takeWhile_isDigit h.2 hrest]

theorem fraction_of_ne_point {t : Text} (h : ∀ c ∈ t.head?, c ≠ ofChar '.') :
    fraction t = [] := by
  cases t with
  | nil => rfl
  | cons c t => simp [fraction, h c rfl]

theorem exponent_of_numberEnds {t : Text} (h : NumberEnds t) : exponent t = [] := by
  cases t with
  | nil => rfl
  | cons c t => simp [exponent, (h c t rfl).2.2.1, (h c t rfl).2.2.2]

theorem ne_minus_of_isDigit {c : CodePoint} (h : c.isDigit = true) :
    c ≠ ofChar '-' := by
  rintro rfl
  exact absurd h (by decide)

/-- The sign of a number is found and taken off. -/
theorem sign_withSign (negative : Bool) {digits : Text} (hne : digits ≠ [])
    (h : digits.all CodePoint.isDigit = true) (rest : Text) :
    ((Binary64.withSign negative digits ++ rest).take 1).filter (· = ofChar '-') =
        Binary64.withSign negative [] ∧
      (Binary64.withSign negative digits ++ rest).drop
        (Binary64.withSign negative ([] : Text)).length = digits ++ rest := by
  cases negative with
  | true => exact ⟨rfl, rfl⟩
  | false =>
    cases digits with
    | nil => exact absurd rfl hne
    | cons c digits =>
      rw [List.all_cons, Bool.and_eq_true] at h
      refine ⟨?_, rfl⟩
      simp [Binary64.withSign, ne_minus_of_isDigit h.1]

/-- A number is read as far as its integer part, its fraction and its exponent go. -/
theorem readNumber_parts (negative : Bool) {whole tail rest : Text} {n : Number}
    (nonempty : whole ≠ []) (isDigits : whole.all CodePoint.isDigit = true)
    (zero : whole.head? = some (ofChar '0') → whole.length = 1)
    (hhead : ∀ c ∈ (tail ++ rest).head?, c.isDigit = false)
    (htail : fraction (tail ++ rest) ++
      exponent ((tail ++ rest).drop (fraction (tail ++ rest)).length) = tail)
    (hread : (if tail.isEmpty then
        (Number.readInt 10 (Binary64.withSign negative whole ++ tail)).map .int
      else (Number.readFloat (Binary64.withSign negative whole ++ tail)).map .float) =
        (.ok n : Except Number.Error Number))
    (position : Nat) :
    readNumber ⟨Binary64.withSign negative whole ++ (tail ++ rest), position⟩ =
      .ok (.number n, ⟨rest, position + (Binary64.withSign negative whole ++ tail).length⟩) := by
  obtain ⟨hsign, hunsigned⟩ := sign_withSign negative nonempty isDigits (tail ++ rest)
  have hwhole := integerPart_append nonempty isDigits zero hhead
  have hempty : whole.isEmpty = false := by simpa using nonempty
  have hspelling :
      Binary64.withSign negative ([] : Text) ++ whole = Binary64.withSign negative whole := by
    cases negative <;> rfl
  simp only [readNumber, hsign, hunsigned, hwhole, hempty, List.drop_left, htail, hspelling, hread,
    Bool.false_eq_true, if_false]
  rw [← List.append_assoc, Place.skip_append]

/-- An integer is read as far as its digits go. -/
theorem readNumber_integer {i : Int} {s : Text} (h : IntegerSpelling i s) {rest : Text}
    (hrest : NumberEnds rest) (position : Nat) :
    readNumber ⟨s ++ rest, position⟩ = .ok (.number (.int i), ⟨rest, position + s.length⟩) := by
  obtain ⟨negative, nonempty, isDigits, zero, short⟩ := h
  rename_i digits
  have hread : Number.readInt 10 (Binary64.withSign negative digits) =
      .ok (Binary64.signed negative (Text.valueIn 10 digits)) := by
    refine Number.readInt_digits negative nonempty ?_ fun _ => short
    rw [Text.all_isDigitOf_ten, isDigits]
  have htail : fraction rest ++ exponent (rest.drop (fraction rest).length) = [] := by
    rw [fraction_of_ne_point fun c hc => (hrest.head c hc).2]
    exact exponent_of_numberEnds hrest
  have hparts := @readNumber_parts negative digits [] rest _ nonempty isDigits zero
    (fun c hc => (hrest.head c hc).1) htail (by rw [List.append_nil, hread]; rfl) position
  rwa [List.append_nil] at hparts

/-! ### Values -/

/-- The code points a value begins with. -/
def isOpener (c : CodePoint) : Bool :=
  c.isDigit || [ofChar '"', '[', '\x7b', 'n', 't', 'f', '-', 'N', 'I'].contains c

theorem isOpener_cases {c : CodePoint} (h : isOpener c = true) :
    Place.isBlank c = false ∧ c ≠ ofChar ']' := by
  rw [isOpener, Bool.or_eq_true] at h
  rcases h with h | h
  · simp only [CodePoint.isDigit, Bool.and_eq_true, decide_eq_true_eq] at h
    constructor
    · simp only [Place.isBlank, Bool.or_eq_false_iff, beq_eq_false_iff_ne, ne_eq]
      omega
    · rintro rfl
      exact absurd h (by decide)
  · simp only [List.contains_cons, List.contains_nil, Bool.or_false, Bool.or_eq_true,
      beq_iff_eq] at h
    rcases h with rfl | rfl | rfl | rfl | rfl | rfl | rfl | rfl | rfl <;> decide

/-- What may follow an item: a comma, a closing bracket or nothing. -/
def Follows (t : Text) : Prop :=
  ∀ c rest, t = c :: rest →
    c = ofChar ',' ∨ c = ofChar ']' ∨ c = ofChar '\x7d'

theorem Follows.solid {t : Text} (h : Follows t) : Solid t := by
  intro c rest hc
  rcases h c rest hc with rfl | rfl | rfl <;> decide

theorem Follows.numberEnds {b t : Text} (hb : Blank b) (h : Follows t) : NumberEnds (b ++ t) := by
  intro c rest hc
  cases b with
  | nil => rcases h c rest hc with rfl | rfl | rfl <;> decide
  | cons d b =>
    cases hc
    have hblank : Place.isBlank c = true := List.all_eq_true.mp hb c List.mem_cons_self
    simp only [Place.isBlank, Bool.or_eq_true, beq_iff_eq] at hblank
    refine ⟨?_, ?_, ?_, ?_⟩
    · simp only [CodePoint.isDigit, Bool.and_eq_false_iff, decide_eq_false_iff_not]
      omega
    all_goals
      rintro rfl
      exact absurd hblank (by decide)

theorem follows_cons {c : CodePoint} {t : Text}
    (h : c = ofChar ',' ∨ c = ofChar ']' ∨ c = ofChar '\x7d') :
    Follows (c :: t) := by
  intro d rest hd
  cases hd
  exact h

/-- A phrase is read from the head of a text, together with the white space and the
bracket that the reader takes with it. -/
def Reads : Phrase → Text → Prop
  | .value v, s =>
    (∃ c t, s = c :: t ∧ isOpener c = true) ∧
      ∀ n rest position, 2 * s.length ≤ n → NumberEnds rest →
        readValue n ⟨s ++ rest, position⟩ = .ok (v, ⟨rest, position + s.length⟩)
  | .item v, s =>
    ∀ n rest position, 2 * s.length ≤ n → Follows rest →
      ((Place.blank ⟨s ++ rest, position⟩).at? ']' = false) ∧
      ∃ p, readValue n (Place.blank ⟨s ++ rest, position⟩) = .ok (v, p) ∧
        p.blank = ⟨rest, position + s.length⟩
  | .items vs, s =>
    ∀ n rest position, 2 * s.length + 1 ≤ n →
      ((Place.blank ⟨s ++ ofChar ']' :: rest, position⟩).at? ']' = false) ∧
      readItems n (Place.blank ⟨s ++ ofChar ']' :: rest, position⟩) =
        .ok (vs, ⟨rest, position + s.length + 1⟩)
  | .member name v, s =>
    ∀ n rest position, 2 * s.length ≤ n → Follows rest →
      ∃ p q, (Place.blank ⟨s ++ rest, position⟩).at? '"' = true ∧
        readString (Place.blank ⟨s ++ rest, position⟩) = .ok (name, p) ∧
        p.blank.at? ':' = true ∧
        readValue n (p.blank.skip 1).blank = .ok (v, q) ∧
        q.blank = ⟨rest, position + s.length⟩
  | .members ms, s =>
    ∀ n rest position, 2 * s.length + 1 ≤ n →
      ((Place.blank ⟨s ++ ofChar '\x7d' :: rest, position⟩).at? '"' = true) ∧
      readMembers n (Place.blank ⟨s ++ ofChar '\x7d' :: rest, position⟩) =
        .ok (ms, ⟨rest, position + s.length + 1⟩)

theorem at?_cons (c : CodePoint) (d : Char) (t : Text) (position : Nat) :
    Place.at? ⟨c :: t, position⟩ d = decide (c = ofChar d) := by
  simp [Place.at?, Bool.beq_eq_decide_eq]

/-- No two characters come next at once. -/
theorem at?_of_at? {p : Place} {c d : Char} (h : p.at? c = true) (hne : c ≠ d) :
    p.at? d = false := by
  rw [Place.at?, beq_iff_eq] at h
  rw [Place.at?, h, beq_eq_false_iff_ne, ne_eq, Option.some.injEq, CodePoint.ofChar_inj]
  exact hne

/-! ### Scalars -/

/-- A value that is read in one step whatever the bound. -/
theorem reads_of_step {v : Value} {c : CodePoint} {t : Text} (opener : isOpener c = true)
    (step : ∀ n rest position, NumberEnds rest →
      readValue (n + 1) ⟨c :: t ++ rest, position⟩ =
        .ok (v, ⟨rest, position + (c :: t).length⟩)) :
    Reads (.value v) (c :: t) := by
  refine ⟨⟨c, t, rfl, opener⟩, ?_⟩
  intro n rest position hn hrest
  obtain ⟨n, rfl⟩ : ∃ k, n = k + 1 := ⟨n - 1, by rw [List.length_cons] at hn; omega⟩
  exact step n rest position hrest

theorem reads_null : Reads (.value .null) "null".toText :=
  reads_of_step (by decide) fun n rest position _ => by rw [readValue]; rfl

theorem reads_true : Reads (.value (.bool true)) "true".toText :=
  reads_of_step (by decide) fun n rest position _ => by rw [readValue]; rfl

theorem reads_false : Reads (.value (.bool false)) "false".toText :=
  reads_of_step (by decide) fun n rest position _ => by rw [readValue]; rfl

/-- Numbers begin with a digit, or with a sign and a digit. -/
def BeginsNumber (s : Text) : Prop :=
  ∃ c t, s = c :: t ∧ (c.isDigit = true ∨
    c = ofChar '-' ∧ ∃ d r, t = d :: r ∧ d.isDigit = true)

theorem beginsNumber_withSign (negative : Bool) {digits : Text} (nonempty : digits ≠ [])
    (isDigits : digits.all CodePoint.isDigit = true) (rest : Text) :
    BeginsNumber (Binary64.withSign negative digits ++ rest) := by
  obtain ⟨d, digits, rfl⟩ := List.exists_cons_of_ne_nil nonempty
  have hd : d.isDigit = true := List.all_eq_true.mp isDigits d List.mem_cons_self
  cases negative with
  | true => exact ⟨_, _, rfl, .inr ⟨rfl, d, digits ++ rest, rfl, hd⟩⟩
  | false => exact ⟨_, _, rfl, .inl hd⟩

theorem ne_of_isDigit {c d : CodePoint} (hc : c.isDigit = true) (hd : d.isDigit = false) :
    d ≠ c := by
  rintro rfl
  rw [hc] at hd
  cases hd

theorem isPrefixOf_cons_ne {a c : CodePoint} (h : a ≠ c) (w t : Text) :
    (a :: w).isPrefixOf (c :: t) = false := by
  simp [List.isPrefixOf, h]

/-- No word begins with a digit. -/
theorem words_find?_digit {c : CodePoint} (hc : c.isDigit = true) (t : Text) :
    (words.find? fun (word, _) => word.isPrefixOf (c :: t)) = none := by
  rw [List.find?_eq_none]
  intro x hx
  simp only [words, List.mem_cons, List.not_mem_nil, or_false] at hx
  rcases hx with rfl | rfl | rfl | rfl | rfl | rfl <;>
    exact Bool.eq_false_iff.mp (isPrefixOf_cons_ne (ne_of_isDigit hc (by decide)) _ _)

/-- No word begins like a number. -/
theorem words_find?_number {s : Text} (h : BeginsNumber s) (rest : Text) :
    (words.find? fun (word, _) => word.isPrefixOf (s ++ rest)) = none := by
  obtain ⟨c, t, rfl, hc | ⟨rfl, d, r, rfl, hd⟩⟩ := h
  · exact words_find?_digit hc (t ++ rest)
  · rw [List.find?_eq_none]
    intro x hx
    have hinfinity : (ofChar 'I') ≠ d := ne_of_isDigit hd (by decide)
    simp only [words, List.mem_cons, List.not_mem_nil, or_false] at hx
    rcases hx with rfl | rfl | rfl | rfl | rfl | rfl
    iterate 5
      exact Bool.eq_false_iff.mp (isPrefixOf_cons_ne (by decide) _ _)
    refine Bool.eq_false_iff.mp ?_
    exact (Bool.and_eq_false_iff.mpr (.inr (isPrefixOf_cons_ne hinfinity _ _)))

theorem reads_number {n : Number} {s : Text} (hs : BeginsNumber s)
    (hread : ∀ {rest : Text}, NumberEnds rest → ∀ position,
      readNumber ⟨s ++ rest, position⟩ = .ok (.number n, ⟨rest, position + s.length⟩)) :
    Reads (.value (.number n)) s := by
  have hfind := words_find?_number hs
  have hnumber : ∀ {rest : Text}, NumberEnds rest → ∀ position, readScalar ⟨s ++ rest, position⟩ =
      .ok (.number n, ⟨rest, position + s.length⟩) := by
    intro rest hrest position
    rw [readScalar, hfind]
    exact hread hrest position
  obtain ⟨c, t, rfl, hc⟩ := hs
  have hne : c ≠ ofChar '"' ∧ c ≠ ofChar '[' ∧ c ≠ ofChar '\x7b' := by
    rcases hc with hc | ⟨rfl, -⟩
    · exact ⟨(ne_of_isDigit hc (by decide)).symm, (ne_of_isDigit hc (by decide)).symm,
        (ne_of_isDigit hc (by decide)).symm⟩
    · decide
  have hopener : isOpener c = true := by
    rcases hc with hc | ⟨rfl, -⟩
    · simp [isOpener, hc]
    · decide
  refine reads_of_step hopener fun n rest position hrest => ?_
  rw [readValue, ← hnumber hrest position]
  simp only [List.cons_append, at?_cons, hne.1, hne.2.1, hne.2.2, decide_false, Bool.false_eq_true,
    if_false]

theorem reads_integer {i : Int} {s : Text} (h : IntegerSpelling i s) :
    Reads (.value (.number (.int i))) s := by
  refine reads_number ?_ fun hrest position => readNumber_integer h hrest position
  obtain ⟨negative, nonempty, isDigits, -, -⟩ := h
  have hbegins := beginsNumber_withSign negative nonempty isDigits []
  rwa [List.append_nil] at hbegins

theorem reads_string {value spelling : Text} (h : StringBody value spelling) :
    Reads (.value (.text value)) (quoted spelling) := by
  refine reads_of_step (by decide) fun n rest position _ => ?_
  rw [readValue, ← quoted, readString_quoted h rest position]
  simp [quoted, at?_cons, Except.map]

/-! ### Items and members -/

theorem reads_item {v : Value} {b s b' : Text} (before : Blank b) (value : Reads (.value v) s)
    (behind : Blank b') : Reads (.item v) (b ++ (s ++ b')) := by
  intro n rest position hn hrest
  obtain ⟨⟨c, t, rfl, hc⟩, hread⟩ := value
  obtain ⟨hblank, hbracket⟩ := isOpener_cases hc
  have hplace : Place.blank ⟨b ++ (c :: t ++ b') ++ rest, position⟩ =
      ⟨c :: t ++ (b' ++ rest), position + b.length⟩ := by
    rw [List.append_assoc, List.append_assoc]
    exact Place.blank_append before (solid_cons hblank) position
  simp only [List.length_append] at hn
  refine ⟨?_, ⟨b' ++ rest, position + b.length + (c :: t).length⟩, ?_, ?_⟩
  · rw [hplace, List.cons_append, at?_cons, decide_eq_false hbracket]
  · rw [hplace]
    exact hread n (b' ++ rest) _ (by omega) (hrest.numberEnds behind)
  · rw [Place.blank_append behind hrest.solid]
    simp only [List.length_append, Nat.add_assoc]

theorem reads_lastItem {v : Value} {s : Text} (item : Reads (.item v) s) :
    Reads (.items [v]) s := by
  intro n rest position hn
  obtain ⟨n, rfl⟩ : ∃ k, n = k + 1 := ⟨n - 1, by omega⟩
  obtain ⟨hbracket, p, hread, hp⟩ := item n (ofChar ']' :: rest) position (by omega)
    (follows_cons (.inr (.inl rfl)))
  refine ⟨hbracket, ?_⟩
  rw [readItems, hread]
  simp only [hp, at?_cons, decide_true, if_true, Place.skip_one]

theorem reads_items {v : Value} {vs : List Value} {s s' : Text} (item : Reads (.item v) s)
    (others : Reads (.items vs) s') :
    Reads (.items (v :: vs)) (s ++ ofChar ',' :: s') := by
  intro n rest position hn
  obtain ⟨n, rfl⟩ : ∃ k, n = k + 1 := ⟨n - 1, by omega⟩
  simp only [List.length_append, List.length_cons] at hn
  obtain ⟨hbracket, p, hread, hp⟩ := item n
    (ofChar ',' :: (s' ++ ofChar ']' :: rest)) position (by omega)
    (follows_cons (.inl rfl))
  obtain ⟨-, hothers⟩ := others n rest (position + s.length + 1) (by omega)
  have hcomma : ofChar ',' ≠ ofChar ']' := by decide
  simp only [List.append_assoc, List.cons_append]
  refine ⟨hbracket, ?_⟩
  rw [readItems, hread]
  simp only [hp, at?_cons, hcomma, decide_false, decide_true, Bool.false_eq_true, if_false, if_true,
    Place.skip_one, hothers, Except.map, List.length_append, List.length_cons]
  congr 3
  omega

theorem reads_emptyArray {b : Text} (blank : Blank b) :
    Reads (.value (.array [])) ('[' :: (b ++ [ofChar ']'])) := by
  refine reads_of_step (by decide) fun n rest position _ => ?_
  have hplace : Place.blank ⟨b ++ [ofChar ']'] ++ rest, position + 1⟩ =
      ⟨ofChar ']' :: rest, position + 1 + b.length⟩ := by
    rw [List.append_assoc]
    exact Place.blank_append blank (solid_cons (by decide)) (position + 1)
  have hquote : ofChar '[' ≠ ofChar '"' := by decide
  rw [readValue]
  simp only [List.cons_append, at?_cons, hquote, decide_false, decide_true, Bool.false_eq_true,
    if_false, if_true, Place.skip_one, hplace, List.length_cons, List.length_append,
    List.length_nil]
  congr 3
  omega

theorem reads_array {vs : List Value} {s : Text} (items : Reads (.items vs) s) :
    Reads (.value (.array vs)) ('[' :: (s ++ [ofChar ']'])) := by
  refine ⟨⟨_, _, rfl, by decide⟩, ?_⟩
  intro n rest position hn _
  simp only [List.length_append, List.length_cons, List.length_nil] at hn
  obtain ⟨n, rfl⟩ : ∃ k, n = k + 1 := ⟨n - 1, by omega⟩
  obtain ⟨hbracket, hread⟩ := items n rest (position + 1) (by omega)
  have happend : s ++ [ofChar ']'] ++ rest = s ++ ofChar ']' :: rest := by
    rw [List.append_assoc, List.singleton_append]
  have hquote : ofChar '[' ≠ ofChar '"' := by decide
  rw [readValue]
  simp only [List.cons_append, happend, at?_cons, hquote, decide_false, decide_true,
    Bool.false_eq_true, if_false, if_true, Place.skip_one, hbracket, hread, Except.map,
    List.length_cons, List.length_append, List.length_nil]
  congr 3
  omega

theorem reads_member {name : Text} {v : Value} {b n b' s : Text} (before : Blank b)
    (body : StringBody name n) (behind : Blank b') (item : Reads (.item v) s) :
    Reads (.member name v) (b ++ (quoted n ++ (b' ++ ofChar ':' :: s))) := by
  intro k rest position hk hrest
  simp only [List.length_append, List.length_cons] at hk
  have hplace : Place.blank
      ⟨b ++ (quoted n ++ (b' ++ ofChar ':' :: s)) ++ rest, position⟩ =
      ⟨quoted n ++ (b' ++ ofChar ':' :: (s ++ rest)), position + b.length⟩ := by
    simp only [List.append_assoc, List.cons_append]
    exact Place.blank_append before (solid_cons (by decide)) position
  have hcolon : Place.blank ⟨b' ++ ofChar ':' :: (s ++ rest),
      position + b.length + (quoted n).length⟩ =
      ⟨ofChar ':' :: (s ++ rest),
        position + b.length + (quoted n).length + b'.length⟩ :=
    Place.blank_append behind (solid_cons (by decide)) _
  obtain ⟨-, q, hread, hq⟩ := item k rest
    (position + b.length + (quoted n).length + b'.length + 1) (by omega) hrest
  refine ⟨⟨b' ++ ofChar ':' :: (s ++ rest), position + b.length + (quoted n).length⟩, q,
    ?_, ?_, ?_, ?_, ?_⟩
  · rw [hplace]
    simp [quoted, at?_cons]
  · rw [hplace]
    exact readString_quoted body _ _
  · rw [hcolon, at?_cons, decide_eq_true rfl]
  · rw [hcolon, Place.skip_one]
    exact hread
  · rw [hq]
    simp only [List.length_append, List.length_cons]
    congr 1
    omega

theorem reads_lastMember {name : Text} {v : Value} {s : Text} (member : Reads (.member name v) s) :
    Reads (.members [(.text name, v)]) s := by
  intro n rest position hn
  obtain ⟨n, rfl⟩ : ∃ k, n = k + 1 := ⟨n - 1, by omega⟩
  obtain ⟨p, q, hquote, hname, hcolon, hread, hq⟩ := member n (ofChar '\x7d' :: rest)
    position (by omega) (follows_cons (.inr (.inr rfl)))
  refine ⟨hquote, ?_⟩
  rw [readMembers]
  simp only [hquote, hname, hcolon, hread, hq, at?_cons, decide_true, Bool.not_true,
    Bool.false_eq_true, if_false, if_true, Place.skip_one]

theorem reads_members {name : Text} {v : Value} {ms : List (Key × Value)} {s s' : Text}
    (member : Reads (.member name v) s) (others : Reads (.members ms) s') :
    Reads (.members ((.text name, v) :: ms)) (s ++ ofChar ',' :: s') := by
  intro n rest position hn
  obtain ⟨n, rfl⟩ : ∃ k, n = k + 1 := ⟨n - 1, by omega⟩
  simp only [List.length_append, List.length_cons] at hn
  obtain ⟨p, q, hquote, hname, hcolon, hread, hq⟩ := member n
    (ofChar ',' :: (s' ++ ofChar '\x7d' :: rest)) position (by omega)
    (follows_cons (.inl rfl))
  obtain ⟨-, hothers⟩ := others n rest (position + s.length + 1) (by omega)
  have hcomma : ofChar ',' ≠ ofChar '\x7d' := by decide
  simp only [List.append_assoc, List.cons_append]
  refine ⟨hquote, ?_⟩
  rw [readMembers]
  simp only [hquote, hname, hcolon, hread, hq, at?_cons, hcomma, decide_false, decide_true,
    Bool.not_true, Bool.false_eq_true, if_false, if_true, Place.skip_one, hothers, Except.map,
    List.length_append, List.length_cons]
  congr 3
  omega

theorem reads_emptyObject {b : Text} (blank : Blank b) :
    Reads (.value (.object [])) ('\x7b' :: (b ++ [ofChar '\x7d'])) := by
  refine reads_of_step (by decide) fun n rest position _ => ?_
  have hplace : Place.blank ⟨b ++ [ofChar '\x7d'] ++ rest, position + 1⟩ =
      ⟨ofChar '\x7d' :: rest, position + 1 + b.length⟩ := by
    rw [List.append_assoc]
    exact Place.blank_append blank (solid_cons (by decide)) (position + 1)
  have hquote : ofChar '\x7b' ≠ ofChar '"' := by decide
  have hbracket : ofChar '\x7b' ≠ ofChar '[' := by decide
  rw [readValue]
  simp only [List.cons_append, at?_cons, hquote, hbracket, decide_false, decide_true,
    Bool.false_eq_true, if_false, if_true, Place.skip_one, hplace, List.length_cons,
    List.length_append, List.length_nil]
  congr 3
  omega

theorem reads_object {ms : List (Key × Value)} {s : Text} (members : Reads (.members ms) s) :
    Reads (.value (Value.ofPairs ms)) ('\x7b' :: (s ++ [ofChar '\x7d'])) := by
  refine ⟨⟨_, _, rfl, by decide⟩, ?_⟩
  intro n rest position hn _
  simp only [List.length_append, List.length_cons, List.length_nil] at hn
  obtain ⟨n, rfl⟩ : ∃ k, n = k + 1 := ⟨n - 1, by omega⟩
  obtain ⟨hname, hread⟩ := members n rest (position + 1) (by omega)
  have happend : s ++ [ofChar '\x7d'] ++ rest = s ++ ofChar '\x7d' :: rest := by
    rw [List.append_assoc, List.singleton_append]
  have hbrace : (Place.blank ⟨s ++ ofChar '\x7d' :: rest, position + 1⟩).at? '\x7d' =
      false :=
    at?_of_at? hname (by decide)
  have hquote : ofChar '\x7b' ≠ ofChar '"' := by decide
  have hbracket : ofChar '\x7b' ≠ ofChar '[' := by decide
  rw [readValue]
  simp only [List.cons_append, happend, at?_cons, hquote, hbracket, decide_false, decide_true,
    Bool.false_eq_true, if_false, if_true, Place.skip_one, hbrace, hread, Except.map,
    List.length_cons, List.length_append, List.length_nil]
  congr 3
  omega

/-- Every phrase of the grammar is read as what it spells. -/
theorem Spelled.reads {phrase : Phrase} {s : Text} (h : Spelled phrase s) : Reads phrase s := by
  induction h with
  | null => exact reads_null
  | true => exact reads_true
  | false => exact reads_false
  | integer spelling => exact reads_integer spelling
  | string body => exact reads_string body
  | emptyArray blank => exact reads_emptyArray blank
  | array _ ih => exact reads_array ih
  | emptyObject blank => exact reads_emptyObject blank
  | object _ ih => exact reads_object ih
  | item before _ behind ih => exact reads_item before ih behind
  | lastItem _ ih => exact reads_lastItem ih
  | items _ _ ih ih' => exact reads_items ih ih'
  | member before body behind _ ih => exact reads_member before body behind ih
  | lastMember _ ih => exact reads_lastMember ih
  | members _ _ ih ih' => exact reads_members ih ih'

theorem head?_ne_byteOrderMark {v : Value} {b s : Text} (before : Blank b)
    (value : Reads (.value v) s) (rest : Text) :
    (b ++ (s ++ rest)).head? ≠ some (CodePoint.ofNat 0xFEFF) := by
  intro hmark
  cases b with
  | nil =>
    obtain ⟨⟨c, t, rfl, hc⟩, -⟩ := value
    simp only [List.nil_append, List.cons_append, List.head?_cons, Option.some.injEq] at hmark
    rw [hmark] at hc
    exact absurd hc (by decide)
  | cons c b =>
    have hc : Place.isBlank c = true := List.all_eq_true.mp before c List.mem_cons_self
    simp only [List.cons_append, List.head?_cons, Option.some.injEq] at hmark
    rw [hmark] at hc
    exact absurd hc (by decide)

/-- A text is read if its value is, with white space around it. -/
theorem read_of_reads {v : Value} {b s b' : Text} (before : Blank b) (value : Reads (.value v) s)
    (behind : Blank b') : read (b ++ (s ++ b')) = .ok v := by
  have hmark := head?_ne_byteOrderMark before value b'
  have hitem := reads_item before value behind
  generalize b ++ (s ++ b') = t at hmark hitem
  obtain ⟨-, p, hread, hp⟩ := hitem (2 * t.length + 2) [] 0 (by omega)
    (by intro c rest hc; cases hc)
  rw [List.append_nil] at hread
  have hall : readAll t = .ok v := by
    rw [readAll, if_neg hmark, hread]
    simp only [hp, List.isEmpty_nil, if_true]
  rw [read, hall]

/-- A JSON text is read as the value it spells. -/
theorem read_spelled {v : Value} {s : Text} (h : Spelled (.item v) s) : read s = .ok v := by
  cases h with
  | item before value behind => exact read_of_reads before value.reads behind

end Unproxy.Json
