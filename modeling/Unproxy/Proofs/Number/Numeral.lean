import Mathlib
import Unproxy.Literal
import Unproxy.Proofs.Text.Numeral
import Unproxy.Proofs.Syntax.Lookahead

/-!
# Unproxy.Proofs.Number.Numeral

The source of a number is a single lexeme of a program, behind a sign or without one.

Main definitions:

* `Syntax.Lexeme.Ends`: a text behind which neither a name nor a number goes on;
* `Syntax.Lexeme.Separated`: digits with underscores between them;
* `Syntax.Lexeme.Numeral`: a number in decimal digits, with a point, an exponent or both.

Main statements:

* `Syntax.Lexeme.number?_numeral`: a numeral is read in front of a text where it ends;
* `Decimal.numeral_write`, `Number.exists_numeral_of_source`: numbers are written as numerals.
-/

namespace Unproxy

open CodePoint (ofChar)

namespace Syntax.Lexeme

/-! ### Numerals -/

/-- Behind this text neither a name nor a number goes on. -/
def Ends (r : Text) : Prop :=
  ∀ c ∈ r.head?, c.isNamePart = false ∧ c ≠ ofChar '.' ∧ c ≠ ofChar '\\'

/-- An integer part: digits of which the first is zero only if it is the only one. -/
structure IsWhole (whole : Text) : Prop where
  ne_nil : whole ≠ []
  digits : whole.all CodePoint.isDigit = true
  leading : whole.head? = some (ofChar '0') → whole.length = 1

/-- An exponent with a sign, or nothing. -/
def IsScale (scale : Text) : Prop :=
  scale = [] ∨ ∃ (negative : Prop) (_ : Decidable negative) (digits : Text), digits ≠ [] ∧
    digits.all CodePoint.isDigit = true ∧
    scale = ofChar 'e' :: (if negative then '-' else '+') :: digits

/-- A number in decimal digits. -/
inductive Numeral : Text → Prop
  | whole {whole scale : Text} (isWhole : IsWhole whole) (isScale : IsScale scale) :
      Numeral (whole ++ scale)
  | pointed {whole fraction scale : Text} (isWhole : IsWhole whole) (nonempty : fraction ≠ [])
      (digits : fraction.all CodePoint.isDigit = true) (isScale : IsScale scale) :
      Numeral (whole ++ ofChar '.' :: (fraction ++ scale))

theorem Numeral.exists_whole {t : Text} (h : Numeral t) :
    ∃ whole tail, IsWhole whole ∧ t = whole ++ tail := by
  cases h with
  | whole isWhole _ => exact ⟨_, _, isWhole, rfl⟩
  | pointed isWhole _ _ _ => exact ⟨_, _, isWhole, rfl⟩

/-- A point or an exponent may follow an integer part. -/
theorem IsWhole.mayHaveFraction {whole : Text} (h : IsWhole whole) :
    Lexeme.mayHaveFraction whole = true := by
  obtain ⟨c, digits, rfl⟩ := List.exists_cons_of_ne_nil h.ne_nil
  cases digits with
  | nil => rfl
  | cons d digits =>
    have hc : c ≠ ofChar '0' := by
      rintro rfl
      cases h.leading rfl
    simp [Lexeme.mayHaveFraction, hc]

/-- Digits are name parts, letters that count as digits included. -/
theorem isNamePart_of_isDigitOf {base : Nat} {c : CodePoint} (h : c.isDigitOf base = true) :
    c.isNamePart = true := by
  have hvalue : c.isDigit = true ∨ c.isLower = true ∨ c.isUpper = true := by
    unfold CodePoint.isDigitOf CodePoint.digitValue? at h
    split_ifs at h with hdigit hlower hupper
    · exact .inl hdigit
    · exact .inr (.inl hlower)
    · exact .inr (.inr hupper)
  obtain ⟨n, hn⟩ := c
  simp only [CodePoint.isDigit, CodePoint.isLower, CodePoint.isUpper, Bool.and_eq_true,
    decide_eq_true_eq] at hvalue
  rcases hvalue with ⟨hlow, hhigh⟩ | ⟨hlow, hhigh⟩ | ⟨hlow, hhigh⟩ <;> interval_cases n <;> rfl

theorem isNamePart_of_isDigit {c : CodePoint} (h : c.isDigit = true) : c.isNamePart = true :=
  isNamePart_of_isDigitOf ((CodePoint.isDigitOf_ten c).trans h)

/-- Digits as they are written, with single underscores between them, and without. -/
inductive Separated (isAllowed : CodePoint → Bool) : Text → Text → Prop
  | last {c : CodePoint} (allowed : isAllowed c = true) : Separated isAllowed [c] [c]
  | digit {c : CodePoint} {w digits : Text} (allowed : isAllowed c = true)
      (rest : Separated isAllowed w digits) : Separated isAllowed (c :: w) (c :: digits)
  | underscore {c : CodePoint} {w digits : Text} (allowed : isAllowed c = true)
      (rest : Separated isAllowed w digits) :
      Separated isAllowed (c :: ofChar '_' :: w) (c :: digits)

namespace Separated

variable {isAllowed : CodePoint → Bool} {w digits : Text}

theorem head (h : Separated isAllowed w digits) :
    ∃ c w', w = c :: w' ∧ isAllowed c = true := by
  cases h with
  | last allowed => exact ⟨_, _, rfl, allowed⟩
  | digit allowed rest => exact ⟨_, _, rfl, allowed⟩
  | underscore allowed rest => exact ⟨_, _, rfl, allowed⟩

theorem ne_nil (h : Separated isAllowed w digits) : digits ≠ [] := by
  cases h <;> exact List.cons_ne_nil _ _

theorem all_digits (h : Separated isAllowed w digits) : digits.all isAllowed = true := by
  induction h with
  | last allowed => simp [allowed]
  | digit allowed rest ih => simp [allowed, ih]
  | underscore allowed rest ih => simp [allowed, ih]

/-- Digits may be written without underscores. -/
theorem of_all (hne : digits ≠ []) (h : digits.all isAllowed = true) :
    Separated isAllowed digits digits := by
  induction digits with
  | nil => exact absurd rfl hne
  | cons c digits ih =>
    rw [List.all_cons, Bool.and_eq_true] at h
    by_cases hdigits : digits = []
    · subst hdigits
      exact .last h.1
    · exact .digit h.1 (ih hdigits h.2)

/-- The underscores are all there is besides the digits. -/
theorem filter_eq (h : Separated isAllowed w digits)
    (hunderscore : isAllowed (ofChar '_') = false) :
    w.filter (· ≠ ofChar '_') = digits := by
  have hne : ∀ {c}, isAllowed c = true → c ≠ ofChar '_' := by
    rintro c hc rfl
    rw [hunderscore] at hc
    cases hc
  induction h with
  | last allowed => simp [hne allowed]
  | digit allowed rest ih => simpa [hne allowed] using ih
  | underscore allowed rest ih => simpa [hne allowed] using ih

/-- They are read in front of whatever they do not go on with. -/
theorem separated_append {r : Text} (h : Separated isAllowed w digits)
    (hr : ∀ c ∈ r.head?, isAllowed c = false ∧ c ≠ ofChar '_') :
    separated isAllowed (w ++ r) = w := by
  have hrest : separatedRest isAllowed (w ++ r) = w := by
    induction h with
    | last allowed =>
      rw [List.singleton_append, separatedRest, if_pos allowed]
      cases r with
      | nil => rfl
      | cons c r =>
        obtain ⟨hdigit, hunderscore⟩ := hr c rfl
        simp [separatedRest, hdigit, hunderscore]
    | digit allowed rest ih => rw [List.cons_append, separatedRest, if_pos allowed, ih]
    | underscore allowed rest ih =>
      obtain ⟨d, w', rfl, hd⟩ := rest.head
      rw [List.cons_append, separatedRest, if_pos allowed, List.cons_append, separatedRest, ih]
      simp [hd]
  obtain ⟨c, w', rfl, hc⟩ := h.head
  rw [separated, if_pos (by simpa using hc), hrest]

end Separated

section

variable {w r digits scale : Text}

theorem decimals_digits (h : digits.all CodePoint.isDigit = true)
    (hr : ∀ c ∈ r.head?, c.isDigit = false ∧ c ≠ ofChar '_') :
    decimals (digits ++ r) = digits := by
  by_cases hne : digits = []
  · subst hne
    rw [decimals, separated, if_neg]
    cases r with
    | nil => simp
    | cons c r => simp [(hr c rfl).1]
  · exact (Separated.of_all hne h).separated_append hr

/-- Neither a scale nor what is behind a number goes on with digits, or looks like another
kind of number. -/
theorem IsScale.head (h : IsScale scale) (hr : Ends r) {c : CodePoint}
    (hc : c ∈ (scale ++ r).head?) :
    c.isDigit = false ∧ c ≠ ofChar '_' ∧ c ≠ ofChar '.' ∧
      c ≠ ofChar 'n' ∧ baseOfMark c = none := by
  rcases h with rfl | ⟨negative, _, digits, -, -, rfl⟩
  · obtain ⟨hpart, hpoint, -⟩ := hr c hc
    have hne : ∀ d : CodePoint, d.isNamePart = true → c ≠ d := by
      rintro d hd rfl
      rw [hpart] at hd
      cases hd
    refine ⟨?_, hne _ (by decide), hpoint, hne _ (by decide), ?_⟩
    · by_contra hdigit
      rw [Bool.not_eq_false] at hdigit
      exact hne c (isNamePart_of_isDigit hdigit) rfl
    · simp [baseOfMark, hne _ (show (ofChar 'x').isNamePart = true by decide),
        hne _ (show (ofChar 'X').isNamePart = true by decide),
        hne _ (show (ofChar 'o').isNamePart = true by decide),
        hne _ (show (ofChar 'O').isNamePart = true by decide),
        hne _ (show (ofChar 'b').isNamePart = true by decide),
        hne _ (show (ofChar 'B').isNamePart = true by decide)]
  · obtain rfl : ofChar 'e' = c := Option.some.inj hc
    decide

theorem IsScale.exponent (h : IsScale scale) (hr : Ends r) :
    Lexeme.exponent (scale ++ r) = scale := by
  have hends : ∀ c ∈ r.head?, c.isDigit = false ∧ c ≠ ofChar '_' := fun c hc =>
    have hhead := IsScale.head (.inl rfl) hr hc
    ⟨hhead.1, hhead.2.1⟩
  rcases h with rfl | ⟨negative, _, digits, hne, hdigits, rfl⟩
  · cases r with
    | nil => rfl
    | cons c r =>
      have hpart := (hr c rfl).1
      have he : c ≠ ofChar 'e' := by
        rintro rfl
        cases hpart
      have hE : c ≠ ofChar 'E' := by
        rintro rfl
        cases hpart
      rw [List.nil_append, exponent_cons, if_neg (by simp [he, hE])]
  · have hsign : sign ((if negative then ofChar '-' else '+') :: (digits ++ r)) =
        [if negative then ofChar '-' else '+'] := by
      split_ifs <;> rfl
    rw [List.cons_append, List.cons_append, exponent_cons, hsign]
    simp only [List.length_singleton, List.drop_succ_cons, List.drop_zero,
      decimals_digits hdigits hends, List.isEmpty_iff, hne, if_false]
    rfl

theorem baseOfMark_of_isDigit {c : CodePoint} (h : c.isDigit = true) : baseOfMark c = none := by
  have hne : ∀ e : CodePoint, e.isDigit = false → c ≠ e := by
    rintro e he rfl
    rw [h] at he
    cases he
  simp [baseOfMark, hne (ofChar 'x') rfl, hne (ofChar 'X') rfl,
    hne (ofChar 'o') rfl, hne (ofChar 'O') rfl,
    hne (ofChar 'b') rfl, hne (ofChar 'B') rfl]

/-- A base is told by the second code point. -/
theorem basedNumber?_of_second {t : Text} (h : ∀ c ∈ t.tail.head?, baseOfMark c = none) :
    basedNumber? t = none := by
  unfold basedNumber?
  split
  · rename_i z mark rest
    simp only [h mark rfl]
  · rfl

theorem basedNumber?_whole {u : Text} (h : IsWhole w) (hu : ∀ c ∈ u.head?, baseOfMark c = none) :
    basedNumber? (w ++ u) = none := by
  refine basedNumber?_of_second fun c hc => ?_
  obtain ⟨d, w, rfl⟩ := List.exists_cons_of_ne_nil h.ne_nil
  cases w with
  | nil => exact hu c hc
  | cons e w =>
    have hdigits := h.digits
    simp only [List.all_cons, Bool.and_eq_true] at hdigits
    obtain rfl : e = c := Option.some.inj hc
    exact baseOfMark_of_isDigit hdigits.2.1

/-- A numeral is read in front of whatever it does not go on with. -/
theorem number?_numeral (h : Numeral w) (hr : Ends r) : number? (w ++ r) = some w := by
  cases h with
  | @whole whole scale isWhole isScale =>
    have hhead := fun c => isScale.head hr (c := c)
    have hwhole : decimals (whole ++ (scale ++ r)) = whole :=
      decimals_digits isWhole.digits fun c hc => ⟨(hhead c hc).1, (hhead c hc).2.1⟩
    have hempty : whole.isEmpty = false := by simpa using isWhole.ne_nil
    rw [List.append_assoc, number?,
      basedNumber?_whole isWhole fun c hc => (hhead c hc).2.2.2.2, decimalNumber?_eq, hwhole,
      List.drop_left]
    have hexponent := isScale.exponent hr
    cases hrest : scale ++ r with
    | nil =>
      rw [(List.append_eq_nil_iff.mp hrest).1, List.append_nil]
      simp [decimalBehind?, hempty]
    | cons c more =>
      rw [hrest] at hhead hexponent
      obtain ⟨-, -, hpoint, hbig, -⟩ := hhead c rfl
      simp [decimalBehind?, hempty, hpoint, hbig, isWhole.mayHaveFraction, hexponent]
  | @pointed whole fraction scale isWhole _ digits isScale =>
    have hhead := fun c => isScale.head hr (c := c)
    have hpoint : ∀ c ∈ (ofChar '.' :: (fraction ++ (scale ++ r))).head?,
        (c.isDigit = false ∧ c ≠ ofChar '_') ∧ baseOfMark c = none := by
      rintro c ⟨⟩
      decide
    have hwhole := decimals_digits isWhole.digits fun c hc => (hpoint c hc).1
    have hfraction : Lexeme.fraction (fraction ++ (scale ++ r)) = fraction ++ scale := by
      rw [Lexeme.fraction, decimals_digits digits fun c hc => ⟨(hhead c hc).1, (hhead c hc).2.1⟩,
        List.drop_left, isScale.exponent hr]
    have hempty : whole.isEmpty = false := by simpa using isWhole.ne_nil
    rw [List.append_assoc, List.cons_append, List.append_assoc, number?,
      basedNumber?_whole isWhole fun c hc => (hpoint c hc).2, decimalNumber?_eq, hwhole,
      List.drop_left]
    simp [decimalBehind?, hempty, isWhole.mayHaveFraction, hfraction]

end

theorem isWhole_ofNat (n : Nat) : IsWhole (Text.ofNat n) := by
  refine IsWhole.mk (Text.ofNat_ne_nil n) (Text.all_isDigit_ofNat n) fun h => ?_
  rw [Text.eq_zero_of_head?_ofNat h]
  rfl

theorem all_isDigit_replicate (n : Nat) :
    (List.replicate n (ofChar '0')).all CodePoint.isDigit = true := by
  rw [List.all_replicate]
  split <;> rfl

end Syntax.Lexeme

open Syntax.Lexeme

namespace Decimal

section

variable {digits : Text} (hne : digits ≠ []) (hdigits : digits.all CodePoint.isDigit = true)

include hne hdigits

theorem numeral_writeExponent (style : ExponentStyle) (exponent : Int) :
    Numeral (writeExponent style digits exponent) := by
  have hscale : IsScale (ofChar 'e' :: (if exponent < 0 then '-' else '+') ::
      (List.replicate (style.width - (Text.ofNat exponent.natAbs).length) (ofChar '0') ++
        Text.ofNat exponent.natAbs)) := by
    refine .inr ⟨exponent < 0, inferInstance, _, ?_, ?_, rfl⟩
    · exact List.append_ne_nil_of_right_ne_nil _ (Text.ofNat_ne_nil _)
    · rw [List.all_append, all_isDigit_replicate, Text.all_isDigit_ofNat]
      rfl
  unfold writeExponent
  split
  · rename_i first second rest
    have hfirst : IsWhole [first] := by
      simp only [List.all_cons, Bool.and_eq_true] at hdigits
      exact IsWhole.mk (List.cons_ne_nil _ _) (by simp [hdigits.1]) fun _ => rfl
    have hrest : (second :: rest).all CodePoint.isDigit = true := by
      rw [List.all_cons, Bool.and_eq_true] at hdigits
      exact hdigits.2
    simpa using Numeral.pointed hfirst (List.cons_ne_nil second rest) hrest hscale
  · rename_i hlength
    have hwhole : IsWhole digits := by
      refine IsWhole.mk hne hdigits fun _ => ?_
      match digits, hne, hlength with
      | [_], _, _ => rfl
      | first :: second :: rest, _, hlength => exact absurd rfl (hlength first second rest)
    simpa using Numeral.whole hwhole hscale

theorem numeral_writePositional {point : Int}
    (hhead : digits.head? = some (ofChar '0') → digits.length = 1 ∧ point ≤ 1) :
    Numeral (writePositional digits point) := by
  unfold writePositional
  split_ifs with hlow hhigh
  · have hzero : IsWhole "0".toText := ⟨by decide, by decide, fun _ => rfl⟩
    have hfraction : (List.replicate (-point).toNat (ofChar '0') ++ digits).all
        CodePoint.isDigit = true := by
      rw [List.all_append, all_isDigit_replicate, hdigits]
      rfl
    have hnumeral := Numeral.pointed hzero (List.append_ne_nil_of_right_ne_nil _ hne) hfraction
      (.inl rfl)
    rwa [List.append_nil] at hnumeral
  · have hwhole : IsWhole (digits ++
        List.replicate (point.toNat - digits.length) (ofChar '0')) := by
      refine IsWhole.mk (List.append_ne_nil_of_left_ne_nil hne _) ?_ fun h => ?_
      · rw [List.all_append, all_isDigit_replicate, hdigits]
        rfl
      · rw [List.head?_append_of_ne_nil _ hne] at h
        obtain ⟨hlength, hpoint⟩ := hhead h
        rw [List.length_append, List.length_replicate, hlength]
        omega
    have hzero : "0".toText.all CodePoint.isDigit = true := by decide
    exact Numeral.pointed hwhole (by decide) hzero (.inl rfl)
  · have hsplit := hdigits
    rw [← List.take_append_drop point.toNat digits, List.all_append, Bool.and_eq_true] at hsplit
    have hwhole : IsWhole (digits.take point.toNat) := by
      refine IsWhole.mk ?_ hsplit.1 fun h => ?_
      · rw [Ne, List.take_eq_nil_iff, not_or]
        exact ⟨by omega, hne⟩
      · rw [List.head?_take, if_neg (by omega)] at h
        have hlength := (hhead h).1
        omega
    have hbehind : digits.drop point.toNat ≠ [] := by
      rw [Ne, List.drop_eq_nil_iff]
      omega
    simpa using Numeral.pointed hwhole hbehind hsplit.2 (.inl rfl)

end

/-- A decimal is written as a numeral. Zero needs an exponent that is written out. -/
theorem numeral_write (style : ExponentStyle) {d : Decimal}
    (h : d.significand = 0 → 16 ≤ d.exponent) : Numeral (d.write style) := by
  have hwhole := isWhole_ofNat d.significand
  unfold write
  dsimp only
  split_ifs with hpoint
  · rw [Bool.and_eq_true, decide_eq_true_eq, decide_eq_true_eq] at hpoint
    refine numeral_writePositional hwhole.ne_nil hwhole.digits fun hhead => ?_
    have hzero := Text.eq_zero_of_head?_ofNat hhead
    have hexponent := h hzero
    have hlength := List.length_pos_of_ne_nil hwhole.ne_nil
    omega
  · exact numeral_writeExponent hwhole.ne_nil hwhole.digits style _

end Decimal

namespace Binary64

/-- Zero lies in no range of numbers that round to a positive one. -/
theorem contains_zero {significand : Nat} (h : significand ≠ 0) (exponent place : Int) :
    (rounding significand exponent).contains 0 place = false := by
  have htwo : ∀ n, 0 < twoTo n := fun n => Nat.pow_pos (by decide)
  have hten : ∀ n, 0 < tenTo n := fun n => Nat.pow_pos (by decide)
  have hlow : 0 < (rounding significand exponent).low := by
    have hbelow : 0 < 4 * significand -
        (if significand = twoTo 52 && minExponent < exponent then 1 else 2) := by
      split <;> omega
    simp only [rounding, scale]
    split
    · exact Nat.mul_pos hbelow (htwo _)
    · exact hbelow
  generalize rounding significand exponent = i at hlow
  have hunit : 0 < (if 0 ≤ place then 1 else tenTo (-place).toNat) := by
    split
    · exact Nat.one_pos
    · exact hten _
  have hpositive := Nat.mul_pos hlow hunit
  simp only [Interval.contains, Nat.zero_mul, ite_self]
  split
  · simp only [Bool.and_eq_false_iff, decide_eq_false_iff_not]
    exact .inl (by omega)
  · simp

theorem neighbour?_ne_zero {significand : Nat} (h : significand ≠ 0) {num den n : Nat}
    {exponent place : Int}
    (hn : neighbour? num den (rounding significand exponent) place = some n) : n ≠ 0 := by
  have hcontains : ∀ low, (rounding significand exponent).contains low place = true → low ≠ 0 := by
    rintro low hlow rfl
    rw [contains_zero h] at hlow
    cases hlow
  simp only [neighbour?] at hn
  generalize (if 0 ≤ place then (num, den * tenTo place.toNat)
    else (num * tenTo (-place).toNat, den)) = scaled at hn
  generalize scaled.1 / scaled.2 = low at hn
  split at hn
  · rename_i hlow _
    have hlow := hcontains low hlow
    obtain rfl := Option.some.inj hn
    split <;> omega
  · rename_i hlow _
    obtain rfl := Option.some.inj hn
    exact hcontains low hlow
  · obtain rfl := Option.some.inj hn
    omega
  · cases hn

theorem dropZeros_ne_zero (n : Nat) {d : Decimal} (h : d.significand ≠ 0) :
    (dropZeros n d).significand ≠ 0 := by
  induction n generalizing d with
  | zero => exact h
  | succ n ih =>
    rw [dropZeros]
    split
    · exact ih (by dsimp only; omega)
    · exact h

/-- The shortest decimal of a positive number is positive; where there is none it is written
with an exponent. -/
theorem shortest_significand {significand : Nat} (h : significand ≠ 0) (exponent : Int) :
    (shortest significand exponent).significand = 0 →
      16 ≤ (shortest significand exponent).exponent := by
  simp only [shortest]
  generalize hfound : List.findSome? _ (List.range 17) = found
  cases found with
  | none => exact fun _ => by decide
  | some d =>
    obtain ⟨k, -, hk⟩ := List.exists_of_findSome?_eq_some hfound
    obtain ⟨n, hn, rfl⟩ := Option.map_eq_some_iff.mp hk
    intro hzero
    exact absurd hzero (dropZeros_ne_zero 17 (neighbour?_ne_zero h hn))

/-- A number without a sign is written as a numeral. -/
theorem numeral_write (style : ExponentStyle) (significand : Nat) (exponent : Int) :
    Numeral ((finite false significand exponent).write style) := by
  rw [write]
  split
  · have hzero : IsWhole "0".toText := ⟨by decide, by decide, fun _ => rfl⟩
    have hdigits : "0".toText.all CodePoint.isDigit = true := by decide
    exact Numeral.pointed hzero (by decide) hdigits (.inl rfl)
  · rename_i hne
    exact Decimal.numeral_write style (shortest_significand hne exponent)

theorem eq_of_ofRatio {negative negative' : Bool} {num den significand : Nat} {exponent : Int}
    (h : ofRatio negative num den = .finite negative' significand exponent) :
    negative' = negative := by
  simp only [ofRatio, signedZero] at h
  split_ifs at h
  all_goals
    cases h
    rfl

end Binary64

namespace Number

/-- A finite number without a sign. -/
inductive Unsigned : Number → Prop
  | int (n : Nat) : Unsigned (.int n)
  | float (significand : Nat) (exponent : Int) : Unsigned (.float (.finite false significand exponent))

theorem numeral_floatSpelling (significand : Nat) (exponent : Int) :
    Numeral (floatSpelling (.finite false significand exponent)) := by
  unfold floatSpelling
  split
  · rename_i i hi
    split
    · simp only [Binary64.integer?] at hi
      split at hi
      · obtain rfl := Option.some.inj hi
        have hnumeral := Numeral.whole (isWhole_ofNat
          ((Binary64.ratio significand exponent).1 / (Binary64.ratio significand exponent).2))
          (.inl rfl)
        rw [List.append_nil] at hnumeral
        exact hnumeral
      · cases hi
    · exact Binary64.numeral_write ..
  · exact Binary64.numeral_write ..

theorem Unsigned.isBelowZero {n : Number} (h : n.Unsigned) : n.isBelowZero = false := by
  cases h with
  | int n => exact decide_eq_false (Int.not_lt.mpr (Int.natCast_nonneg n))
  | float significand exponent => rfl

/-- A number without a sign is spelled as a numeral. -/
theorem Unsigned.numeral {n : Number} (h : n.Unsigned) {t : Text} (ht : n.spelling = .ok t) :
    Numeral t := by
  cases h with
  | int n =>
    simp only [spelling] at ht
    split at ht
    · obtain rfl := Except.ok.inj ht
      have hnumeral := Numeral.whole (isWhole_ofNat n) (.inl rfl)
      rw [List.append_nil] at hnumeral
      exact hnumeral
    · simp only [toFloat, Binary64.ofInt?] at ht
      split at ht
      · rename_i f hf
        split at hf
        · rename_i negative significand exponent hratio
          obtain rfl := Option.some.inj hf
          have hsign : negative = false :=
            (Binary64.eq_of_ofRatio hratio).trans (decide_eq_false (by omega))
          obtain rfl := Except.ok.inj ht
          rw [hsign]
          exact numeral_floatSpelling ..
        · cases hf
      · cases ht
  | float significand exponent =>
    obtain rfl := Except.ok.inj ht
    exact numeral_floatSpelling ..

/-- A number that has a source is a number without a sign, or the magnitude of one with a
sign. -/
theorem unsigned_of_finite {n : Number}
    (h : n ≠ .float .nan ∧ ∀ negative, n ≠ .float (.infinite negative)) :
    if n.isBelowZero = true then n.magnitude.Unsigned else n.Unsigned := by
  cases n with
  | int i =>
    split
    · exact .int i.natAbs
    · rename_i hsign
      have hsign : ¬i < 0 := by simpa [isBelowZero] using hsign
      obtain ⟨n, rfl⟩ := Int.eq_ofNat_of_zero_le (by omega : 0 ≤ i)
      exact .int n
  | float f =>
    cases f with
    | nan => exact absurd rfl h.1
    | infinite negative => exact absurd rfl (h.2 negative)
    | finite negative significand exponent =>
      cases negative with
      | true => exact .float significand exponent
      | false => exact .float significand exponent

/-- The source of a number is its spelling, or that of its magnitude behind a sign. -/
theorem spelling_of_source {n : Number} {t : Text} (h : n.source = .ok (some t)) :
    (n.Unsigned ∧ n.spelling = .ok t) ∨ (n.isBelowZero = true ∧ n.magnitude.Unsigned ∧
      ∃ digits, n.magnitude.spelling = .ok digits ∧ t = ofChar '-' :: digits) := by
  unfold source at h
  split at h
  · cases h
  · cases h
  · rename_i hnan hinfinite
    have hunsigned := unsigned_of_finite ⟨hnan, hinfinite⟩
    split at h
    · rename_i hsign
      rw [if_pos hsign] at hunsigned
      cases hs : n.magnitude.spelling with
      | error e =>
        rw [hs] at h
        cases h
      | ok digits =>
        rw [hs] at h
        cases h
        exact .inr ⟨hsign, hunsigned, digits, rfl, rfl⟩
    · rename_i hsign
      rw [if_neg hsign] at hunsigned
      cases hs : n.spelling with
      | error e =>
        rw [hs] at h
        cases h
      | ok digits =>
        rw [hs] at h
        cases h
        exact .inl ⟨hunsigned, rfl⟩

/-- The source of a number is a numeral, with a sign or without. -/
theorem exists_numeral_of_source {n : Number} {t : Text} (h : n.source = .ok (some t)) :
    Numeral t ∨ ∃ digits, Numeral digits ∧ t = ofChar '-' :: digits := by
  rcases spelling_of_source h with ⟨hunsigned, hs⟩ | ⟨-, hunsigned, digits, hs, rfl⟩
  · exact .inl (hunsigned.numeral hs)
  · exact .inr ⟨digits, hunsigned.numeral hs, rfl⟩

end Number

end Unproxy
