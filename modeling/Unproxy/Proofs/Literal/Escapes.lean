import Mathlib
import Unproxy.Proofs.Literal.Quotation

/-!
# Unproxy.Proofs.Literal.Escapes

What the string literals of a program stand for. The language gives every literal a row of UTF-16
units. The reader goes by the same rules, but it takes one code point too many into an escape in two
places: a third octal digit behind a first one that is beyond three, and a line separator or a
paragraph separator behind a carriage return.

Main definitions:

* `Literal.EscapeValue`, `Literal.Cooked`: the value of an escape and of a literal in the language;
* `Literal.overreaches`: the literals in which the reader takes too much;
* `Literal.Taken`, `Literal.Reads`: what the reader takes for an escape, and how that compares with
  what the escape stands for.

Main statements:

* `Literal.EscapeValue.reads`: every escape of the language is read, with a code point too many or not;
* `Literal.quoted_of_cooked`: all literals are read, and where nothing is taken too much they are
  read as what they stand for;
* `Literal.units_of_literal`: literals in programs.
-/

namespace Unproxy

open Syntax Syntax.Lexeme
open CodePoint (ofChar)

namespace Literal

/-! ### Values in the language -/

/-- The letters that stand for a control character behind a backslash. -/
def controlLetters : List (CodePoint × Nat) :=
  [('b', 0x08), ('t', 0x09), ('n', 0x0A), ('v', 0x0B), ('f', 0x0C), ('r', 0x0D)]

/-- The code points that end a line. -/
def isTerminator (c : CodePoint) : Bool :=
  c.val == 0x0A || c.val == 0x0D || c.val == 0x2028 || c.val == 0x2029

/-- How many octal digits an escape takes at most, by the first of them. -/
def octalLimit (first : CodePoint) : Nat := if first.val ≤ 0x33 then 3 else 2

/-- The value of an escape, without its backslash, in front of a text: a row of UTF-16 units. -/
inductive EscapeValue (behind : Text) : Text → List Nat → Prop
  | letter {c : CodePoint} {unit : Nat} (isLetter : (c, unit) ∈ controlLetters) :
      EscapeValue behind [c] [unit]
  | itself {c : CodePoint} (notLetter : c ∉ "btnvfrxu".toText) (notOctal : c.isOctalDigit = false)
      (notBreak : isTerminator c = false) : EscapeValue behind [c] (Utf16.encodeOne c)
  | octal {c : CodePoint} {digits : Text} (octal : (c :: digits).all CodePoint.isOctalDigit = true)
      (short : (c :: digits).length ≤ octalLimit c)
      (longest : (c :: digits).length = octalLimit c ∨
        ∀ d ∈ behind.head?, d.isOctalDigit = false) :
      EscapeValue behind (c :: digits) [Text.valueIn 8 (c :: digits)]
  | hex {digits : Text} (two : digits.length = 2)
      (isHex : digits.all CodePoint.isHexDigit = true) :
      EscapeValue behind (ofChar 'x' :: digits) [Text.valueIn 16 digits]
  | unit {digits : Text} (four : digits.length = 4)
      (isHex : digits.all CodePoint.isHexDigit = true) :
      EscapeValue behind (ofChar 'u' :: digits) [Text.valueIn 16 digits]
  | braced {digits : Text} {c : CodePoint} (nonempty : digits ≠ [])
      (isHex : digits.all CodePoint.isHexDigit = true) (value : Text.valueIn 16 digits = c.val) :
      EscapeValue behind
        (ofChar 'u' :: ofChar '\x7b' :: (digits ++ [ofChar '\x7d']))
        (Utf16.encodeOne c)
  | lineBreak {c : CodePoint} (isBreak : isTerminator c = true)
      (alone : c = ofChar '\r' → behind.head? ≠ some (ofChar '\n')) :
      EscapeValue behind [c] []
  | lineBreaks : EscapeValue behind [ofChar '\r', ofChar '\n'] []

/-- What stands between the quotes of a literal, with the units that the literal stands for. -/
inductive Cooked (quote : CodePoint) : Text → List Nat → Prop
  | nil : Cooked quote [] []
  | plain {c : CodePoint} {t : Text} {units : List Nat} (isPlain : isPlain quote c = true)
      (rest : Cooked quote t units) : Cooked quote (c :: t) (Utf16.encodeOne c ++ units)
  | escape {e t : Text} {value units : List Nat} (escape : EscapeValue t e value)
      (rest : Cooked quote t units) :
      Cooked quote (ofChar '\\' :: (e ++ t)) (value ++ units)

/-- Whether an escape that begins with a code point takes more than its own from a text. -/
def goesTooFar (c : CodePoint) (t : Text) : Bool :=
  if c = '\r' then t.head? = some (CodePoint.ofNat 0x2028) || t.head? = some (CodePoint.ofNat 0x2029)
  else
    0x34 ≤ c.val && c.val ≤ 0x37 && (t.take 2).length = 2 && (t.take 2).all CodePoint.isOctalDigit

/-- Whether an escape between the quotes takes more than its own. -/
def overreaches : Text → Bool
  | [] => false
  | [_] => false
  | c :: d :: t => if c = '\\' then goesTooFar d t || overreaches t else overreaches (d :: t)

theorem overreaches_cons {c : CodePoint} (h : c ≠ ofChar '\\') (t : Text) :
    overreaches (c :: t) = overreaches t := by
  cases t with
  | nil => rfl
  | cons d t => simp [overreaches, h]

theorem overreaches_append {w : Text} (h : ofChar '\\' ∉ w) (t : Text) :
    overreaches (w ++ t) = overreaches t := by
  induction w with
  | nil => rfl
  | cons c w ih =>
    rw [List.mem_cons, not_or] at h
    rw [List.cons_append, overreaches_cons (fun heq => h.1 heq.symm), ih h.2]

/-- Behind its first code point an escape has no backslash. -/
theorem overreaches_escape (c : CodePoint) {w : Text} (h : ofChar '\\' ∉ w) (t : Text) :
    overreaches (ofChar '\\' :: (c :: w ++ t)) =
      (goesTooFar c (w ++ t) || overreaches t) := by
  rw [List.cons_append, overreaches, if_pos rfl, overreaches_append h]

/-! ### What the reader takes -/

/-- What the reader takes for an escape, without its backslash, and the units that stands for. -/
structure Taken (quote : CodePoint) (t e : Text) (units : List Nat) : Prop where
  read : ∀ r, escape? (ofChar '\\' :: (e ++ (t ++ quote :: r))) =
    some (ofChar '\\' :: e)
  value : ∃ w, Access.cook (ofChar '\\' :: e) = .ok w ∧ Utf16.encode w = units

/-- A code point alone is an escape, unless it makes one with a line break behind it. -/
theorem escape?_one {c : CodePoint} (octal : c.isOctalDigit = false) (hx : c ≠ ofChar 'x')
    (hu : c ≠ ofChar 'u') {t : Text}
    (alone : ∀ d ∈ t.head?, c = ofChar '\r' ∨ c = ofChar '?' →
      d.isLineBreak = false) :
    escape? (ofChar '\\' :: c :: t) = some [ofChar '\\', c] := by
  cases t with
  | nil => simp [escape?, octal, hx, hu]
  | cons d t =>
    have hone : ¬((c = '\r' || c = '?') && d.isLineBreak) = true := by
      simp only [Bool.and_eq_true, Bool.or_eq_true, decide_eq_true_eq, not_and,
        Bool.not_eq_true]
      exact alone d rfl
    simp only [escape?, octal, if_neg hx, if_neg hu, if_neg hone]
    rfl

theorem escape?_two {c d : CodePoint} (hc : c = ofChar '\r' ∨ c = ofChar '?')
    (hd : d.isLineBreak = true) (t : Text) :
    escape? (ofChar '\\' :: c :: d :: t) = some [ofChar '\\', c, d] := by
  rcases hc with rfl | rfl
  · simp only [escape?, hd]
    rfl
  · simp only [escape?, hd]
    rfl

/-- Octal digits are taken up to the third. -/
theorem escape?_octal {w t : Text} (nonempty : w ≠ []) (octal : w.all CodePoint.isOctalDigit = true)
    (short : w.length ≤ 3) (longest : w.length = 3 ∨ ∀ d ∈ t.head?, d.isOctalDigit = false) :
    escape? (ofChar '\\' :: (w ++ t)) = some (ofChar '\\' :: w) := by
  have htake : ((w ++ t).take 3).takeWhile CodePoint.isOctalDigit = w := by
    rw [List.take_append, List.take_of_length_le short,
      List.takeWhile_append_of_pos (List.all_eq_true.mp octal)]
    have hend : (t.take (3 - w.length)).takeWhile CodePoint.isOctalDigit = [] := by
      rcases longest with hlength | hnext
      · rw [hlength]
        rfl
      · cases t with
        | nil => simp
        | cons d t =>
          cases 3 - w.length with
          | zero => rfl
          | succ n => rw [List.take_succ_cons, List.takeWhile_cons_of_neg (by simp [hnext d rfl])]
    rw [hend, List.append_nil]
  obtain ⟨c, w, rfl⟩ := List.exists_cons_of_ne_nil nonempty
  rw [List.all_cons, Bool.and_eq_true] at octal
  rw [List.cons_append] at htake ⊢
  simp only [escape?, octal.1, if_true, htake]
  rfl

/-! ### What it stands for -/

/-- The number of a code point in the first plane is its unit. -/
theorem exists_codePoint {n : Nat} (h : n < 0x10000) :
    ∃ w, (Access.codePoint n).map (fun point => [point]) = .ok w ∧ Utf16.encode w = [n] := by
  refine ⟨[⟨n, by omega⟩], ?_, ?_⟩
  · rw [Access.codePoint, dif_pos (by omega)]
    rfl
  · rw [Utf16.encode_cons, Utf16.encodeOne_of_lt h]
    rfl

theorem encode_singleton (c : CodePoint) : Utf16.encode [c] = Utf16.encodeOne c := by
  rw [Utf16.encode_cons]
  exact List.append_nil _

theorem cook_letter {c : CodePoint} {unit : Nat} (h : (c, unit) ∈ controlLetters) :
    Access.cook [ofChar '\\', c] = .ok [CodePoint.ofNat unit] ∧ unit < 0x10000 := by
  simp only [controlLetters, List.mem_cons, Prod.mk.injEq, List.not_mem_nil, or_false] at h
  rcases h with ⟨rfl, rfl⟩ | ⟨rfl, rfl⟩ | ⟨rfl, rfl⟩ | ⟨rfl, rfl⟩ | ⟨rfl, rfl⟩ | ⟨rfl, rfl⟩ <;>
    exact ⟨rfl, by decide⟩

theorem startsWithBreak_cons (c : CodePoint) (t : Text) :
    Access.startsWithBreak (c :: t) = isTerminator c := rfl

theorem cook_itself {c : CodePoint} (notLetter : c ∉ "btnvfrxu".toText)
    (notOctal : c.isOctalDigit = false) (notBreak : isTerminator c = false) :
    Access.cook [ofChar '\\', c] = .ok [c] := by
  have hne : ∀ d : CodePoint, d ∈ "btnvfrxu".toText ∨ d.isOctalDigit = true → c ≠ d := by
    rintro d (hd | hd) rfl
    · exact notLetter hd
    · rw [notOctal] at hd
      cases hd
  have hletter : Access.letterEscape? c = none := by
    rw [Access.letterEscape?, if_neg (hne _ (.inl (by decide))), if_neg (hne _ (.inl (by decide))),
      if_neg (hne _ (.inl (by decide))), if_neg (hne _ (.inl (by decide))),
      if_neg (hne _ (.inl (by decide))), if_neg (hne _ (.inl (by decide))),
      if_neg (hne _ (.inr (by decide)))]
  show Access.cookBody [c] = _
  simp [Access.cookBody, startsWithBreak_cons, notBreak, hletter, notOctal]

/-- An octal digit is no letter and no line break. -/
theorem ne_of_isOctalDigit {c : CodePoint} (h : c.isOctalDigit = true) {d : CodePoint}
    (hd : d.isOctalDigit = false) : c ≠ d := by
  rintro rfl
  rw [h] at hd
  cases hd

theorem isTerminator_of_isOctalDigit {c : CodePoint} (h : c.isOctalDigit = true) :
    isTerminator c = false := by
  simp only [CodePoint.isOctalDigit, Bool.and_eq_true, decide_eq_true_eq] at h
  simp only [isTerminator, Bool.or_eq_false_iff, beq_eq_false_iff_ne]
  omega

theorem cook_octal {w : Text} (nonempty : w ≠ []) (octal : w.all CodePoint.isOctalDigit = true)
    (short : w.length ≤ 3) :
    ∃ v, Access.cook (ofChar '\\' :: w) = .ok v ∧ Utf16.encode v = [Text.valueIn 8 w] := by
  have hsmall : Text.valueIn 8 w < 0x10000 := by
    have hlt := Text.valueIn_lt (Text.all_isDigitOf_eight octal)
    have hle : 8 ^ w.length ≤ 8 ^ 3 := Nat.pow_le_pow_right (by decide) short
    omega
  obtain ⟨v, hv, hunits⟩ := exists_codePoint hsmall
  refine ⟨v, ?_, hunits⟩
  rw [← hv]
  show Access.cookBody w = _
  obtain ⟨c, w, rfl⟩ := List.exists_cons_of_ne_nil nonempty
  have hc : c.isOctalDigit = true := by
    rw [List.all_cons, Bool.and_eq_true] at octal
    exact octal.1
  have hbreak := isTerminator_of_isOctalDigit hc
  cases w with
  | nil =>
    -- The letter table has an entry for zero, with the same value.
    by_cases hzero : c = ofChar '0'
    · subst hzero
      rfl
    · have hletter : Access.letterEscape? c = none := by
        have hne : ∀ d : CodePoint, d.isOctalDigit = false → c ≠ d := fun d =>
          ne_of_isOctalDigit hc
        rw [Access.letterEscape?, if_neg (hne _ rfl), if_neg (hne _ rfl), if_neg (hne _ rfl),
          if_neg (hne _ rfl), if_neg (hne _ rfl), if_neg (hne _ rfl), if_neg hzero]
      simp [Access.cookBody, startsWithBreak_cons, hbreak, hletter, hc]
  | cons d w =>
    have hu : c ≠ ofChar 'u' := ne_of_isOctalDigit hc rfl
    have hx : c ≠ ofChar 'x' := ne_of_isOctalDigit hc rfl
    simp only [Access.cookBody, startsWithBreak_cons, hbreak, hu, hx, octal, decide_false,
      Bool.false_and, Bool.or_self, Bool.false_eq_true, if_false, if_true]

theorem cook_hex {mark : CodePoint} (hmark : mark = ofChar 'u' ∨
    mark = ofChar 'x') {digits : Text} (nonempty : digits ≠ [])
    (isHex : digits.all CodePoint.isHexDigit = true) (short : digits.length ≤ 4) :
    ∃ v, Access.cook (ofChar '\\' :: mark :: digits) = .ok v ∧
      Utf16.encode v = [Text.valueIn 16 digits] := by
  have hsmall : Text.valueIn 16 digits < 0x10000 := by
    have hlt := Text.valueIn_lt isHex
    have hle : 16 ^ digits.length ≤ 16 ^ 4 := Nat.pow_le_pow_right (by decide) short
    omega
  obtain ⟨v, hv, hunits⟩ := exists_codePoint hsmall
  obtain ⟨d, digits, rfl⟩ := List.exists_cons_of_ne_nil nonempty
  exact ⟨v, (Access.cook_digits hmark isHex).trans hv, hunits⟩

theorem cook_braced {digits : Text} {c : CodePoint} (value : Text.valueIn 16 digits = c.val) :
    Access.cook (ofChar '\\' :: ofChar 'u' :: ofChar '\x7b' ::
      (digits ++ [ofChar '\x7d'])) = .ok [c] := by
  have hcook : Access.cook (ofChar '\\' :: ofChar 'u' ::
      ofChar '\x7b' :: (digits ++ [ofChar '\x7d'])) =
        (Access.codePoint (Text.valueIn 16 (digits ++ [ofChar '\x7d']).dropLast)).map
          fun point => [point] := rfl
  rw [hcook, List.dropLast_concat, value, Access.codePoint, dif_pos c.isLt]
  rfl

theorem cook_lineBreak {c : CodePoint} (h : isTerminator c = true) (w : Text) :
    Access.cook (ofChar '\\' :: c :: w) = .ok [] := by
  show Access.cookBody (c :: w) = _
  unfold Access.cookBody
  rw [startsWithBreak_cons, if_pos h]

/-! ### Escape by escape -/

/-- How the reader goes about an escape of the language: it takes the escape, or one code point more.
What it takes has the value of all that, or it has fewer units because the escape goes too far. -/
inductive Reads (quote : CodePoint) (t e : Text) (value : List Nat) : Prop
  | exact (taken : Taken quote t e value)
      (fair : overreaches (ofChar '\\' :: (e ++ t)) = overreaches t)
  | more {d : CodePoint} {t' : Text} (behind : t = d :: t') (plain : d ≠ ofChar '\\')
      (taken : Taken quote t' (e ++ [d]) (value ++ Utf16.encodeOne d))
      (fair : overreaches (ofChar '\\' :: (e ++ t)) = overreaches t)
  | tooMuch {d : CodePoint} {t' : Text} {units : List Nat} (behind : t = d :: t')
      (plain : d ≠ ofChar '\\') (taken : Taken quote t' (e ++ [d]) units)
      (less : units.length < (value ++ Utf16.encodeOne d).length)
      (unfair : overreaches (ofChar '\\' :: (e ++ t)) = true)

section

variable {quote : CodePoint} (hquote : quote = doubleQuote ∨ quote = singleQuote)

include hquote

theorem not_of_quote :
    quote.isOctalDigit = false ∧ quote.isLineBreak = false ∧ quote ≠ ofChar '\\' := by
  rcases hquote with rfl | rfl <;> decide

omit hquote in
theorem head?_append_quote {P : CodePoint → Prop} {t : Text} (ht : ∀ d ∈ t.head?, P d)
    (hP : P quote) (r : Text) : ∀ d ∈ (t ++ quote :: r).head?, P d := by
  cases t with
  | nil =>
    rintro d ⟨⟩
    exact hP
  | cons c t =>
    rintro d ⟨⟩
    exact ht c rfl

/-- An escape of one code point, with nothing behind it that would go with it. -/
theorem taken_one {c : CodePoint} (octal : c.isOctalDigit = false) (hx : c ≠ ofChar 'x')
    (hu : c ≠ ofChar 'u') {t : Text}
    (alone : ∀ d ∈ t.head?, c = ofChar '\r' ∨ c = ofChar '?' →
      d.isLineBreak = false) {units : List Nat}
    (value : ∃ w, Access.cook [ofChar '\\', c] = .ok w ∧ Utf16.encode w = units) :
    Taken quote t [c] units := by
  refine ⟨fun r => escape?_one octal hx hu ?_, value⟩
  exact head?_append_quote (P := fun d => c = ofChar '\r' ∨ c = ofChar '?' →
    d.isLineBreak = false) alone (fun _ => (not_of_quote hquote).2.1) r

/-- Octal digits that are taken as they are. -/
theorem taken_octal {w t : Text} (nonempty : w ≠ []) (octal : w.all CodePoint.isOctalDigit = true)
    (short : w.length ≤ 3) (longest : w.length = 3 ∨ ∀ d ∈ t.head?, d.isOctalDigit = false) :
    Taken quote t w [Text.valueIn 8 w] := by
  refine ⟨fun r => escape?_octal nonempty octal short (longest.imp_right fun hnext => ?_),
    cook_octal nonempty octal short⟩
  exact head?_append_quote (P := fun d => d.isOctalDigit = false) hnext (not_of_quote hquote).1 r

/-- An escape of one code point, which a line break may follow that the reader takes for a part of
it. -/
theorem reads_itself {c : CodePoint} {t : Text} (notLetter : c ∉ "btnvfrxu".toText)
    (notOctal : c.isOctalDigit = false) (notBreak : isTerminator c = false) :
    Reads quote t [c] (Utf16.encodeOne c) := by
  have hcook := cook_itself notLetter notOctal notBreak
  have hx : c ≠ ofChar 'x' := fun heq => notLetter (heq ▸ by decide)
  have hu : c ≠ ofChar 'u' := fun heq => notLetter (heq ▸ by decide)
  have hreturn : c ≠ ofChar '\r' := by
    rintro rfl
    cases notBreak
  have hfair : overreaches (ofChar '\\' :: ([c] ++ t)) = overreaches t := by
    have hnear : goesTooFar c t = false := by
      simp only [CodePoint.isOctalDigit, Bool.and_eq_false_iff, decide_eq_false_iff_not] at notOctal
      rw [goesTooFar, if_neg hreturn]
      simp only [Bool.and_eq_false_iff, decide_eq_false_iff_not]
      omega
    rw [overreaches_escape c List.not_mem_nil, List.nil_append, hnear, Bool.false_or]
  by_cases hmark : c = ofChar '?' ∧ ∃ d ∈ t.head?, d.isLineBreak = true
  · obtain ⟨rfl, d, hd, hbreak⟩ := hmark
    obtain ⟨t', rfl⟩ := List.head?_eq_some_iff.mp hd
    have hbackslash : d ≠ ofChar '\\' := by
      rintro rfl
      cases hbreak
    refine .more rfl hbackslash ⟨fun r => escape?_two (.inr rfl) hbreak _, ?_⟩ hfair
    refine ⟨[ofChar '?', d], rfl, ?_⟩
    rw [Utf16.encode_cons, encode_singleton]
  · refine .exact (taken_one hquote notOctal hx hu ?_ ⟨[c], hcook, encode_singleton c⟩) hfair
    rintro d hd (rfl | rfl)
    · exact absurd rfl hreturn
    · by_contra hbreak
      exact hmark ⟨rfl, d, hd, by simpa using hbreak⟩

/-- Octal digits: behind a first one beyond three the reader takes a third. -/
theorem reads_octal {c : CodePoint} {digits t : Text}
    (octal : (c :: digits).all CodePoint.isOctalDigit = true)
    (short : (c :: digits).length ≤ octalLimit c)
    (longest : (c :: digits).length = octalLimit c ∨ ∀ d ∈ t.head?, d.isOctalDigit = false) :
    Reads quote t (c :: digits) [Text.valueIn 8 (c :: digits)] := by
  have hdigits := List.all_eq_true.mp octal
  have hreturn : c ≠ ofChar '\r' := ne_of_isOctalDigit (hdigits c (by simp)) rfl
  have hbackslash : ofChar '\\' ∉ digits := fun hmem =>
    absurd (hdigits _ (List.mem_cons_of_mem c hmem)) (by decide)
  have hoverreaches := overreaches_escape c hbackslash t
  have hlimit : octalLimit c ≤ 3 := by
    unfold octalLimit
    split <;> omega
  by_cases hnext : ∀ d ∈ t.head?, d.isOctalDigit = false
  · -- Nothing more could be taken.
    refine .exact (taken_octal hquote (List.cons_ne_nil _ _) octal (by omega) (.inr hnext)) ?_
    have hnear : goesTooFar c (digits ++ t) = false := by
      rw [goesTooFar, if_neg hreturn]
      by_contra hfar
      simp only [Bool.not_eq_false, Bool.and_eq_true, decide_eq_true_eq] at hfar
      obtain ⟨⟨⟨hlow, hhigh⟩, htwo⟩, hall⟩ := hfar
      have hone : digits.length ≤ 1 := by
        rw [octalLimit, if_neg (by omega), List.length_cons] at short
        omega
      rw [List.take_append, List.take_of_length_le (by omega)] at htwo hall
      cases t with
      | nil =>
        simp at htwo
        omega
      | cons d t =>
        obtain ⟨n, hn⟩ : ∃ n, 2 - digits.length = n + 1 := ⟨1 - digits.length, by omega⟩
        rw [hn, List.take_succ_cons, List.all_append, List.all_cons, hnext d rfl] at hall
        simp at hall
    rw [hoverreaches, hnear, Bool.false_or]
  · obtain ⟨d, hd, hoctal⟩ : ∃ d ∈ t.head?, d.isOctalDigit = true := by simpa using hnext
    obtain ⟨t', rfl⟩ := List.head?_eq_some_iff.mp hd
    have hlength : (c :: digits).length = octalLimit c := by
      refine longest.resolve_right fun hnone => ?_
      rw [hnone d rfl] at hoctal
      cases hoctal
    by_cases hthree : c.val ≤ 0x33
    · rw [octalLimit, if_pos hthree] at hlength
      refine .exact (taken_octal hquote (List.cons_ne_nil _ _) octal hlength.le (.inl hlength)) ?_
      have hnear : goesTooFar c (digits ++ d :: t') = false := by
        rw [goesTooFar, if_neg hreturn]
        simp only [Bool.and_eq_false_iff, decide_eq_false_iff_not]
        omega
      rw [hoverreaches, hnear, Bool.false_or]
    · rw [octalLimit, if_neg hthree, List.length_cons] at hlength
      have hlength : digits.length = 1 := by omega
      obtain ⟨e, rfl⟩ := List.length_eq_one_iff.mp hlength
      have hall : (c :: [e] ++ [d]).all CodePoint.isOctalDigit = true := by
        rw [List.all_append, octal, List.all_cons, hoctal]
        rfl
      refine .tooMuch rfl (ne_of_isOctalDigit hoctal rfl)
        (taken_octal hquote (List.cons_ne_nil _ _) hall (by simp) (.inl rfl)) ?_ ?_
      · have hpos := Utf16.length_encodeOne_pos d
        simp only [List.length_singleton, List.length_append]
        omega
      · have hfar : goesTooFar c ([e] ++ d :: t') = true := by
          have hc := hdigits c (by simp)
          have he := hdigits e (by simp)
          simp only [CodePoint.isOctalDigit, Bool.and_eq_true, decide_eq_true_eq] at hc
          rw [goesTooFar, if_neg hreturn]
          simp [he, hoctal, hc.2]
          omega
        rw [hoverreaches, hfar, Bool.true_or]

/-- A line break: behind a carriage return the reader takes a separator, too. -/
theorem reads_lineBreak {c : CodePoint} {t : Text} (isBreak : isTerminator c = true)
    (alone : c = ofChar '\r' → t.head? ≠ some (ofChar '\n')) :
    Reads quote t [c] [] := by
  have hcook := cook_lineBreak isBreak
  have hnot : c.isOctalDigit = false := by
    by_contra hoctal
    rw [isTerminator_of_isOctalDigit (by simpa using hoctal)] at isBreak
    cases isBreak
  have hne : ∀ d : CodePoint, isTerminator d = false → c ≠ d := by
    rintro d hd rfl
    rw [isBreak] at hd
    cases hd
  have hoverreaches := overreaches_escape c (List.not_mem_nil (a := ofChar '\\')) t
  rw [List.nil_append] at hoverreaches
  by_cases hfar : goesTooFar c t = true
  · rw [hfar, Bool.true_or] at hoverreaches
    rw [goesTooFar] at hfar
    split at hfar
    · rename_i hreturn
      subst hreturn
      obtain ⟨d, t', rfl, hd⟩ : ∃ d t', t = d :: t' ∧ d.isLineBreak = true := by
        simp only [Bool.or_eq_true, decide_eq_true_eq, List.head?_eq_some_iff] at hfar
        rcases hfar with ⟨t', rfl⟩ | ⟨t', rfl⟩ <;> exact ⟨_, _, rfl, by decide⟩
      have hbackslash : d ≠ ofChar '\\' := by
        rintro rfl
        cases hd
      have hpos := Utf16.length_encodeOne_pos d
      exact .tooMuch rfl hbackslash ⟨fun r => escape?_two (.inl rfl) hd _, [], hcook [d], rfl⟩
        hpos hoverreaches
    · simp only [Bool.and_eq_true, decide_eq_true_eq] at hfar
      simp only [CodePoint.isOctalDigit, Bool.and_eq_false_iff, decide_eq_false_iff_not] at hnot
      omega
  · rw [Bool.not_eq_true] at hfar
    rw [hfar, Bool.false_or] at hoverreaches
    refine .exact (taken_one hquote hnot (hne _ rfl) (hne _ rfl) ?_ ⟨[], hcook [], rfl⟩) hoverreaches
    rintro d hd (rfl | rfl)
    · -- All line breaks behind a carriage return are accounted for.
      by_contra hbreak
      have hfeed : d ≠ ofChar '\n' := fun heq => alone rfl (heq ▸ hd)
      obtain ⟨t', rfl⟩ := List.head?_eq_some_iff.mp hd
      simp only [CodePoint.isLineBreak, Bool.not_eq_false, Bool.or_eq_true, beq_iff_eq] at hbreak
      rcases hbreak with (hval | hval) | hval
      · exact hfeed (Fin.ext hval)
      · rw [show d = CodePoint.ofNat 0x2028 from Fin.ext hval] at hfar
        cases hfar
      · rw [show d = CodePoint.ofNat 0x2029 from Fin.ext hval] at hfar
        cases hfar
    · cases isBreak

/-- What the reader takes for the escapes of the language. -/
theorem EscapeValue.reads {t e : Text} {value : List Nat} (h : EscapeValue t e value) :
    Reads quote t e value := by
  have hfair : ∀ {c : CodePoint} {w : Text}, goesTooFar c (w ++ t) = false →
      ofChar '\\' ∉ w →
      overreaches (ofChar '\\' :: (c :: w ++ t)) = overreaches t := by
    intro c w hnear hbackslash
    rw [overreaches_escape c hbackslash, hnear, Bool.false_or]
  have hhex : ∀ {digits : Text}, digits.all CodePoint.isHexDigit = true →
      ofChar '\\' ∉ digits := fun hdigits hmem =>
    absurd (List.all_eq_true.mp hdigits _ hmem) (by decide)
  cases h with
  | @letter c unit isLetter =>
    obtain ⟨hcook, hunit⟩ := cook_letter isLetter
    have hletters : ∀ pair ∈ controlLetters, pair.1.isOctalDigit = false ∧
        pair.1 ≠ ofChar 'x' ∧ pair.1 ≠ ofChar 'u' ∧
        pair.1 ≠ ofChar '\r' ∧ pair.1 ≠ ofChar '?' := by
      decide
    obtain ⟨hoctal, hx, hu, hreturn, hmark⟩ := hletters _ isLetter
    refine .exact (taken_one hquote hoctal hx hu ?_ ⟨_, hcook, ?_⟩) (hfair ?_ List.not_mem_nil)
    · rintro d - (heq | heq)
      · exact absurd heq hreturn
      · exact absurd heq hmark
    · rw [encode_singleton, Utf16.encodeOne_ofNat hunit]
    · simp only [CodePoint.isOctalDigit, Bool.and_eq_false_iff, decide_eq_false_iff_not] at hoctal
      rw [goesTooFar, if_neg hreturn]
      simp only [Bool.and_eq_false_iff, decide_eq_false_iff_not]
      omega
  | itself notLetter notOctal notBreak => exact reads_itself hquote notLetter notOctal notBreak
  | octal octal short longest => exact reads_octal hquote octal short longest
  | @hex digits two isHex =>
    have hne : digits ≠ [] := List.ne_nil_of_length_eq_add_one two
    refine .exact ⟨fun r => ?_, cook_hex (.inr rfl) hne isHex (by omega)⟩
      (hfair rfl (hhex isHex))
    have hdigits : hexDigits? 2 (digits ++ (t ++ quote :: r)) = some digits := by
      rw [hexDigits?, ← two, List.take_left]
      simp [isHex]
    simp only [List.cons_append, escape?, hdigits]
    rfl
  | @unit digits four isHex =>
    have hne : digits ≠ [] := List.ne_nil_of_length_eq_add_one four
    refine .exact ⟨fun r => ?_, cook_hex (.inl rfl) hne isHex (by omega)⟩
      (hfair rfl (hhex isHex))
    exact escape?_unit four isHex _
  | @braced digits c nonempty isHex value =>
    have hbackslash : ofChar '\\' ∉
        ofChar '\x7b' :: (digits ++ [ofChar '\x7d']) := by
      intro hmem
      rw [List.mem_cons, List.mem_append, List.mem_singleton] at hmem
      rcases hmem with heq | hmem | heq
      · exact absurd heq (by decide)
      · exact hhex isHex hmem
      · exact absurd heq (by decide)
    refine .exact ⟨fun r => ?_, [c], cook_braced value, encode_singleton c⟩ (hfair rfl hbackslash)
    have hdigits := bracedHex?_braced nonempty (List.all_eq_true.mp isHex) (t ++ quote :: r)
    simp only [List.cons_append, List.append_assoc, List.nil_append] at hdigits ⊢
    simp only [escape?, unicodeEscape?, hdigits]
    rfl
  | lineBreak isBreak alone => exact reads_lineBreak hquote isBreak alone
  | lineBreaks =>
    exact .exact ⟨fun r => escape?_two (.inl rfl) rfl _, [], rfl, rfl⟩ (hfair rfl (by decide))

end

/-! ### Whole literals -/

/-- What is read between the quotes has the units that the language gives it, or fewer if an escape
takes more than its own. -/
def Agrees (v t : Text) (units : List Nat) : Prop :=
  if overreaches t = true then (Utf16.encode v).length < units.length else Utf16.encode v = units

theorem encode_append (s t : Text) : Utf16.encode (s ++ t) = Utf16.encode s ++ Utf16.encode t :=
  List.flatMap_append

theorem Agrees.length_le {v t : Text} {units : List Nat} (h : Agrees v t units) :
    (Utf16.encode v).length ≤ units.length := by
  unfold Agrees at h
  split at h
  · exact h.le
  · exact (congrArg List.length h).le

/-- A part in front that is read as what it stands for. -/
theorem Agrees.prepend {w v t t' : Text} {value units : List Nat} (h : Agrees v t units)
    (hw : Utf16.encode w = value) (hfair : overreaches t' = overreaches t) :
    Agrees (w ++ v) t' (value ++ units) := by
  unfold Agrees at h ⊢
  rw [hfair, encode_append, hw]
  split
  · rename_i hfar
    rw [if_pos hfar] at h
    rw [List.length_append, List.length_append]
    omega
  · rename_i hnear
    rw [if_neg hnear] at h
    rw [h]

/-- A part in front that is read as fewer units than it stands for. -/
theorem Agrees.prepend_of_lt {w v t t' : Text} {value units : List Nat} (h : Agrees v t units)
    (hw : (Utf16.encode w).length < value.length) (hfar : overreaches t' = true) :
    Agrees (w ++ v) t' (value ++ units) := by
  have hle := h.length_le
  rw [Agrees, if_pos hfar, encode_append, List.length_append, List.length_append]
  omega

/-- A code point that is no backslash stands in a literal for itself. -/
theorem Cooked.of_cons {quote d : CodePoint} {t : Text} {units : List Nat}
    (h : Cooked quote (d :: t) units) (hd : d ≠ ofChar '\\') :
    ∃ others, units = Utf16.encodeOne d ++ others ∧ Cooked quote t others := by
  generalize hbody : d :: t = body at h
  cases h with
  | nil => cases hbody
  | plain isPlain rest =>
    cases hbody
    exact ⟨_, rfl, rest⟩
  | escape escape rest => exact absurd (List.cons.inj hbody).1 hd

/-- Every literal of the language is read, and as what it stands for unless an escape goes too far. -/
theorem quoted_of_cooked {quote : CodePoint} (hquote : quote = doubleQuote ∨ quote = singleQuote)
    {t : Text} {units : List Nat} (h : Cooked quote t units) :
    ∃ v, Quoted quote v t ∧ Agrees v t units := by
  -- The reader may take a code point from behind an escape, so the induction is on the length.
  induction hn : t.length using Nat.strong_induction_on generalizing t units with
  | _ n ih =>
    subst hn
    cases h with
    | nil => exact ⟨[], .nil, rfl⟩
    | @plain c t units isPlain rest =>
      obtain ⟨v, hquoted, hagrees⟩ := ih _ (Nat.lt_succ_self _) rest rfl
      have hbackslash : c ≠ ofChar '\\' := by
        rintro rfl
        rw [isPlain_backslash] at isPlain
        cases isPlain
      exact ⟨c :: v, hquoted.plain isPlain,
        hagrees.prepend (encode_singleton c) (overreaches_cons hbackslash t)⟩
    | @escape e t value units escape rest =>
      cases escape.reads hquote with
      | exact taken fair =>
        obtain ⟨v, hquoted, hagrees⟩ := ih _ (by simp) rest rfl
        obtain ⟨w, hcook, hw⟩ := taken.value
        exact ⟨w ++ v, .escape taken.read hcook hquoted, hagrees.prepend hw fair⟩
      | @more d t' behind plain taken fair =>
        subst behind
        obtain ⟨others, rfl, hothers⟩ := rest.of_cons plain
        obtain ⟨v, hquoted, hagrees⟩ := ih _ (by simp; omega) hothers rfl
        obtain ⟨w, hcook, hw⟩ := taken.value
        rw [overreaches_cons plain] at fair
        rw [List.append_cons e, ← List.append_assoc value]
        rw [List.append_cons e] at fair
        exact ⟨w ++ v, .escape taken.read hcook hquoted, hagrees.prepend hw fair⟩
      | @tooMuch d t' taken' behind plain taken less unfair =>
        subst behind
        obtain ⟨others, rfl, hothers⟩ := rest.of_cons plain
        obtain ⟨v, hquoted, hagrees⟩ := ih _ (by simp; omega) hothers rfl
        obtain ⟨w, hcook, hw⟩ := taken.value
        rw [List.append_cons e, ← List.append_assoc value]
        rw [List.append_cons e] at unfair
        exact ⟨w ++ v, .escape taken.read hcook hquoted,
          hagrees.prepend_of_lt (hw ▸ less) unfair⟩

/-- A string literal of the language, with its quotes. -/
def inQuotes (quote : CodePoint) (t : Text) : Text := quote :: (t ++ [quote])

/-- String literals have the values that the language gives them, but for escapes that go too far. For
every literal, in quotes of either kind, whatever stands behind it, one string node is read that
covers it. The units of its value are those of the literal if none of its escapes goes too far, and
fewer otherwise. A literal with a UTF-8 form is a program, with such a node. -/
theorem units_of_literal {quote : CodePoint} (hquote : quote = doubleQuote ∨ quote = singleQuote)
    {t : Text} {units : List Nat} (h : Cooked quote t units) :
    ∃ value, (overreaches t = false → Utf16.encode value = units) ∧
      (overreaches t = true → (Utf16.encode value).length < units.length) ∧
      (∀ (s : Scan) (r : Text), s.rest = inQuotes quote t ++ r → s.next = Token.ofText s.rest →
        ∃ node, Parser.string s = some (node, s.advance (inQuotes quote t)) ∧
          node.Quotes s.offset (inQuotes quote t) value) ∧
      (Utf8.checkEncodable (inQuotes quote t) = .ok () →
        ∃ node, Program.parse (inQuotes quote t) = .ok ⟨inQuotes quote t, ⟨.program, none, 0,
            Scan.byteLength (inQuotes quote t), [],
            [Syntax.Tree.node .expressionStatement [node]]⟩⟩ ∧
          node.Quotes 0 (inQuotes quote t) value) := by
  obtain ⟨v, hquoted, hagrees⟩ := quoted_of_cooked hquote h
  rw [Agrees, ← Utf16.encode_joinPairs] at hagrees
  refine ⟨Utf16.joinPairs v, fun hnear => ?_, fun hfar => ?_, ?_, ?_⟩
  · rwa [hnear, if_neg Bool.false_ne_true] at hagrees
  · rwa [if_pos hfar] at hagrees
  · intro s r hs hnext
    rw [inQuotes, List.cons_append, List.append_assoc] at hs
    have hquoteNext : s.next = .quote quote := by
      rw [hnext, hs]
      rcases hquote with rfl | rfl <;> rfl
    obtain ⟨node, hread, -, hquotes⟩ :=
      Parser.string_of_quoted (not_of_quote hquote).2.2 hquoted hs hquoteNext
    exact ⟨node, hread, hquotes⟩
  · exact parse_quoted hquote hquoted rfl

/-- Escapes of several kinds, which are read as what they stand for, and three octal digits, of which
the last is no part of the escape. -/
theorem units_of_literal_samples :
    let fair := "\\x41\\u\x7b1F600\x7d\\0\\\n\\?".toText
    let far := "\\477".toText
    let scan := fun literal => Scan.between 0 [] (literal ++ ";".toText)
    (∃ value node,
      Parser.string (scan (inQuotes singleQuote fair)) =
        some (node, (scan (inQuotes singleQuote fair)).advance (inQuotes singleQuote fair)) ∧
      node.stringValue = .ok value ∧ Utf16.encode value = [0x41, 0xD83D, 0xDE00, 0x00, 0x3F]) ∧
    Cooked doubleQuote far [0x27, 0x37] ∧ overreaches far = true ∧
    ∃ value node,
      Parser.string (scan (inQuotes doubleQuote far)) =
        some (node, (scan (inQuotes doubleQuote far)).advance (inQuotes doubleQuote far)) ∧
      node.stringValue = .ok value ∧ (Utf16.encode value).length < 2 := by
  intro fair far scan
  have hplain : ∀ d ∈ "\\\n\\?".toText.head?, d.isOctalDigit = false := by
    rintro d ⟨⟩
    rfl
  have hfair : Cooked singleQuote fair [0x41, 0xD83D, 0xDE00, 0x00, 0x3F] :=
    @Cooked.escape _ "x41".toText _ [0x41] _ (.hex rfl rfl)
      (@Cooked.escape _ "u\x7b1F600\x7d".toText _ [0xD83D, 0xDE00] _
        (@EscapeValue.braced _ "1F600".toText (CodePoint.ofNat 0x1F600) (by decide)
          (by decide) (by decide +kernel))
        (@Cooked.escape _ "0".toText _ [0x00] _
          (@EscapeValue.octal _ (ofChar '0') [] rfl (by decide) (.inr hplain))
          (@Cooked.escape _ "\n".toText _ [] _
            (@EscapeValue.lineBreak _ (ofChar '\n') rfl fun heq => absurd heq (by decide))
            (@Cooked.escape _ "?".toText _ [0x3F] _
              (@EscapeValue.itself _ (ofChar '?') (by decide) rfl rfl) .nil))))
  have hfar : Cooked doubleQuote far [0x27, 0x37] :=
    @Cooked.escape _ "47".toText _ [0x27] _
      (@EscapeValue.octal _ (ofChar '4') "7".toText rfl (by decide) (.inl rfl))
      (@Cooked.plain _ (ofChar '7') [] [] rfl .nil)
  obtain ⟨value, hunits, -, hread, -⟩ := units_of_literal (.inr rfl) hfair
  obtain ⟨value', -, hfewer, hread', -⟩ := units_of_literal (.inl rfl) hfar
  obtain ⟨node, hstring, hquotes⟩ := hread (scan (inQuotes singleQuote fair)) ";".toText rfl rfl
  obtain ⟨node', hstring', hquotes'⟩ := hread' (scan (inQuotes doubleQuote far)) ";".toText rfl rfl
  exact ⟨⟨value, node, hstring, hquotes.value, hunits (by decide)⟩, hfar, by decide,
    value', node', hstring', hquotes'.value, hfewer (by decide)⟩

end Literal

end Unproxy
