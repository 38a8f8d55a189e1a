import Mathlib
import Unproxy.Access.Name
import Unproxy.Proofs.Json.Ascii
import Unproxy.Proofs.Literal
import Unproxy.Proofs.Number.Numeral
import Unproxy.Proofs.Syntax.Exchange

/-!
# Unproxy.Proofs.Literal.Tokens

The source of a value is read back as tokens of its own: a word, a number with a sign or
without, a string, or brackets around parts. Only its last token can run together with what
stands behind it.

Main definitions:

* `Syntax.Piece.Row`: pieces that are read from a text in front of certain texts;
* `IsLiteral`: a text of which only the last piece can go on;
* `IsPart`: a text that is read in front of what may follow a part of a literal;
* `Quoted`: what may stand in a string, and what it stands for.

Main statements:

* `isLiteral_numeral`, `isLiteral_string`, `isLiteral_join`: one for each form of literal;
* `Value.isLiteral_source`, `Value.isLiteral_literal`: the source of a value is a literal.
-/

namespace Unproxy

open Syntax Syntax.Lexeme
open CodePoint (ofChar)

/-! ### Rows of pieces -/

namespace Syntax.Piece

/-- Pieces that are read from a text between tokens, in front of certain texts. -/
structure Row (P : Text → Prop) (t : Text) (pieces : List Piece) : Prop where
  spelled : spelled pieces = t
  read : ∀ (s : Scan) (r : Text), s.rest = t ++ r → P r →
    ∃ e : Scan, Scan.Lexed .code s pieces .code e ∧ e.rest = r

theorem Row.nil (P : Text → Prop) : Row P [] [] := ⟨rfl, fun s _ hs _ => ⟨s, .nil, hs⟩⟩

theorem Row.append {P Q : Text → Prop} {t u : Text} {pieces others : List Piece}
    (h : Row P t pieces) (h' : Row Q u others) (hQ : ∀ r, Q r → P (u ++ r)) :
    Row Q (t ++ u) (pieces ++ others) where
  spelled := by rw [spelled_append, h.spelled, h'.spelled]
  read s r hs hr := by
    rw [List.append_assoc] at hs
    obtain ⟨e, hlexed, he⟩ := h.read s _ hs (hQ r hr)
    obtain ⟨e', hlexed', he'⟩ := h'.read e r he hr
    exact ⟨e', hlexed.append hlexed', he'⟩

end Syntax.Piece

/-- A text in front of which the parts of a literal end: there is nothing, or something solid
with which neither a name nor a number goes on. -/
def Follows (r : Text) : Prop := (r = [] ∨ IsSolid r) ∧ Ends r

theorem follows_cons {c : CodePoint} (hc : c ∈ ")]\x7d,:;".toText) (t : Text) : Follows (c :: t) := by
  have hall : (")]\x7d,:;".toText.all fun c => !c.isBlank && c != ofChar '/' &&
      !c.isNamePart && c != ofChar '.' && c != ofChar '\\') = true := by decide
  have hplain := List.all_eq_true.mp hall c hc
  simp only [Bool.and_eq_true, Bool.not_eq_true', bne_iff_ne, ne_eq] at hplain
  obtain ⟨⟨⟨⟨hblank, hslash⟩, hpart⟩, hpoint⟩, hbackslash⟩ := hplain
  refine ⟨.inr ⟨hblank, fun h => absurd h hslash⟩, ?_⟩
  rintro d ⟨⟩
  exact ⟨hpart, hpoint, hbackslash⟩

/-- A punctuator of a literal is read whatever stands behind it. -/
theorem Syntax.Token.ofText_punctuator {c : CodePoint} (hc : c ∈ "()[]\x7b\x7d,:;".toText)
    (t : Text) : Token.ofText (c :: t) = .symbol [c] := by
  have hall : ("()[]\x7b\x7d,:;".toText.all fun c => !c.isNameStart && !c.isDigit &&
      c != ofChar '\\' && c != ofChar '"' && c != ofChar '\'' &&
      c != ofChar '`' && c != ofChar '#' && c != ofChar '.') = true := by
    decide
  have hplain := List.all_eq_true.mp hall c hc
  simp only [Bool.and_eq_true, Bool.not_eq_true', bne_iff_ne, ne_eq] at hplain
  obtain ⟨⟨⟨⟨⟨⟨⟨hstart, hdigit⟩, hbackslash⟩, hdouble⟩, hsingle⟩, hbacktick⟩, hsharp⟩, hpoint⟩ :=
    hplain
  have hname : name? (c :: t) = none := by
    simp only [name?, namePiece?, unicodeEscape?_of_head hbackslash, hstart, Bool.false_eq_true,
      if_false, Option.map_none]
  have hsymbol : symbol? (c :: t) = some [c] := by
    have hcases : c ∈ [ofChar '(', ofChar ')', ofChar '[',
      ofChar ']', ofChar '\x7b', ofChar '\x7d', ofChar ',',
      ofChar ':', ofChar ';'] := hc
    fin_cases hcases <;> rfl
  simp [Token.ofText, hdouble, hsingle, hbacktick, hsharp, hdigit, hpoint, hname, hsymbol]

/-- A punctuator with a blank behind it or without one. -/
theorem Syntax.Piece.row_punctuator {c : CodePoint} (hc : c ∈ "()[]\x7b\x7d,:;".toText)
    {gap : Text} (hgap : gap = [] ∨ gap = " ".toText) :
    Row IsSolid (c :: gap) [⟨[c], gap, .code, .code⟩] where
  spelled := by simp
  read s r hs hr := by
    have hbehind : (s.advance [c]).rest = r := by
      rw [Scan.advance, Scan.between, hs, List.cons_append, List.length_singleton,
        List.drop_succ_cons, List.drop_zero]
      rcases hgap with rfl | rfl
      · exact Scan.betweenFrom_of_isSolid hr
      · have hblank : Passage.blank.step? (s.offset + Scan.byteLength [c]) (ofChar ' ')
            r.head? = some .blank := rfl
        obtain ⟨_, _, _, heq⟩ := Scan.betweenFrom_of_step hblank .none s.comments
        rw [show " ".toText ++ r = ofChar ' ' :: r from rfl, heq]
        exact Scan.betweenFrom_of_isSolid hr
    refine ⟨s.advance [c], .cons rfl ?_ ?_ .nil, hbehind⟩
    · rw [hs]
      show (Token.ofText (c :: (gap ++ r))).spelling? = some [c]
      rw [Token.ofText_punctuator hc]
      rfl
    · rw [show s.behind .code [c] = s.advance [c] from rfl, hbehind, hs]
      rfl

/-! ### Literals -/

/-- A text that is read as pieces of its own in front of any text with which its last piece does
not go on. -/
def IsLiteral (t : Text) : Prop :=
  ∃ pieces last, t = Piece.spelled pieces ++ last.text ∧ last.gap = [] ∧ Piece.Stand pieces last ∧
    ∀ r, Ends r → last.before.lexeme? .code (last.text ++ r) = some last.text

/-- A text that is read as pieces of its own, in front of what may follow a part of a
literal. -/
def IsPart (t : Text) : Prop := Opens t ∧ ∃ pieces, Piece.Row Follows t pieces

/-- Pieces that stand on their own are read with the last of them, up to what is behind it. -/
theorem Syntax.Piece.Stand.lexed {pieces : List Piece} {last : Piece} (h : Stand pieces last)
    (hgap : last.gap = []) {s : Scan} {r : Text}
    (hs : s.rest = Piece.spelled pieces ++ (last.text ++ r))
    (hlast : last.before.lexeme? .code (last.text ++ r) = some last.text)
    (hr : r = [] ∨ IsSolid r) :
    ∃ e : Scan, Scan.Lexed .code s (pieces ++ [last]) .code e ∧ e.rest = r ∧
      (r = [] → e.next = .finish) := by
  obtain ⟨e, hlexed, he⟩ := h.read s r hs hlast
  have hadvance : e.advance last.text = Scan.between (e.offset + Scan.byteLength last.text)
      e.comments r := by
    rw [Scan.advance, he, List.drop_left]
  have hrest : (e.advance last.text).rest = r := by
    rw [hadvance]
    rcases hr with rfl | hsolid
    · rfl
    · exact Scan.betweenFrom_of_isSolid hsolid
  have hbehind : e.behind last.behind last.text = e.advance last.text := by
    rw [h.behind]
    rfl
  have hone : Scan.Lexed last.before e [last] last.behind (e.behind last.behind last.text) := by
    refine .cons rfl ?_ ?_ .nil
    · rw [he, h.behind]
      exact hlast
    · rw [hbehind, hrest, he, List.drop_left, hgap]
      rfl
  rw [hbehind, h.behind] at hone
  refine ⟨e.advance last.text, hlexed.append hone, hrest, ?_⟩
  rintro rfl
  rw [hadvance]
  rfl

theorem IsLiteral.isPart {t : Text} (h : IsLiteral t) : IsPart t := by
  obtain ⟨pieces, last, rfl, hgap, hstand, hlast⟩ := h
  refine ⟨hstand.opens, pieces ++ [last], ?_, fun s r hs hr => ?_⟩
  · simp [hgap]
  · rw [List.append_assoc] at hs
    obtain ⟨e, hlexed, he, -⟩ := hstand.lexed hgap hs (hlast r hr.2) hr.1
    exact ⟨e, hlexed, he⟩

/-- A single token. -/
theorem isLiteral_token {t : Text} (hopens : Opens t)
    (h : ∀ r, Ends r → (Token.ofText (t ++ r)).spelling? = some t) : IsLiteral t := by
  refine ⟨[], ⟨t, [], .code, .code⟩, rfl, rfl, ⟨rfl, hopens, fun s r hs _ => ⟨s, .nil, hs⟩⟩, ?_⟩
  exact h

/-- Where a name ends, nothing goes on with it. -/
theorem namePiece?_of_ends {r : Text} (h : Ends r) :
    namePiece? CodePoint.isNamePart r = none := by
  cases r with
  | nil => rfl
  | cons c r =>
    obtain ⟨hpart, -, hbackslash⟩ := h c rfl
    exact namePiece?_eq_none hpart hbackslash r

theorem opens_of_isNamePart {c : CodePoint} (h : c.isNamePart = true) (t : Text) :
    Opens (c :: t) := by
  rw [CodePoint.isNamePart, Bool.and_eq_true, Bool.and_eq_true, Bool.not_eq_true',
    Bool.not_eq_true'] at h
  refine ⟨c, rfl, h.1.2, fun hc => ?_⟩
  have hpunctuation : "/*#!".toText.all CodePoint.isPunctuation = true := by decide
  rw [List.all_eq_true.mp hpunctuation c hc] at h
  cases h.2

theorem Syntax.Token.ofText_nameStart {c : CodePoint} (hc : c.isNameStart = true) {t w : Text}
    (h : name? (c :: t) = some w) : Token.ofText (c :: t) = .name w := by
  have hne : ∀ d : CodePoint, d.isNameStart = false → c ≠ d := by
    rintro d hd rfl
    rw [hc] at hd
    cases hd
  have hdigit : c.isDigit = false := by
    rw [CodePoint.isNameStart, Bool.and_eq_true, Bool.not_eq_true'] at hc
    exact hc.2
  simp [Token.ofText, hne (ofChar '"') rfl, hne (ofChar '\'') rfl,
    hne (ofChar '`') rfl, hne (ofChar '#') rfl,
    hne (ofChar '.') rfl, hdigit, h]

theorem isLiteral_name {c : CodePoint} {t : Text} (hc : c.isNameStart = true)
    (h : name? (c :: t) = some (c :: t)) : IsLiteral (c :: t) := by
  refine isLiteral_token (opens_of_isNamePart (Bool.and_eq_true_iff.mp hc).1 t) fun r hr => ?_
  have hnil : name? ((c :: t) ++ []) = some (c :: t) := by
    rw [List.append_nil]
    exact h
  have hname := (name?_append hnil).2 r (namePiece?_of_ends hr)
  rw [List.cons_append] at hname ⊢
  rw [Token.ofText_nameStart hc hname]
  rfl

/-- A numeral begins with a digit. -/
theorem Syntax.Lexeme.Numeral.head {w : Text} (h : Numeral w) :
    ∃ c t, w = c :: t ∧ c.isDigit = true := by
  obtain ⟨whole, tail, isWhole, rfl⟩ := h.exists_whole
  obtain ⟨c, whole, rfl⟩ := List.exists_cons_of_ne_nil isWhole.ne_nil
  exact ⟨c, whole ++ tail, rfl, List.all_eq_true.mp isWhole.digits c List.mem_cons_self⟩

/-- A digit begins a number. -/
theorem Syntax.Token.ofText_digit {c : CodePoint} (hc : c.isDigit = true) {t w : Text}
    (h : number? (c :: t) = some w) : Token.ofText (c :: t) = .number w := by
  have hne : ∀ d : CodePoint, d.isDigit = false → c ≠ d := by
    rintro d hd rfl
    rw [hc] at hd
    cases hd
  simp [Token.ofText, hne (ofChar '"') rfl, hne (ofChar '\'') rfl,
    hne (ofChar '`') rfl, hne (ofChar '#') rfl, hc, h]

theorem isLiteral_numeral {w : Text} (h : Numeral w) : IsLiteral w := by
  obtain ⟨c, t, rfl, hc⟩ := h.head
  refine isLiteral_token (opens_of_isNamePart (isNamePart_of_isDigit hc) t) fun r hr => ?_
  have hnumber := number?_numeral h hr
  rw [List.cons_append] at hnumber ⊢
  rw [Token.ofText_digit hc hnumber]
  rfl

/-- A sign stands apart from the digits behind it. -/
theorem Syntax.Token.ofText_minus {c : CodePoint} (hc : c.isDigit = true) (t : Text) :
    Token.ofText (ofChar '-' :: c :: t) = .symbol "-".toText := by
  have hname : name? (ofChar '-' :: c :: t) = none := by
    have hbackslash : ofChar '-' ≠ ofChar '\\' := by decide
    simp only [name?, namePiece?, unicodeEscape?_of_head hbackslash]
    rfl
  have hsymbol : symbol? (ofChar '-' :: c :: t) = some "-".toText := by
    have hlonger : ∀ s ∈ symbols, s.head? = some (ofChar '-') →
        s = "-".toText ∨ s[1]? = some (ofChar '-') ∨ s[1]? = some (ofChar '=') := by
      decide
    cases h : symbol? (ofChar '-' :: c :: t) with
    | none =>
      have hminus := List.find?_eq_none.mp h "-".toText (by decide)
      exact absurd (by rfl) hminus
    | some w =>
      obtain ⟨u, hu⟩ := begins_symbol? h
      obtain ⟨d, w, rfl⟩ := List.exists_cons_of_ne_nil (ne_nil_of_symbol? h)
      rw [List.cons_append, List.cons.injEq] at hu
      obtain ⟨rfl, hu⟩ := hu
      rcases hlonger _ (mem_symbols_of_symbol? h) rfl with hw | hw | hw
      · rw [hw]
      all_goals
        cases w with
        | nil => cases hw
        | cons d w =>
          obtain rfl : d = _ := Option.some.inj hw
          obtain rfl := (List.cons.inj hu).1
          cases hc
  simp only [Token.ofText, hname, hsymbol]
  rfl

theorem isLiteral_negative {w : Text} (h : Numeral w) : IsLiteral (ofChar '-' :: w) := by
  obtain ⟨c, t, rfl, hc⟩ := h.head
  have hsolid : ∀ r, IsSolid (c :: r) := fun r =>
    (opens_of_isNamePart (isNamePart_of_isDigit hc) r).isSolid
  refine ⟨[⟨"-".toText, [], .code, .code⟩], ⟨c :: t, [], .code, .code⟩, rfl, rfl, ⟨rfl, ?_, ?_⟩, ?_⟩
  · exact ⟨ofChar '-', rfl, by decide, by decide⟩
  · intro s r hs _
    have hbehind : (s.advance "-".toText).rest = c :: t ++ r := by
      rw [Scan.advance, Scan.between, hs]
      exact Scan.betweenFrom_of_isSolid (hsolid _)
    refine ⟨s.advance "-".toText, .cons rfl ?_ ?_ .nil, hbehind⟩
    · show (Token.ofText s.rest).spelling? = some "-".toText
      rw [hs]
      show (Token.ofText (ofChar '-' :: c :: (t ++ r))).spelling? = some "-".toText
      rw [Token.ofText_minus hc]
      rfl
    · rw [show s.behind .code "-".toText = s.advance "-".toText from rfl, hbehind, hs]
      rfl
  · intro r hr
    have hnumber := number?_numeral h hr
    rw [List.cons_append] at hnumber
    show (Token.ofText (c :: (t ++ r))).spelling? = some (c :: t)
    rw [Token.ofText_digit hc hnumber]
    rfl

/-! ### Strings -/

/-- The code point around strings. -/
def doubleQuote : CodePoint := ofChar '"'

/-- The other code point that may stand around strings. -/
def singleQuote : CodePoint := CodePoint.ofNat 0x27

/-- An escape begins with a backslash. -/
theorem head?_of_escape? {t w : Text} (h : escape? t = some w) :
    w.head? = some (ofChar '\\') := by
  cases t with
  | nil => cases h
  | cons c t =>
    by_cases hc : c = ofChar '\\'
    · obtain ⟨d, w, rfl⟩ := List.exists_cons_of_ne_nil (ne_nil_of_escape? h)
      rw [← hc, ← (List.cons_prefix_cons.mp (begins_escape? h)).1]
      rfl
    · rw [escape?_of_head hc] at h
      cases h

theorem head?_append_of_escape? {e u : Text} (read : escape? (e ++ u) = some e) (t : Text) :
    (e ++ t).head? = some (ofChar '\\') := by
  rw [List.head?_append_of_ne_nil _ (ne_nil_of_escape? read), head?_of_escape? read]

/-- Needs no escape in a string between quotes of one kind. -/
def isPlain (quote c : CodePoint) : Bool :=
  c ≠ quote && c ≠ '\\' && c ≠ '\r' && c ≠ '\n'

theorem isPlain_of_control {quote c : CodePoint} (hquote : c ≠ quote)
    (backslash : c ≠ ofChar '\\') (control : 0x20 ≤ c.val) : isPlain quote c = true := by
  have hreturn : c ≠ ofChar '\r' := by
    rintro rfl
    exact absurd control (by decide)
  have hfeed : c ≠ ofChar '\n' := by
    rintro rfl
    exact absurd control (by decide)
  simp [isPlain, hquote, backslash, hreturn, hfeed]

theorem isPlain_backslash (quote : CodePoint) : isPlain quote (ofChar '\\') = false := by
  simp [isPlain]

/-- What may stand in a string, behind what it stands for: escapes, and between them the longest
stretches of code points that need none. How far an escape goes depends on what stands behind it. -/
inductive Quoted (quote : CodePoint) : Text → Text → Prop
  | nil : Quoted quote [] []
  | fragment {w v t : Text} (nonempty : w ≠ []) (plain : w.all (isPlain quote) = true)
      (longest : ∀ c ∈ t.head?, isPlain quote c = false) (rest : Quoted quote v t) :
      Quoted quote (w ++ v) (w ++ t)
  | escape {e w v t : Text} (read : ∀ r, escape? (e ++ (t ++ quote :: r)) = some e)
      (cooked : Access.cook e = .ok w) (rest : Quoted quote v t) : Quoted quote (w ++ v) (e ++ t)

/-- A code point that needs no escape goes into the fragment behind it, or is one. -/
theorem Quoted.plain {quote c : CodePoint} {v t : Text} (hc : isPlain quote c = true)
    (h : Quoted quote v t) : Quoted quote (c :: v) (c :: t) := by
  have hone : [c].all (isPlain quote) = true := by rw [List.all_cons, hc]; rfl
  cases h with
  | nil => exact .fragment (List.cons_ne_nil c []) hone (by simp) .nil
  | fragment _ plain longest rest =>
    refine .fragment (List.cons_ne_nil c _) ?_ longest rest
    rw [List.all_cons, hc, plain]
    rfl
  | @escape e _ _ t read cooked rest =>
    refine .fragment (List.cons_ne_nil c []) hone ?_ (.escape read cooked rest)
    intro d hd
    cases (head?_append_of_escape? (read []) t).symm.trans hd
    exact isPlain_backslash quote

/-- A fragment of a string ends where the quote or an escape stands. -/
theorem stringFragment_append_quote {quote : CodePoint} {w t : Text}
    (plain : w.all (isPlain quote) = true) (longest : ∀ c ∈ t.head?, isPlain quote c = false)
    (r : Text) : Parser.stringFragment quote (w ++ (t ++ quote :: r)) = w := by
  show List.takeWhile (isPlain quote) _ = _
  rw [List.takeWhile_append_of_pos (List.all_eq_true.mp plain)]
  have hend : (t ++ quote :: r).takeWhile (isPlain quote) = [] := by
    cases t with
    | nil => rw [List.nil_append, List.takeWhile_cons_of_neg (by simp [isPlain])]
    | cons c u =>
      have hc : isPlain quote c = false := longest c rfl
      rw [List.cons_append, List.takeWhile_cons_of_neg (by rw [hc]; decide)]
  rw [hend, List.append_nil]

/-- A fragment begins neither with the quote nor with an escape. -/
theorem head?_of_isPlain {quote : CodePoint} {w : Text} (nonempty : w ≠ [])
    (plain : w.all (isPlain quote) = true) (t : Text) :
    (w ++ t).head? ≠ some quote ∧ escape? (w ++ t) = none := by
  obtain ⟨c, w, rfl⟩ := List.exists_cons_of_ne_nil nonempty
  rw [List.all_cons, Bool.and_eq_true] at plain
  simp only [isPlain, Bool.and_eq_true, decide_eq_true_eq] at plain
  obtain ⟨⟨⟨⟨hquote, backslash⟩, -⟩, -⟩, -⟩ := plain
  exact ⟨fun h => hquote (Option.some.inj h), escape?_of_head backslash _⟩

/-- A text that is read piece by piece inside of a string, up to the quote behind it. -/
def IsInside (t : Text) : Prop :=
  ∃ pieces, Piece.spelled pieces = t ∧ ∀ (s : Scan) (r : Text), s.rest = t ++ doubleQuote :: r →
    ∃ e : Scan, Scan.Lexed (.string doubleQuote) s pieces (.string doubleQuote) e ∧
      e.rest = doubleQuote :: r

theorem IsInside.cons {w t : Text} (h : IsInside t)
    (hw : ∀ r, Place.lexeme? (.string doubleQuote) (.string doubleQuote)
      (w ++ (t ++ doubleQuote :: r)) = some w) : IsInside (w ++ t) := by
  obtain ⟨pieces, hspelled, hread⟩ := h
  refine ⟨⟨w, [], .string doubleQuote, .string doubleQuote⟩ :: pieces, by simp [hspelled], ?_⟩
  intro s r hs
  rw [List.append_assoc] at hs
  have hbehind : (s.behind (.string doubleQuote) w).rest = t ++ doubleQuote :: r :=
    Scan.rest_advanceInside hs
  obtain ⟨e, hlexed, he⟩ := hread _ r hbehind
  refine ⟨e, .cons rfl ?_ ?_ hlexed, he⟩
  · rw [hs]
    exact hw r
  · rw [hbehind, hs, List.drop_left]
    rfl

theorem Quoted.isInside {v t : Text} (h : Quoted doubleQuote v t) : IsInside t := by
  induction h with
  | nil => exact ⟨[], rfl, fun s r hs => ⟨s, .nil, hs⟩⟩
  | @fragment w _ t nonempty plain longest _ ih =>
    refine ih.cons fun r => ?_
    have hfragment := stringFragment_append_quote plain longest r
    obtain ⟨hquote, hescape⟩ := head?_of_isPlain nonempty plain (t ++ doubleQuote :: r)
    rw [Place.lexeme?_fragment hquote hescape (by rw [hfragment]; exact nonempty), hfragment]
  | escape read _ _ ih =>
    refine ih.cons fun r => Place.lexeme?_escape ?_ (read r)
    rw [head?_append_of_escape? (read r)]
    decide

theorem flatMap_escapeSurrogate {t : Text} (h : t.all CodePoint.isAscii = true) :
    t.flatMap Literal.escapeSurrogate = t := by
  induction t with
  | nil => rfl
  | cons c t ih =>
    rw [List.all_cons, Bool.and_eq_true] at h
    have hc : c.isSurrogate = false := by
      have hlow : c.val < 0x80 := by simpa [CodePoint.isAscii] using h.1
      simp only [CodePoint.isSurrogate, Bool.and_eq_false_iff, decide_eq_false_iff_not]
      omega
    rw [List.flatMap_cons, ih h.2, Literal.escapeSurrogate, hc]
    rfl

/-- The escape of a code point by its number, with four digits. -/
theorem escape?_unit {digits : Text} (hlength : digits.length = 4)
    (hdigits : digits.all CodePoint.isHexDigit = true) (r : Text) :
    escape? ("\\u".toText ++ digits ++ r) = some ("\\u".toText ++ digits) := by
  have hhex : hexDigits? 4 (digits ++ r) = some digits := by
    rw [hexDigits?, ← hlength, List.take_left]
    simp [hdigits]
  have hbrace : bracedHex? (digits ++ r) = none := by
    obtain ⟨d, digits, rfl⟩ := List.exists_cons_of_length_eq_add_one hlength
    have hd : d ≠ ofChar '\x7b' := by
      rintro rfl
      cases hdigits
    simp [bracedHex?, hd]
  have hunicode : unicodeEscape? (ofChar '\\' :: ofChar 'u' :: (digits ++ r)) =
      some (ofChar '\\' :: ofChar 'u' :: digits) := by
    simp [unicodeEscape?, hbrace, hhex]
  exact hunicode

theorem mem_of_simpleEscape? {d c : CodePoint} (h : Json.simpleEscape? d = some c) :
    d ∈ "\"\\/bfnrt".toText := by
  unfold Json.simpleEscape? at h
  split_ifs at h with hself hb hf hn hr ht
  · simp only [Bool.or_eq_true, decide_eq_true_eq] at hself
    rcases hself with (rfl | rfl) | rfl <;> decide
  · exact hb ▸ by decide
  · exact hf ▸ by decide
  · exact hn ▸ by decide
  · exact hr ▸ by decide
  · exact ht ▸ by decide

/-- The escape of a code point by a letter. -/
theorem escape?_letter {d : CodePoint} (hd : d ∈ "\"\\/bfnrt".toText) (r : Text) :
    escape? ([ofChar '\\', d] ++ r) = some [ofChar '\\', d] := by
  have hcases : d ∈ [ofChar '"', ofChar '\\', ofChar '/',
    ofChar 'b', ofChar 'f', ofChar 'n', ofChar 'r',
    ofChar 't'] := hd
  cases r <;> fin_cases hcases <;> rfl

/-- From the last code point of ASCII on, nothing has to be escaped in JSON. -/
theorem Json.escaped_of_le {c : CodePoint} (h : 0x7F ≤ c.val) : Json.escaped c = [c] := by
  have hne : ∀ d : Char, d.toNat < 0x7F → c ≠ ofChar d := by
    rintro d hd rfl
    rw [CodePoint.val_ofChar] at h
    omega
  rw [Json.escaped, if_neg (hne '"' (by decide)), if_neg (hne '\\' (by decide)), if_neg (by omega),
    if_neg (by omega), if_neg (by omega), if_neg (by omega), if_neg (by omega), if_neg (by omega)]

/-- A code point is written as in JSON, but a surrogate as the escape of its number. -/
theorem Literal.escaped_cases (c : CodePoint) :
    (c.isSurrogate = false ∧ (Json.escaped c).flatMap escapeSurrogate = Json.escaped c) ∨
      (c.isSurrogate = true ∧
        (Json.escaped c).flatMap escapeSurrogate = Json.unitEscape (Text.hex 4 c.val) []) := by
  cases hc : c.isSurrogate with
  | true =>
    have hsurrogate := hc
    simp only [CodePoint.isSurrogate, Bool.and_eq_true, decide_eq_true_eq] at hsurrogate
    refine .inr ⟨rfl, ?_⟩
    rw [Json.escaped_of_le (by omega), List.flatMap_singleton, escapeSurrogate, if_pos hc,
      Json.unitEscape, List.append_nil]
    rfl
  | false =>
    refine .inl ⟨rfl, ?_⟩
    by_cases hascii : c.val < 0x7F
    · have hall := Json.all_isAscii_asciiEscaped c
      rw [Json.asciiEscaped, if_pos hascii] at hall
      exact flatMap_escapeSurrogate hall
    · rw [Json.escaped_of_le (Nat.not_lt.mp hascii), List.flatMap_singleton, escapeSurrogate, hc]
      rfl

/-- The spellings of a code point in a string literal: an escape by a letter, the escape of its
number, or itself. -/
theorem Literal.spelling_cases (c : CodePoint) :
    (∃ d, Json.simpleEscape? d = some c ∧
        (Json.escaped c).flatMap escapeSurrogate = [ofChar '\\', d]) ∨
      (c.val < 0x10000 ∧
        (Json.escaped c).flatMap escapeSurrogate = "\\u".toText ++ Text.hex 4 c.val) ∨
      (0x20 ≤ c.val ∧ c ≠ doubleQuote ∧ c ≠ ofChar '\\' ∧
        (Json.escaped c).flatMap escapeSurrogate = [c]) := by
  have hunit : Json.unitEscape (Text.hex 4 c.val) [] = "\\u".toText ++ Text.hex 4 c.val := by
    rw [Json.unitEscape, List.append_nil]
    rfl
  rcases Literal.escaped_cases c with ⟨-, hsame⟩ | ⟨hsurrogate, hescape⟩
  · rw [hsame]
    rcases Json.escaped_cases c with ⟨d, hd, hc⟩ | ⟨hlow, hc⟩ | ⟨control, quote, backslash, hc⟩
    · exact .inl ⟨d, hd, hc⟩
    · exact .inr (.inl ⟨by omega, hc.trans hunit⟩)
    · exact .inr (.inr ⟨control, quote, backslash, hc⟩)
  · simp only [CodePoint.isSurrogate, Bool.and_eq_true, decide_eq_true_eq] at hsurrogate
    exact .inr (.inl ⟨by omega, hescape.trans hunit⟩)

/-- A letter behind a backslash stands for the same in a program as in JSON. -/
theorem Access.cook_letter {d c : CodePoint} (h : Json.simpleEscape? d = some c) :
    cook [ofChar '\\', d] = .ok [c] := by
  have hcases : d ∈ [ofChar '"', ofChar '\\', ofChar '/',
    ofChar 'b', ofChar 'f', ofChar 'n', ofChar 'r',
    ofChar 't'] := mem_of_simpleEscape? h
  fin_cases hcases <;> cases h <;> rfl

/-- An escape with a mark and hexadecimal digits stands for the code point with that number. -/
theorem Access.cook_digits {mark d : CodePoint} (hmark : mark = ofChar 'u' ∨
    mark = ofChar 'x') {digits : Text}
    (hdigits : (d :: digits).all CodePoint.isHexDigit = true) :
    cook (ofChar '\\' :: mark :: d :: digits) =
      (codePoint (Text.valueIn 16 (d :: digits))).map fun point => [point] := by
  have hd : d ≠ ofChar '\x7b' := by
    rintro rfl
    cases hdigits
  have hbreak : startsWithBreak (mark :: d :: digits) = false := by
    rcases hmark with rfl | rfl <;> rfl
  show cookBody (mark :: d :: digits) = _
  rcases hmark with rfl | rfl <;> simp [cookBody, hbreak, hd]

/-- The escape of a number stands for the code point with it. -/
theorem Access.cook_unit {c : CodePoint} (h : c.val < 0x10000) :
    cook ("\\u".toText ++ Text.hex 4 c.val) = .ok [c] := by
  have hlength := Text.length_hex_four h
  have hdigits := Text.all_isHexDigit_hex 4 c.val
  have hvalue := Text.valueIn_hex 4 c.val
  obtain ⟨d, digits, hhex⟩ := List.exists_cons_of_length_eq_add_one hlength
  rw [hhex] at hdigits hvalue ⊢
  refine (Access.cook_digits (.inl rfl) hdigits).trans ?_
  rw [hvalue, codePoint, dif_pos c.isLt]
  rfl

/-- A code point is read back from how it is spelt, whatever stands behind it. -/
theorem Quoted.cons {v t : Text} (h : Quoted doubleQuote v t) (c : CodePoint) :
    Quoted doubleQuote (c :: v) ((Json.escaped c).flatMap Literal.escapeSurrogate ++ t) := by
  rcases Literal.spelling_cases c with ⟨d, hd, hc⟩ | ⟨hunit, hc⟩ | ⟨control, quote, backslash, hc⟩
  · rw [hc]
    exact .escape (fun r => escape?_letter (mem_of_simpleEscape? hd) _) (Access.cook_letter hd) h
  · rw [hc]
    have hread := escape?_unit (Text.length_hex_four hunit) (Text.all_isHexDigit_hex 4 c.val)
    exact .escape (fun r => hread _) (Access.cook_unit hunit) h
  · rw [hc]
    exact h.plain (isPlain_of_control quote backslash control)

/-- What stands between the quotes of a string literal. -/
def Literal.body (t : Text) : Text := t.flatMap fun c => (Json.escaped c).flatMap escapeSurrogate

theorem Literal.body_cons (c : CodePoint) (t : Text) :
    body (c :: t) = (Json.escaped c).flatMap escapeSurrogate ++ body t := List.flatMap_cons

theorem Literal.string_eq (t : Text) :
    string t = doubleQuote :: (body t ++ [doubleQuote]) := by
  rw [string, Json.writeString, List.flatMap_append, List.flatMap_cons, List.flatMap_assoc]
  rfl

theorem quoted_body (t : Text) : Quoted doubleQuote t (Literal.body t) := by
  induction t with
  | nil => exact .nil
  | cons c t ih =>
    rw [Literal.body_cons]
    exact ih.cons c

/-- A string is a literal of a program. -/
theorem isLiteral_string (t : Text) : IsLiteral (Literal.string t) := by
  obtain ⟨pieces, hspelled, hread⟩ := (quoted_body t).isInside
  have hstring := Literal.string_eq t
  rw [← hspelled] at hstring hread
  refine ⟨⟨[doubleQuote], [], .code, .string doubleQuote⟩ :: pieces,
    ⟨[doubleQuote], [], .string doubleQuote, .code⟩, ?_, rfl, ⟨rfl, ?_, ?_⟩, fun r _ => rfl⟩
  · rw [hstring, Piece.spelled_cons]
    rfl
  · exact ⟨doubleQuote, rfl, by decide, by decide⟩
  · intro s r hs _
    have hbehind : (s.behind (.string doubleQuote) [doubleQuote]).rest =
        Piece.spelled pieces ++ doubleQuote :: r := by
      show s.rest.drop 1 = _
      rw [hs, Piece.spelled_cons]
      rfl
    obtain ⟨e, hlexed, he⟩ := hread _ r hbehind
    refine ⟨e, .cons rfl ?_ ?_ hlexed, he⟩
    · rw [hs, Piece.spelled_cons]
      rfl
    · rw [hbehind, hs, Piece.spelled_cons]
      rfl

/-! ### Arrays and objects -/

/-- What stands between brackets is part of a literal. -/
theorem isLiteral_bracketed {opening closing : CodePoint} (ho : opening ∈ "([\x7b".toText)
    (hc : closing ∈ ")]\x7d".toText) {inner : Text} {pieces : List Piece}
    (h : Piece.Row Follows inner pieces) (hinner : inner = [] ∨ Opens inner) :
    IsLiteral (opening :: (inner ++ [closing])) := by
  have hsubset : ("([\x7b".toText.all fun c => "()[]\x7b\x7d,:;".toText.contains c) = true := by decide
  have hsubset' : (")]\x7d".toText.all fun c => "()[]\x7b\x7d,:;".toText.contains c &&
      ")]\x7d,:;".toText.contains c) = true := by decide
  have hopening : opening ∈ "()[]\x7b\x7d,:;".toText := by
    simpa using List.all_eq_true.mp hsubset opening ho
  have hclosing : closing ∈ "()[]\x7b\x7d,:;".toText ∧ closing ∈ ")]\x7d,:;".toText := by
    simpa using List.all_eq_true.mp hsubset' closing hc
  have hfollows : ∀ r, Follows ([closing] ++ r) := fun r => follows_cons hclosing.2 r
  have hsolid : ∀ r, IsSolid (inner ++ ([closing] ++ r)) := by
    intro r
    rcases hinner with rfl | hopens
    · exact (hfollows r).1.resolve_left (List.cons_ne_nil _ _)
    · exact (hopens.append _).isSolid
  have hrow := Piece.row_punctuator hopening (.inl rfl)
  refine ⟨⟨[opening], [], .code, .code⟩ :: pieces, ⟨[closing], [], .code, .code⟩, ?_, rfl,
    ⟨rfl, ?_, ?_⟩, ?_⟩
  · rw [Piece.spelled_cons, h.spelled]
    rfl
  · have hplain : ("([\x7b".toText.all fun c => !c.isBlank && !"/*#!".toText.contains c) = true := by
      decide
    exact ⟨opening, rfl, by simpa using List.all_eq_true.mp hplain opening ho⟩
  · intro s r hs _
    rw [Piece.spelled_cons, h.spelled, List.append_assoc] at hs
    obtain ⟨e, hlexed, he⟩ := hrow.read s _ hs (hsolid r)
    obtain ⟨e', hlexed', he'⟩ := h.read e _ he (hfollows r)
    exact ⟨e', hlexed.append hlexed', he'⟩
  · intro r _
    show (Token.ofText (closing :: r)).spelling? = some [closing]
    rw [Token.ofText_punctuator hclosing.1]
    rfl

/-- A part with a separator and another part behind it. -/
theorem IsPart.append {t u : Text} (ht : IsPart t) (hu : IsPart u) {c : CodePoint}
    (hc : c ∈ ",:".toText) : IsPart (t ++ (c :: " ".toText) ++ u) := by
  obtain ⟨hopens, pieces, hrow⟩ := ht
  obtain ⟨hopens', others, hrow'⟩ := hu
  have hsubset : (",:".toText.all fun c => "()[]\x7b\x7d,:;".toText.contains c &&
      ")]\x7d,:;".toText.contains c) = true := by decide
  have hseparator : c ∈ "()[]\x7b\x7d,:;".toText ∧ c ∈ ")]\x7d,:;".toText := by
    simpa using List.all_eq_true.mp hsubset c hc
  have hmiddle := hrow.append (Piece.row_punctuator hseparator.1 (.inr rfl)) fun r _ =>
    follows_cons hseparator.2 _
  exact ⟨(hopens.append _).append _, _,
    hmiddle.append hrow' fun r _ => (hopens'.append r).isSolid⟩

/-- Parts with commas between them. -/
theorem isPart_join {part : Text} {parts : List Text} (h : IsPart part)
    (hparts : ∀ part ∈ parts, IsPart part) : IsPart (Text.join ", ".toText (part :: parts)) := by
  induction parts generalizing part with
  | nil =>
    rw [Text.join, List.intercalate_singleton]
    exact h
  | cons next parts ih =>
    obtain ⟨hnext, hparts⟩ := List.forall_mem_cons.mp hparts
    rw [Text.join, List.intercalate_cons_cons]
    exact h.append (ih hnext hparts) (by decide)

/-- Parts in brackets, with commas between them. -/
theorem isLiteral_join {opening closing : CodePoint} (ho : opening ∈ "([\x7b".toText)
    (hc : closing ∈ ")]\x7d".toText) {parts : List Text} (h : ∀ part ∈ parts, IsPart part) :
    IsLiteral (opening :: (Text.join ", ".toText parts ++ [closing])) := by
  cases parts with
  | nil => exact isLiteral_bracketed ho hc (Piece.Row.nil Follows) (.inl rfl)
  | cons part parts =>
    obtain ⟨hpart, hparts⟩ := List.forall_mem_cons.mp h
    obtain ⟨hopens, pieces, hrow⟩ := isPart_join hpart hparts
    exact isLiteral_bracketed ho hc hrow (.inr hopens)

namespace Value

/-- The source of a value is a literal of a program. -/
theorem isLiteral_source (v : Value) {t : Text} (h : v.source = .ok (some t)) : IsLiteral t := by
  have step : SourceStep fun _ t => IsLiteral t :=
    { null := isLiteral_name (by decide) (by decide)
      bool := fun b => by cases b <;> exact isLiteral_name (by decide) (by decide)
      text := isLiteral_string
      number := fun h => by
        rcases Number.exists_numeral_of_source h with hnumeral | ⟨digits, hnumeral, rfl⟩
        · exact isLiteral_numeral hnumeral
        · exact isLiteral_negative hnumeral
      array := fun h => isLiteral_join (by decide) (by decide)
        (forall_of_forall₂ (h.imp fun _ _ hpart => hpart.isPart))
      object := fun h => by
        refine isLiteral_join (by decide) (by decide) (forall_of_forall₂ (h.imp ?_))
        rintro _ member ⟨t, rfl, ht⟩
        exact (isLiteral_string _).isPart.append ht.isPart (by decide) }
  exact step.source v h

theorem isLiteral_literal {v : Value} {t : Text} {strength : Strength}
    (h : v.literal = .ok (some (t, strength))) : IsLiteral t :=
  isLiteral_source v (source_of_literal h)

end Value

end Unproxy
