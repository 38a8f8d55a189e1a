import Mathlib
import Unproxy.Proofs.Syntax.Lexeme

/-!
# Unproxy.Proofs.Syntax.Piece

The tokens of a text, said without the grammar. A text is cut into pieces: tokens, and the
parts of strings, templates and regular expressions. Which piece a text begins with depends
on the place where it is read: a slash divides or opens a regular expression, and a brace
closes a block or leads back into a template. The grammar chooses the place behind each
piece, and the text decides all else.

Main definitions:

* `Place`: where the next piece of a text is read;
* `Place.lexeme?`: the piece that a text begins with, from one place to the next;
* `Piece`: a piece with the white space and the comments behind it;
* `Scan.Lexed`: the pieces between two scans;
* `Piece.Cut`: a stretch of pieces with nothing but whole tokens in it.

Main statements:

* `Place.begins_lexeme?`: a piece stands at the head of the text it is read from;
* `Token.reads_ofText`: every token that can be read is a piece;
* `Scan.Lexed.rest_eq`: pieces and what is between them make up the text.
-/

namespace Unproxy.Syntax

/-! ### Places -/

/-- Where the next piece of a text is read. -/
inductive Place where
  /-- Between tokens. -/
  | code
  | string (quote : CodePoint)
  | template
  /-- Behind the slash that opens a regular expression. -/
  | pattern
  /-- Before the slash that closes it. -/
  | slash
  | flags
  deriving DecidableEq

/-- The spelling of a token that is not the beginning of a quotation. -/
def Token.spelling? : Token → Option Text
  | .name spelling | .privateName spelling | .number spelling | .symbol spelling => some spelling
  | .quote _ | .backtick | .finish | .unknown => none

namespace Place

/-- A stretch of text, if it is not empty. -/
def stretch? (t : Text) : Option Text := if t = [] then none else some t

/-- The piece that begins a text between tokens and leads to a place. -/
def codeLexeme? (t : Text) : Place → Option Text
  | .code => (Token.ofText t).spelling?
  | .string quote => if Token.ofText t = .quote quote then some [quote] else none
  | .template =>
    if Token.ofText t = .backtick then some "`".toText
    else if Token.ofText t = .symbol "\x7d".toText then some "\x7d".toText
    else none
  | .pattern => if t.head? = some (CodePoint.ofChar '/') then some "/".toText else none
  | .slash | .flags => none

/-- The piece that begins a text in a string. -/
def stringLexeme? (quote : CodePoint) (t : Text) : Place → Option Text
  | .code => if t.head? = some quote then some [quote] else none
  | .string quote' =>
    if quote' = quote ∧ t.head? ≠ some quote then
      (Lexeme.escape? t).or (stretch? (Parser.stringFragment quote t))
    else none
  | .template | .pattern | .slash | .flags => none

/-- The piece that begins a text in a template. -/
def templateLexeme? (t : Text) : Place → Option Text
  | .code =>
    if t.head? = some (CodePoint.ofChar '`') then some "`".toText
    else if "$\x7b".toText <+: t then some "$\x7b".toText
    else none
  | .template =>
    if t.head? = some (CodePoint.ofChar '`') ∨ "$\x7b".toText <+: t then none
    else (Lexeme.escape? t).or (stretch? (Parser.templateFragment t))
  | .string _ | .pattern | .slash | .flags => none

/-- The slash that closes a regular expression, with flags behind it or without. -/
def slashLexeme? (t : Text) : Place → Option Text
  | .code =>
    if t.head? = some (CodePoint.ofChar '/') ∧ (t.drop 1).takeWhile CodePoint.isLower = [] then
      some "/".toText
    else none
  | .flags =>
    if t.head? = some (CodePoint.ofChar '/') ∧ (t.drop 1).takeWhile CodePoint.isLower ≠ [] then
      some "/".toText
    else none
  | .string _ | .template | .pattern | .slash => none

/-- The piece that a text begins with, from one place to the next. -/
def lexeme? (place place' : Place) (t : Text) : Option Text :=
  match place with
  | .code => codeLexeme? t place'
  | .string quote => stringLexeme? quote t place'
  | .template => templateLexeme? t place'
  | .pattern => if place' = .slash then (Parser.regexBody? .outside false t).bind stretch? else none
  | .slash => slashLexeme? t place'
  | .flags => if place' = .code then stretch? (t.takeWhile CodePoint.isLower) else none

theorem stretch?_eq_some_iff {t w : Text} : stretch? t = some w ↔ t = w ∧ w ≠ [] := by
  unfold stretch?
  split
  · rename_i h
    simp only [h, reduceCtorEq, false_iff, not_and, Decidable.not_not]
    exact Eq.symm
  · rename_i h
    rw [Option.some.injEq]
    exact ⟨fun heq => ⟨heq, heq ▸ h⟩, And.left⟩

end Place

namespace Token

/-- A token that can be read is the piece that a text begins with. -/
def Reads (t : Text) : Token → Prop
  | .name spelling | .privateName spelling | .number spelling | .symbol spelling =>
    Place.lexeme? .code .code t = some spelling
  | .quote c => Place.lexeme? .code (.string c) t = some [c]
  | .backtick => Place.lexeme? .code .template t = some "`".toText
  | .finish | .unknown => True

theorem reads_ofText (t : Text) : (Token.ofText t).Reads t := by
  cases h : Token.ofText t with
  | name | privateName | number | symbol =>
    show (Token.ofText t).spelling? = some _
    rw [h]
    rfl
  | quote c => exact if_pos h
  | backtick => exact if_pos h
  | finish | unknown => trivial

theorem ne_nil_of_spelling? {t lexeme : Text} (h : (Token.ofText t).spelling? = some lexeme) :
    lexeme ≠ [] := by
  unfold Token.ofText at h
  split at h
  · cases h
  · split at h
    · cases h
    · split at h
      · cases h
      · split at h
        · split at h
          · cases h
            exact List.cons_ne_nil _ _
          · cases h
        · split at h
          · split at h
            · rename_i w hlexeme
              cases h
              exact Lexeme.ne_nil_of_number? hlexeme
            · cases h
          · split at h
            · rename_i w hlexeme
              cases h
              exact Lexeme.ne_nil_of_name? hlexeme
            · split at h
              · rename_i w hlexeme
                cases h
                exact Lexeme.ne_nil_of_symbol? hlexeme
              · cases h

end Token

namespace Place

/-- A code point at the head of a text. -/
theorem begins_of_head? {t : Text} {c : CodePoint} (h : t.head? = some c) : [c] <+: t := by
  obtain ⟨rest, rfl⟩ := List.head?_eq_some_iff.mp h
  exact ⟨rest, rfl⟩

section

variable {t w : Text} {place place' : Place}

theorem begins_of_stretch? {a : Text} (ha : a <+: t) (h : stretch? a = some w) : w <+: t := by
  rw [← (stretch?_eq_some_iff.mp h).1]
  exact ha

theorem begins_codeLexeme? (h : codeLexeme? t place = some w) : w <+: t := by
  have htoken := Token.begins_ofText t
  cases place with
  | code =>
    replace h : (Token.ofText t).spelling? = some w := h
    cases hnext : Token.ofText t <;> rw [hnext] at h htoken <;> cases h <;> exact htoken
  | string quote =>
    obtain ⟨hquote, h⟩ := Option.ite_none_right_eq_some.mp h
    cases h
    rw [hquote] at htoken
    exact htoken
  | template =>
    rw [codeLexeme?] at h
    split at h
    · rename_i hbacktick
      cases h
      rw [hbacktick] at htoken
      exact htoken
    · obtain ⟨hbrace, h⟩ := Option.ite_none_right_eq_some.mp h
      cases h
      rw [hbrace] at htoken
      exact htoken
  | pattern =>
    obtain ⟨hslash, h⟩ := Option.ite_none_right_eq_some.mp h
    cases h
    exact begins_of_head? hslash
  | slash | flags => cases h

theorem begins_stringLexeme? {quote : CodePoint} (h : stringLexeme? quote t place = some w) :
    w <+: t := by
  cases place with
  | code =>
    obtain ⟨hquote, h⟩ := Option.ite_none_right_eq_some.mp h
    cases h
    exact begins_of_head? hquote
  | string quote' =>
    obtain ⟨-, h⟩ := Option.ite_none_right_eq_some.mp h
    rcases Option.or_eq_some_iff.mp h with h | ⟨-, h⟩
    · exact Lexeme.begins_escape? h
    · exact begins_of_stretch? (Lexeme.begins_stringFragment _ t) h
  | template | pattern | slash | flags => cases h

theorem begins_templateLexeme? (h : templateLexeme? t place = some w) : w <+: t := by
  cases place with
  | code =>
    rw [templateLexeme?] at h
    split at h
    · rename_i hquote
      cases h
      exact begins_of_head? hquote
    · obtain ⟨hopening, h⟩ := Option.ite_none_right_eq_some.mp h
      cases h
      exact hopening
  | template =>
    obtain ⟨-, h⟩ := Option.ite_none_left_eq_some.mp h
    rcases Option.or_eq_some_iff.mp h with h | ⟨-, h⟩
    · exact Lexeme.begins_escape? h
    · exact begins_of_stretch? (Lexeme.begins_templateFragment t) h
  | string _ | pattern | slash | flags => cases h

theorem begins_slashLexeme? (h : slashLexeme? t place = some w) : w <+: t := by
  cases place with
  | code | flags =>
    obtain ⟨hslash, h⟩ := Option.ite_none_right_eq_some.mp h
    cases h
    exact begins_of_head? hslash.1
  | string _ | template | pattern | slash => cases h

theorem lexeme?_escape {quote : CodePoint} (hquote : t.head? ≠ some quote)
    (h : Lexeme.escape? t = some w) : lexeme? (.string quote) (.string quote) t = some w := by
  simp [lexeme?, stringLexeme?, hquote, h]

theorem lexeme?_fragment {quote : CodePoint} (hquote : t.head? ≠ some quote)
    (h : Lexeme.escape? t = none) (hne : Parser.stringFragment quote t ≠ []) :
    lexeme? (.string quote) (.string quote) t = some (Parser.stringFragment quote t) := by
  simp [lexeme?, stringLexeme?, hquote, h, stretch?, hne]

theorem lexeme?_templateEscape (hquote : t.head? ≠ some (CodePoint.ofChar '`'))
    (hopening : ¬"$\x7b".toText <+: t) (h : Lexeme.escape? t = some w) :
    lexeme? .template .template t = some w := by
  have hplain : ¬(t.head? = some (CodePoint.ofChar '`') ∨ "$\x7b".toText <+: t) := by tauto
  rw [lexeme?, templateLexeme?, if_neg hplain, h, Option.some_or]

theorem lexeme?_templateFragment (hquote : t.head? ≠ some (CodePoint.ofChar '`'))
    (hopening : ¬"$\x7b".toText <+: t) (h : Lexeme.escape? t = none)
    (hne : Parser.templateFragment t ≠ []) :
    lexeme? .template .template t = some (Parser.templateFragment t) := by
  have hplain : ¬(t.head? = some (CodePoint.ofChar '`') ∨ "$\x7b".toText <+: t) := by tauto
  rw [lexeme?, templateLexeme?, if_neg hplain, h, Option.none_or, stretch?, if_neg hne]

/-- A piece stands at the head of the text it is read from. -/
theorem begins_lexeme? (h : lexeme? place place' t = some w) : w <+: t := by
  cases place with
  | code => exact begins_codeLexeme? h
  | string quote => exact begins_stringLexeme? h
  | template => exact begins_templateLexeme? h
  | pattern =>
    obtain ⟨-, h⟩ := Option.ite_none_right_eq_some.mp h
    obtain ⟨body, hbody, h⟩ := Option.bind_eq_some_iff.mp h
    have hbegins := Lexeme.begins_regexBody? hbody
    exact begins_of_stretch? ((List.prefix_append body _).trans hbegins) h
  | slash => exact begins_slashLexeme? h
  | flags =>
    obtain ⟨-, h⟩ := Option.ite_none_right_eq_some.mp h
    exact begins_of_stretch? (List.takeWhile_prefix _) h

theorem ne_nil_of_lexeme? (h : lexeme? place place' t = some w) : w ≠ [] := by
  have hor : ∀ {a : Text}, (Lexeme.escape? t).or (stretch? a) = some w → w ≠ [] := by
    intro a h
    rcases Option.or_eq_some_iff.mp h with h | ⟨-, h⟩
    · exact Lexeme.ne_nil_of_escape? h
    · exact (stretch?_eq_some_iff.mp h).2
  cases place with
  | code =>
    cases place' with
    | code => exact Token.ne_nil_of_spelling? h
    | template =>
      rw [lexeme?, codeLexeme?] at h
      split at h
      · cases h
        decide
      · obtain ⟨-, h⟩ := Option.ite_none_right_eq_some.mp h
        cases h
        decide
    | string quote | pattern =>
      obtain ⟨-, h⟩ := Option.ite_none_right_eq_some.mp h
      cases h
      exact List.cons_ne_nil _ _
    | slash | flags => cases h
  | string quote =>
    cases place' with
    | code =>
      obtain ⟨-, h⟩ := Option.ite_none_right_eq_some.mp h
      cases h
      exact List.cons_ne_nil _ _
    | string quote' => exact hor (Option.ite_none_right_eq_some.mp h).2
    | template | pattern | slash | flags => cases h
  | template =>
    cases place' with
    | code =>
      rw [lexeme?, templateLexeme?] at h
      split at h
      · cases h
        decide
      · obtain ⟨-, h⟩ := Option.ite_none_right_eq_some.mp h
        cases h
        decide
    | template => exact hor (Option.ite_none_left_eq_some.mp h).2
    | string _ | pattern | slash | flags => cases h
  | pattern =>
    obtain ⟨-, h⟩ := Option.ite_none_right_eq_some.mp h
    obtain ⟨body, -, h⟩ := Option.bind_eq_some_iff.mp h
    exact (stretch?_eq_some_iff.mp h).2
  | slash =>
    cases place' with
    | code | flags =>
      obtain ⟨-, h⟩ := Option.ite_none_right_eq_some.mp h
      cases h
      decide
    | string _ | template | pattern | slash => cases h
  | flags =>
    obtain ⟨-, h⟩ := Option.ite_none_right_eq_some.mp h
    exact (stretch?_eq_some_iff.mp h).2

end

end Place

/-! ### Pieces -/

/-- A piece of a text, with the white space and the comments behind it. -/
structure Piece where
  text : Text
  gap : Text
  before : Place
  behind : Place
  deriving DecidableEq

namespace Piece

/-- The text that pieces make up. -/
def spelled (pieces : List Piece) : Text := pieces.flatMap fun p => p.text ++ p.gap

@[simp] theorem spelled_nil : spelled [] = [] := rfl

@[simp] theorem spelled_cons (p : Piece) (pieces : List Piece) :
    spelled (p :: pieces) = p.text ++ (p.gap ++ spelled pieces) := by
  simp [spelled]

@[simp] theorem spelled_append (pieces others : List Piece) :
    spelled (pieces ++ others) = spelled pieces ++ spelled others :=
  List.flatMap_append

/-- A stretch of pieces, from the start of the first to the end of the last, that begins and
ends between tokens. The first of all pieces stands at an offset. -/
def Cut (offset : Nat) (pieces : List Piece) (start stop : Nat) : Prop :=
  ∃ before inside last behind, pieces = before ++ (inside ++ [last]) ++ behind ∧
    (∀ p ∈ (inside ++ [last]).head?, p.before = .code) ∧ last.behind = .code ∧
    start = offset + Scan.byteLength (spelled before) ∧
    stop = start + Scan.byteLength (spelled inside ++ last.text)

end Piece

namespace Scan

@[simp] theorem byteLength_nil : byteLength [] = 0 := rfl

@[simp] theorem byteLength_append (t t' : Text) :
    byteLength (t ++ t') = byteLength t + byteLength t' := by
  induction t with
  | nil => simp
  | cons c t ih =>
    have hcons : ∀ u : Text, byteLength (c :: u) = Utf8.width c + byteLength u := fun _ => rfl
    rw [List.cons_append, hcons, hcons, ih, Nat.add_assoc]

theorem rest_advanceInside {s : Scan} {lexeme t : Text} (h : s.rest = lexeme ++ t) :
    (s.advanceInside lexeme).rest = t := by
  show s.rest.drop lexeme.length = t
  rw [h, List.drop_left]

/-- The scan behind a piece that leads to a place. -/
def behind (s : Scan) (place : Place) (lexeme : Text) : Scan :=
  if place = .code then s.advance lexeme else s.advanceInside lexeme

/-- The pieces that are read between two scans. -/
inductive Lexed : Place → Scan → List Piece → Place → Scan → Prop
  | nil {place : Place} {s : Scan} : Lexed place s [] place s
  | cons {piece : Piece} {pieces : List Piece} {place place' : Place} {s s' : Scan}
      (before : piece.before = place)
      (text : place.lexeme? piece.behind s.rest = some piece.text)
      (gap : s.rest.drop piece.text.length = piece.gap ++ (s.behind piece.behind piece.text).rest)
      (others : Lexed piece.behind (s.behind piece.behind piece.text) pieces place' s') :
      Lexed place s (piece :: pieces) place' s'

namespace Lexed

variable {place place₁ place₂ : Place} {s s₁ s₂ : Scan} {pieces others : List Piece}

theorem append (h : Lexed place s pieces place₁ s₁) (h' : Lexed place₁ s₁ others place₂ s₂) :
    Lexed place s (pieces ++ others) place₂ s₂ := by
  induction h with
  | nil => exact h'
  | cons before text gap _ ih => exact .cons before text gap (ih h')

theorem exists_of_append (h : Lexed place s (pieces ++ others) place₂ s₂) :
    ∃ place₁ s₁, Lexed place s pieces place₁ s₁ ∧ Lexed place₁ s₁ others place₂ s₂ := by
  induction pieces generalizing place s with
  | nil => exact ⟨place, s, .nil, h⟩
  | cons p pieces ih =>
    cases h with
    | cons before text gap others =>
      obtain ⟨place₁, s₁, h₁, h₂⟩ := ih others
      exact ⟨place₁, s₁, .cons before text gap h₁, h₂⟩

/-- Pieces and what is between them make up the text. -/
theorem rest_eq (h : Lexed place s pieces place₁ s₁) : s.rest = Piece.spelled pieces ++ s₁.rest := by
  induction h with
  | nil => rfl
  | cons before text gap _ ih =>
    obtain ⟨behind, hbehind⟩ := Place.begins_lexeme? text
    rw [← hbehind, List.drop_left] at gap
    rw [← hbehind, gap, ih, Piece.spelled_cons, List.append_assoc, List.append_assoc]

/-- The places at the ends of a row of pieces. -/
theorem places (h : Lexed place s pieces place₁ s₁) :
    (∀ p ∈ pieces.head?, p.before = place) ∧ ∀ p ∈ pieces.getLast?, p.behind = place₁ := by
  induction h with
  | nil => simp
  | @cons p pieces place place' s s' before text gap others ih =>
    refine ⟨by simpa using before, fun q hq => ?_⟩
    cases pieces with
    | nil =>
      cases others with
      | nil =>
        cases hq
        rfl
    | cons r rest => exact ih.2 q (by rwa [List.getLast?_cons_cons] at hq)

end Lexed

end Scan

end Unproxy.Syntax
