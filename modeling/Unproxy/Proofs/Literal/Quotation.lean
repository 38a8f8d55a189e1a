import Mathlib
import Unproxy.Proofs.Literal.Tokens
import Unproxy.Proofs.Syntax.Operand
import Unproxy.Proofs.Text.Units

/-!
# Unproxy.Proofs.Literal.Quotation

A string literal is read back as one token that stands for the string it was written for.

The reader of programs has an escape grammar of its own, and it goes through a string fragment by
fragment. `Quoted` has a constructor for each of its steps, so what it makes of a string follows by
induction on how the string is quoted.

Main definitions:

* `Literal.bareQuote?`: where the first quote stands that is not escaped;
* `Syntax.Tree.Quotes`: a node that covers the spelling of a string, with the string's value;
* `Syntax.Parser.ReadsInside`: what reading the inside of a string gives.

Main statements:

* `Literal.bareQuote?_body`: the quote behind a literal is the first one that is not escaped;
* `Syntax.Parser.string_of_quoted`: what is quoted is read as one string;
* `Literal.parse_quoted`, `Literal.parse_string`: a literal alone is a program;
* `Literal.quotes_string`: the literal of a text stands for the units of the text.
-/

namespace Unproxy

open Syntax Syntax.Lexeme

/-! ### What a literal is made of -/

namespace Literal

/-- Where the first double quote stands that no backslash escapes. -/
def bareQuote? : Text → Option Nat
  | [] => none
  | [c] => if c = doubleQuote then some 0 else none
  | c :: d :: rest =>
    if c = '\\' then (bareQuote? rest).map (· + 2)
    else if c = doubleQuote then some 0
    else (bareQuote? (d :: rest)).map (· + 1)

theorem bareQuote?_quote (t : Text) : bareQuote? (doubleQuote :: t) = some 0 := by
  cases t <;> rfl

theorem bareQuote?_escape (d : CodePoint) (t : Text) :
    bareQuote? (CodePoint.ofChar '\\' :: d :: t) = (bareQuote? t).map (· + 2) := rfl

theorem bareQuote?_cons {c : CodePoint} (quote : c ≠ doubleQuote)
    (backslash : c ≠ CodePoint.ofChar '\\') (t : Text) :
    bareQuote? (c :: t) = (bareQuote? t).map (· + 1) := by
  cases t with
  | nil => simp [bareQuote?, quote]
  | cons d t => simp [bareQuote?, quote, backslash]

/-- Digits are passed over. -/
theorem bareQuote?_append {w : Text} (h : w.all CodePoint.isHexDigit = true) (t : Text) :
    bareQuote? (w ++ t) = (bareQuote? t).map (· + w.length) := by
  induction w with
  | nil => simp
  | cons c w ih =>
    rw [List.all_cons, Bool.and_eq_true] at h
    have quote : c ≠ doubleQuote := by
      rintro rfl
      cases h.1
    have backslash : c ≠ CodePoint.ofChar '\\' := by
      rintro rfl
      cases h.1
    rw [List.cons_append, bareQuote?_cons quote backslash, ih h.2, Option.map_map]
    rfl

/-- No spelling of a code point has a quote that is not escaped, or leaves a backslash open. -/
theorem bareQuote?_spelling (c : CodePoint) (t : Text) :
    bareQuote? ((Json.escaped c).flatMap escapeSurrogate ++ t) =
      (bareQuote? t).map (· + ((Json.escaped c).flatMap escapeSurrogate).length) := by
  rcases spelling_cases c with ⟨d, -, hc⟩ | ⟨hunit, hc⟩ | ⟨-, quote, backslash, hc⟩
  · rw [hc]
    exact bareQuote?_escape d t
  · rw [hc, List.append_assoc, List.length_append]
    show bareQuote? (CodePoint.ofChar '\\' :: CodePoint.ofChar 'u' :: (Text.hex 4 c.val ++ t)) = _
    rw [bareQuote?_escape, bareQuote?_append (Text.all_isHexDigit_hex 4 c.val), Option.map_map]
    congr 1
    funext n
    show n + _ + 2 = n + (2 + _)
    omega
  · rw [hc]
    exact bareQuote?_cons quote backslash t

/-- Behind the quote that opens a literal, the first one that is not escaped closes it. -/
theorem bareQuote?_body (t r : Text) :
    bareQuote? (body t ++ doubleQuote :: r) = some (body t).length := by
  induction t with
  | nil => exact bareQuote?_quote r
  | cons c t ih =>
    rw [body_cons, List.append_assoc, bareQuote?_spelling, ih, List.length_append, Nat.add_comm]
    rfl

/-- No spelling of a code point has a control character. -/
theorem le_of_mem_spelling {c d : CodePoint}
    (hd : d ∈ (Json.escaped c).flatMap escapeSurrogate) : 0x20 ≤ d.val := by
  rcases spelling_cases c with ⟨e, he, hc⟩ | ⟨-, hc⟩ | ⟨control, -, -, hc⟩
  · have hletters : ("\"\\/bfnrt".toText.all fun c => 0x20 ≤ c.val) = true := by decide
    have hletter := List.all_eq_true.mp hletters e (mem_of_simpleEscape? he)
    rw [hc] at hd
    rcases List.mem_pair.mp hd with rfl | rfl
    · decide
    · exact of_decide_eq_true hletter
  · rw [hc] at hd
    rcases List.mem_append.mp hd with hmark | hdigit
    · have hmarks : ("\\u".toText.all fun c => 0x20 ≤ c.val) = true := by decide
      exact of_decide_eq_true (List.all_eq_true.mp hmarks d hmark)
    · -- Below the blank there are no digits.
      have hnone : ((List.range 0x20).all fun n => !(CodePoint.ofNat n).isHexDigit) = true := by
        decide
      have hhex := List.all_eq_true.mp (Text.all_isHexDigit_hex 4 c.val) d hdigit
      by_contra hlow
      have hd := List.all_eq_true.mp hnone d.val (List.mem_range.mpr (Nat.not_le.mp hlow))
      rw [CodePoint.ofNat_val, hhex] at hd
      cases hd
  · rw [hc] at hd
    rw [List.mem_singleton.mp hd]
    exact control

theorem le_of_mem_string {t : Text} {d : CodePoint} (hd : d ∈ string t) : 0x20 ≤ d.val := by
  have hquote : 0x20 ≤ doubleQuote.val := by decide
  rw [string_eq] at hd
  rcases List.mem_cons.mp hd with rfl | hd
  · exact hquote
  · rcases List.mem_append.mp hd with hd | hd
    · obtain ⟨c, -, hc⟩ := List.mem_flatMap.mp hd
      exact le_of_mem_spelling hc
    · rw [List.mem_singleton.mp hd]
      exact hquote

end Literal

/-! ### Strings -/

namespace Syntax

/-- A node for a string that covers the given spelling of it, and its value. -/
structure Tree.Quotes (node : Tree) (offset : Nat) (spelling value : Text) : Prop where
  kind : node.kind = .string
  start : node.start = offset
  stop : node.stop = offset + Scan.byteLength spelling
  value : node.stringValue = .ok value

/-- What was read inside of a string, with the quote behind it: where it ends, and what its parts
stand for. None of them can be part of a pattern. -/
structure Tree.Inside (inside : List Tree) (stop : Nat) (value : Text) : Prop where
  stop : inside.getLast?.map Tree.stop = some stop
  settled : Tree.haveLooseDefault inside = false
  value : ∃ parts, (inside.filter Tree.isNamed).mapM Access.partValue = .ok parts ∧
    parts.flatten = value

theorem Tree.Inside.cons {inside : List Tree} {stop : Nat} {v : Text}
    (h : Tree.Inside inside stop v) {kind : Kind} (hkind : kind = .escape ∨ kind = .stringFragment)
    {e w : Text} (value : ∀ start stop, Access.partValue (Tree.leaf kind start stop e) = .ok w)
    (m n : Nat) : Tree.Inside (Tree.leaf kind m n e :: inside) stop (w ++ v) where
  stop := by
    obtain ⟨last, hlast, hstop⟩ := Option.map_eq_some_iff.mp h.stop
    rw [List.getLast?_cons, hlast]
    exact congrArg some hstop
  settled := by
    have hleaf : (Tree.leaf kind m n e).hasLooseDefault = false := by
      rcases hkind with rfl | rfl <;> rfl
    rw [Tree.haveLooseDefault, hleaf, h.settled]
    rfl
  value := by
    have hnamed : (Tree.leaf kind m n e).isNamed = true := by
      rcases hkind with rfl | rfl <;> rfl
    obtain ⟨parts, hparts, hvalue⟩ := h.value
    refine ⟨w :: parts, ?_, by rw [List.flatten_cons, hvalue]⟩
    rw [List.filter_cons_of_pos hnamed, List.mapM_cons, value, hparts]
    rfl

/-- With a quote before it, what was read inside of a string makes the string. -/
theorem Tree.Inside.quotes {inside : List Tree} {offset : Nat} {t v : Text}
    (h : Tree.Inside inside (offset + Scan.byteLength t) v) (n : Nat) (opening : Text) :
    (Tree.node .string (Tree.leaf .token offset n opening :: inside)).Quotes offset t
      (Utf16.joinPairs v) := by
  obtain ⟨last, hlast, hstop⟩ := Option.map_eq_some_iff.mp h.stop
  obtain ⟨parts, hparts, rfl⟩ := h.value
  refine ⟨rfl, rfl, ?_, ?_⟩
  · show ((_ :: inside).getLast?.map Tree.stop).getD 0 = _
    rw [List.getLast?_cons, hlast]
    exact hstop
  · show (((_ :: inside).filter Tree.isNamed).mapM Access.partValue).map _ = _
    rw [List.filter_cons_of_neg Bool.false_ne_true, hparts]
    rfl

theorem Scan.advance_advanceInside (s : Scan) (e w : Text) :
    (s.advanceInside e).advance w = s.advance (e ++ w) := by
  simp only [advance, advanceInside, byteLength_append, List.drop_drop, List.length_append,
    Nat.add_assoc]

theorem Scan.offset_advanceInside (s : Scan) (e w : Text) :
    (s.advanceInside e).offset + byteLength w = s.offset + byteLength (e ++ w) := by
  simp only [advanceInside, byteLength_append, Nat.add_assoc]

namespace Parser

/-- From here, the inside of a string is read up to the quote behind it. -/
def ReadsInside (quote : CodePoint) (p : Parser (List Tree)) (s : Scan) (spelling value : Text) :
    Prop :=
  ∃ inside, p s = some (inside, s.advance (spelling ++ [quote])) ∧
    Tree.Inside inside (s.offset + Scan.byteLength (spelling ++ [quote])) value

/-- One part of a string is read before the others. -/
theorem ReadsInside.cons {quote : CodePoint} {p : Parser (List Tree)} {s : Scan} {e t v w : Text}
    (h : ReadsInside quote p (s.advanceInside e) t v) {kind : Kind}
    (hkind : kind = .escape ∨ kind = .stringFragment)
    (value : ∀ start stop, Access.partValue (Tree.leaf kind start stop e) = .ok w) :
    ReadsInside quote (do
      let first ← takeInside kind e
      let others ← p
      return first :: others) s (e ++ t) (w ++ v) := by
  obtain ⟨inside, hread, hinside⟩ := h
  rw [Scan.advance_advanceInside, ← List.append_assoc] at hread
  rw [Scan.offset_advanceInside, ← List.append_assoc] at hinside
  refine ⟨Tree.leaf kind s.offset (s.offset + Scan.byteLength e) e :: inside, ?_,
    hinside.cons hkind value _ _⟩
  show (p >>= fun others => pure (_ :: others)) (s.advanceInside e) = _
  rw [bind_of_eq hread]
  rfl

/-- What is quoted is read up to the quote behind it. -/
theorem stringRest_of_quoted {quote : CodePoint} (hquote : quote ≠ CodePoint.ofChar '\\')
    {v t : Text} (h : Quoted quote v t) (r : Text) (n : Nat) (s : Scan)
    (hs : s.rest = t ++ quote :: r) (hn : t.length < n) :
    ReadsInside quote (stringRest quote n) s t v := by
  obtain ⟨n, rfl⟩ := Nat.exists_eq_add_one.mpr (Nat.zero_lt_of_lt hn)
  -- One constructor of `Quoted` is one turn of the reader.
  induction h generalizing n s with
  | nil =>
    have hhead : s.rest.head? = some quote := by
      rw [hs]
      rfl
    refine ⟨[Tree.leaf .token s.offset _ [quote]], ?_, rfl, rfl, [], rfl, rfl⟩
    simp only [stringRest, bind_get, if_pos hhead]
    rfl
  | @fragment w v t nonempty plain longest rest ih =>
    rw [List.append_assoc] at hs
    have hlength := List.length_pos_of_ne_nil nonempty
    rw [List.length_append] at hn
    obtain ⟨n, rfl⟩ := Nat.exists_eq_add_one.mpr (by omega : 0 < n)
    obtain ⟨hhead, hescape⟩ := head?_of_isPlain nonempty plain (t ++ quote :: r)
    have hfragment := stringFragment_append_quote plain longest r
    rw [← hs] at hhead hescape hfragment
    have hread := (ih (s.advanceInside w) (Scan.rest_advanceInside hs) n (by omega)).cons
      (.inr rfl) fun _ _ => rfl
    obtain ⟨c, w, rfl⟩ := List.exists_cons_of_ne_nil nonempty
    unfold ReadsInside at hread ⊢
    rw [stringRest, bind_get, if_neg hhead, hescape]
    dsimp only
    rw [hfragment]
    exact hread
  | @escape e w v t read cooked rest ih =>
    rw [List.append_assoc] at hs
    have hlength := List.length_pos_of_ne_nil (ne_nil_of_escape? (read r))
    rw [List.length_append] at hn
    obtain ⟨n, rfl⟩ := Nat.exists_eq_add_one.mpr (by omega : 0 < n)
    have hhead : s.rest.head? ≠ some quote := by
      rw [hs, head?_append_of_escape? (read r)]
      exact fun heq => hquote (Option.some.inj heq).symm
    have hescape : escape? s.rest = some e := by
      rw [hs]
      exact read r
    have hread := (ih (s.advanceInside e) (Scan.rest_advanceInside hs) n (by omega)).cons
      (.inl rfl) fun _ _ => cooked
    unfold ReadsInside at hread ⊢
    rw [stringRest, bind_get, if_neg hhead, hescape]
    exact hread

/-- What is quoted, between its quotes, is read as one string. -/
theorem string_of_quoted {quote : CodePoint} (hquote : quote ≠ CodePoint.ofChar '\\') {v t : Text}
    (h : Quoted quote v t) {s : Scan} {r : Text} (hs : s.rest = quote :: (t ++ quote :: r))
    (hnext : s.next = .quote quote) :
    ∃ node, string s = some (node, s.advance (quote :: (t ++ [quote]))) ∧
      node.hasLooseDefault = false ∧
      node.Quotes s.offset (quote :: (t ++ [quote])) (Utf16.joinPairs v) := by
  have hbehind : (s.advanceInside [quote]).rest = t ++ quote :: r :=
    Scan.rest_advanceInside hs
  have hlength : t.length < (s.advanceInside [quote]).rest.length + 1 := by
    rw [hbehind, List.length_append]
    omega
  obtain ⟨inside, hread, hinside⟩ := stringRest_of_quoted hquote h r _ _ hbehind hlength
  rw [Scan.advance_advanceInside] at hread
  rw [Scan.offset_advanceInside] at hinside
  refine ⟨Tree.node .string (Tree.leaf .token s.offset (s.offset + Scan.byteLength [quote])
    [quote] :: inside), ?_, hinside.settled, hinside.quotes _ _⟩
  rw [string, bind_next, hnext]
  show (stringRest quote _ >>= fun inside => pure (Tree.node .string (_ :: inside))) _ = _
  rw [bind_of_eq hread]
  rfl

/-- Where a string comes next, it is the primary expression that is read. -/
theorem primary_of_string {r : Rules} {s : Scan} {c : CodePoint} (hnext : s.next = .quote c) :
    primary r r.unary s = string s := by
  rw [primary, bind_next, hnext]

end Parser

end Syntax

/-! ### String literals -/

namespace Literal

/-- A literal is read as one string, whatever stands behind it. -/
theorem read_string {t : Text} {s : Scan} {r : Text} (hs : s.rest = string t ++ r)
    (hnext : s.next = Token.ofText s.rest) :
    ∃ node, Parser.string s = some (node, s.advance (string t)) ∧ node.hasLooseDefault = false ∧
      node.Quotes s.offset (string t) (Utf16.joinPairs t) := by
  rw [string_eq] at hs ⊢
  rw [List.cons_append, List.append_assoc] at hs
  refine Parser.string_of_quoted (by decide) (quoted_body t) hs ?_
  rw [hnext, hs]
  rfl

/-- A string in quotes of either kind, alone, is a program. -/
theorem parse_quoted {quote : CodePoint} (hquote : quote = doubleQuote ∨ quote = singleQuote)
    {v t : Text} (h : Quoted quote v t) {literal : Text} (hliteral : literal = quote :: (t ++ [quote]))
    (encodable : Utf8.checkEncodable literal = .ok ()) :
    ∃ node, Program.parse literal = .ok ⟨literal, ⟨.program, none, 0, Scan.byteLength literal, [],
        [Syntax.Tree.node .expressionStatement [node]]⟩⟩ ∧
      node.Quotes 0 literal (Utf16.joinPairs v) := by
  have hopening : Program.opening literal = ([], ⟨literal, 0, .quote quote, .none, []⟩) := by
    subst hliteral
    rcases hquote with rfl | rfl <;> rfl
  have hbackslash : quote ≠ CodePoint.ofChar '\\' := by
    rcases hquote with rfl | rfl <;> decide
  obtain ⟨node, hstring, hsettled, hquotes⟩ := Parser.string_of_quoted (r := []) hbackslash h
    (s := ⟨literal, 0, .quote quote, .none, []⟩) hliteral rfl
  rw [← hliteral] at hstring hquotes
  rw [Scan.advance, List.drop_length] at hstring
  refine ⟨node, ?_, hquotes⟩
  have hprimary := (Parser.primary_of_string (r := rules (4 * literal.length + 14)) rfl).trans
    hstring
  have htree := Program.tree?_of_expression (by simp [hliteral]) hopening (.inl ⟨_, rfl⟩)
    (Parser.assignment_of_unary (.inl rfl) (Parser.unary_of_primary rfl hprimary rfl) rfl) rfl rfl
    hsettled
  rw [Program.parse, encodable, htree]

/-- A literal alone is a program. -/
theorem parse_string (t : Text) :
    ∃ node, Program.parse (string t) = .ok ⟨string t, ⟨.program, none, 0,
        Scan.byteLength (string t), [], [Syntax.Tree.node .expressionStatement [node]]⟩⟩ ∧
      node.Quotes 0 (string t) (Utf16.joinPairs t) :=
  parse_quoted (.inl rfl) (quoted_body t) (string_eq t)
    (Utf8.checkEncodable_eq_ok_iff.mpr (encodable_string t))

/-- For every text, the literal written for it has a UTF-8 form, no control characters and no quote
that would close it before its end. A program that goes on with it goes on with one string, which
stands for the same UTF-16 units as the text. -/
theorem quotes_string (t : Text) :
    Utf8.checkEncodable (string t) = .ok () ∧
    (∀ c ∈ string t, c.isSurrogate = false ∧ 0x20 ≤ c.val) ∧
    (∃ inner, string t = doubleQuote :: (inner ++ [doubleQuote]) ∧
      ∀ r, bareQuote? (inner ++ doubleQuote :: r) = some inner.length) ∧
    ∃ value, Utf16.encode value = Utf16.encode t ∧ (Utf16.Joined t → value = t) ∧
      (∀ (s : Scan) (r : Text), s.rest = string t ++ r → s.next = Token.ofText s.rest →
        ∃ node, Parser.string s = some (node, s.advance (string t)) ∧
          node.Quotes s.offset (string t) value) ∧
      ∃ node, Program.parse (string t) = .ok ⟨string t, ⟨.program, none, 0,
          Scan.byteLength (string t), [], [Syntax.Tree.node .expressionStatement [node]]⟩⟩ ∧
        node.Quotes 0 (string t) value := by
  refine ⟨Utf8.checkEncodable_eq_ok_iff.mpr (encodable_string t), ?_, ?_, ?_⟩
  · intro c hc
    exact ⟨encodable_string t c hc, le_of_mem_string hc⟩
  · exact ⟨body t, string_eq t, bareQuote?_body t⟩
  · refine ⟨Utf16.joinPairs t, Utf16.encode_joinPairs t, Utf16.decode_encode, ?_, parse_string t⟩
    intro s r hs hnext
    obtain ⟨node, hread, -, hquotes⟩ := read_string hs hnext
    exact ⟨node, hread, hquotes⟩

/-- A quote, a backslash, control characters, a line separator, a code point beyond the first plane
and halves that make no pair. -/
def hardText : Text :=
  [0x22, 0x5C, 0x0A, 0x00, 0x7F, 0x2028, 0x1F600, 0xDC00, 0xD800, 0x75].map CodePoint.ofNat

theorem quotes_string_hardText :
    let s := Scan.between 3 [] (string hardText ++ "\";".toText)
    Utf16.Joined hardText ∧ s.rest = string hardText ++ "\";".toText ∧
      ∃ node, Parser.string s = some (node, s.advance (string hardText)) ∧
        node.Quotes 3 (string hardText) hardText := by
  intro s
  have hjoined : Utf16.Joined hardText := by decide
  obtain ⟨-, -, -, value, -, hvalue, hread, -⟩ := quotes_string hardText
  rw [hvalue hjoined] at hread
  exact ⟨hjoined, rfl, hread s "\";".toText rfl rfl⟩

end Literal

end Unproxy
