import Mathlib
import Unproxy.Proofs.Literal.Source
import Unproxy.Table.Extraction

/-!
# Unproxy.Proofs.Table.Slots

The slots of an array literal. A comma ends a slot, so an element is in the slot whose number is the
number of commas before it, and what is missing between two commas leaves its slot empty.

Main definitions:

* `Tree.Divided`: two elements have a comma between them;
* `Tree.literalLength`: the length of an array literal, in the words of the ECMAScript standard;
* `Code.stub`: a function that returns a row of codes.

Main statements:

* `Tree.length_slots`, `Tree.getElem?_slots`: how many slots there are, and what is in them;
* `Tree.slots_of_array`: the slots of every array literal, and rows of codes that are read back.
-/

namespace Unproxy

open Syntax Syntax.Parser

namespace Syntax.Tree

/-! ### Slots -/

/-- A comma of an array literal. -/
def isComma (t : Tree) : Bool := t.kind = .token && t.text = ",".toText

/-- An element of an array literal: neither a comma nor a comment. -/
def isElement (t : Tree) : Bool := !t.isComma && t.kind != .comment

/-- The parts of an array literal but for the comments. -/
def uncommented (parts : List Tree) : List Tree := parts.filter fun t => t.kind != .comment

/-- Two elements always have a comma between them. -/
def Divided (parts : List Tree) : Prop :=
  (uncommented parts).IsChain fun a b => a.isComma = true ∨ b.isComma = true

/-- Whether the last part is an element, so that no comma is behind it. -/
def endsInElement (row : List Tree) : Bool := row.getLast?.any isElement

/-- The commas before which no element is: a comma at the beginning or behind another comma. -/
def elisions (before : Option Tree) : List Tree → Nat
  | [] => 0
  | t :: ts => (t.isComma && !before.any isElement).toNat + elisions (some t) ts

/-- The length of an array literal, in the words of the ECMAScript standard: "Whenever a comma in the
element list is not preceded by an AssignmentExpression (i.e., a comma at the beginning or after another
comma), the missing array element contributes to the length of the Array". All other elements do, and
one that is spread is counted once. -/
def literalLength (parts : List Tree) : Nat :=
  (uncommented parts).countP isElement + elisions none (uncommented parts)

theorem slots_cons (current : Option Tree) (t : Tree) (ts : List Tree) :
    slots current (t :: ts) =
      if t.isComma then current :: slots none ts
      else if t.kind = .comment then slots current ts else slots (some t) ts := rfl

/-- A part is a comma, a comment or an element. -/
theorem part_cases (t : Tree) :
    (t.isComma = true ∧ t.isElement = false ∧ t.kind ≠ .comment) ∨
      (t.isComma = false ∧ t.isElement = true ∧ t.kind ≠ .comment) ∨
        (t.isComma = false ∧ t.isElement = false ∧ t.kind = .comment) := by
  by_cases hkind : t.kind = .comment
  · simp [isComma, isElement, hkind]
  · cases hcomma : t.isComma <;> simp [isElement, hcomma, hkind]

theorem endsInElement_append_cons (row : List Tree) (t : Tree) (ts : List Tree) :
    endsInElement (row ++ t :: ts) = endsInElement (t :: ts) := by
  rw [endsInElement, endsInElement, List.getLast?_append, List.getLast?_cons]
  rfl

theorem endsInElement_cons {t : Tree} (h : t.isElement = false) (ts : List Tree) :
    endsInElement (t :: ts) = endsInElement ts := by
  rw [endsInElement, endsInElement, List.getLast?_cons]
  cases ts.getLast? <;> simp [h]

/-- Comments neither make nor fill a slot. -/
theorem slots_uncommented (current : Option Tree) (parts : List Tree) :
    slots current (uncommented parts) = slots current parts := by
  induction parts generalizing current with
  | nil => rfl
  | cons t ts ih =>
    rw [uncommented] at ih
    obtain ⟨hcomma, -, hkind⟩ | ⟨hcomma, -, hkind⟩ | ⟨hcomma, -, hkind⟩ := part_cases t <;>
      simp [uncommented, slots_cons, hcomma, hkind, ih]

/-- One slot for each comma, and one for an element at the end. -/
theorem length_slots {current : Option Tree} (hcurrent : ∀ t ∈ current, t.isElement = true)
    {row : List Tree} (hrow : ∀ t ∈ row, t.kind ≠ .comment) :
    (slots current row).length =
      row.countP isComma + (endsInElement (current.toList ++ row)).toNat := by
  induction row generalizing current with
  | nil => cases current <;> simp_all [slots, endsInElement]
  | cons t ts ih =>
    rw [List.forall_mem_cons] at hrow
    rw [slots_cons, endsInElement_append_cons]
    obtain ⟨hcomma, helement, -⟩ | ⟨hcomma, helement, -⟩ | ⟨-, -, hkind⟩ := part_cases t
    · have hrest := @ih none (by simp) hrow.2
      rw [Option.toList_none, List.nil_append] at hrest
      simp [hcomma, endsInElement_cons helement, hrest]
      omega
    · have hrest := @ih (some t) (by simpa using helement) hrow.2
      simpa [hcomma, hrow.1] using hrest
    · exact absurd hkind hrow.1

/-- The missing elements and the others are as many. An element before the row has its comma in it. -/
theorem add_elisions {before : Option Tree} {row : List Tree} (hrow : ∀ t ∈ row, t.kind ≠ .comment)
    (h : (before.toList ++ row).IsChain fun a b => a.isComma = true ∨ b.isComma = true) :
    (before.any isElement).toNat + row.countP isElement + elisions before row =
      row.countP isComma + (endsInElement (before.toList ++ row)).toNat := by
  induction row generalizing before with
  | nil => cases before <;> simp [elisions, endsInElement]
  | cons t ts ih =>
    rw [List.forall_mem_cons] at hrow
    have hrest := @ih (some t) hrow.2 (h.right_of_append)
    rw [endsInElement_append_cons, elisions]
    obtain ⟨hcomma, helement, -⟩ | ⟨hcomma, helement, -⟩ | ⟨-, -, hkind⟩ := part_cases t
    · cases hbefore : before.any isElement <;>
        simp [hcomma, helement] at hrest ⊢ <;> omega
    · have hbefore : before.any isElement = false := by
        cases before with
        | none => rfl
        | some c =>
          have hpair := (List.isChain_cons_cons.mp h).1
          simp_all [isElement]
      simp [hcomma, helement, hbefore] at hrest ⊢
      omega
    · exact absurd hkind hrow.1

/-- An element is in the slot of which the number is that of the commas before it. -/
theorem getElem?_slots {current : Option Tree} {parts : List Tree}
    (hcurrent : ∀ t ∈ current, t.isElement = true) (h : Divided (current.toList ++ parts)) {j : Nat}
    {e : Tree} :
    (slots current parts)[j]? = some (some e) ↔ (current = some e ∧ j = 0) ∨
      ∃ before after, parts = before ++ e :: after ∧ e.isElement = true ∧
        before.countP isComma = j := by
  induction parts generalizing current j with
  | nil => cases current <;> cases j <;> simp [slots]
  | cons t ts ih =>
    have hsplit : (∃ before after, t :: ts = before ++ e :: after ∧ e.isElement = true ∧
        before.countP isComma = j) ↔ (t = e ∧ e.isElement = true ∧ j = 0) ∨
        ∃ before after, ts = before ++ e :: after ∧ e.isElement = true ∧
          before.countP isComma + t.isComma.toNat = j := by
      constructor
      · rintro ⟨_ | ⟨c, before⟩, after, heq, he, rfl⟩
        · exact .inl ⟨(List.cons.inj heq).1, he, rfl⟩
        · obtain ⟨rfl, rfl⟩ := List.cons.inj heq
          exact .inr ⟨before, after, rfl, he, by cases h : t.isComma <;> simp [h]⟩
      · rintro (⟨rfl, he, rfl⟩ | ⟨before, after, rfl, he, rfl⟩)
        · exact ⟨[], ts, rfl, he, rfl⟩
        · exact ⟨t :: before, after, rfl, he, by cases h : t.isComma <;> simp [h]⟩
    have hright : Divided (t :: ts) := by
      rw [Divided, uncommented, List.filter_append] at h
      exact h.right_of_append
    rw [slots_cons, hsplit]
    obtain ⟨hcomma, helement, hkind⟩ | ⟨hcomma, helement, hkind⟩ | ⟨hcomma, helement, hkind⟩ :=
      part_cases t
    · have hne : t ≠ e ∨ e.isElement = false := by grind
      have hdivided : Divided ts := by
        rw [Divided, uncommented, List.filter_cons_of_pos (by simpa using hkind)] at hright
        exact hright.tail
      have hrest : ∀ j, _ := fun j => @ih none (by simp) hdivided j
      cases j <;> grind
    · have hcurrent : current = none := by
        cases current with
        | none => rfl
        | some c => simp_all [Divided, uncommented, isElement]
      have hrest := @ih (some t) (by simpa using helement) hright j
      grind
    · have hrest := @ih current hcurrent (by simpa [Divided, uncommented, hkind] using h) j
      grind

end Syntax.Tree

/-! ### Functions that return arrays -/

namespace Syntax.Parser

variable {d : Nat} {t rest : Text} {P : Tree → Prop}

/-- An array is returned. -/
theorem statement_of_array (h : ReadsPart (assignment (rules (d + 1))) ("[".toText ++ t) P) {s : Scan}
    (hs : s.Stands ("return [".toText ++ (t ++ ("; \x7d".toText ++ rest)))) :
    ∃ (word array ending : Tree) (e : Scan), (rules (d + 3)).statement s =
        some (Tree.node .returnStatement [word, array, ending], e) ∧
      e.Stands ("\x7d".toText ++ rest) ∧ word.IsLeaf .token "return".toText ∧
      ending.IsLeaf .token ";".toText ∧ array.hasLooseDefault = false ∧ P array := by
  obtain ⟨text, offset, next, gap, comments⟩ := s
  obtain ⟨rfl, hword, rfl⟩ := hs
  obtain rfl : next = .name "return".toText := hword
  let start : Scan :=
    ⟨"return [".toText ++ (t ++ ("; \x7d".toText ++ rest)), offset, .name "return".toText, gap, []⟩
  let inside := start.advance "return".toText
  have hinside : inside.Stands ("[".toText ++ (t ++ ("; \x7d".toText ++ rest))) := ⟨rfl, rfl, rfl⟩
  obtain ⟨-, array, e, hread, he, hsettled, harray⟩ :=
    h.read inside (CodePoint.ofChar ';') (" \x7d".toText ++ rest) (by decide) hinside
  have hend : e.next = .symbol ";".toText := next_of_stands (by decide) he
  have hbehind : (e.advance ";".toText).Stands ("\x7d".toText ++ rest) :=
    Scan.Stands.advance_blank he (isSolid_of_mem (by decide) rest)
  let word := Tree.leaf .token offset (offset + 6) "return".toText
  let ending := Tree.leaf .token e.offset (e.offset + 1) ";".toText
  have hword : keyword "return" start = some (word, inside) := rfl
  have hatEnd : atEnd true inside = some (false, inside) := by
    rw [atEnd, Scan.endsByBreak, next_of_stands (by decide) hinside]
    rfl
  have hexpressions : expressions (rules (d + 2)) inside = some (array, e) :=
    expressions_of_assignment hread (by rw [hend]; rfl)
  have hterminator : terminator false e = some ([ending], e.advance ";".toText) := by
    rw [terminator, bind_atEnd, hend]
    show symbol? ";" e = _
    rw [symbol?, bind_atSymbol, hend]
    rfl
  have hreturn : returnStatement (rules (d + 2)) start =
      some (Tree.node .returnStatement [word, array, ending], e.advance ";".toText) := by
    rw [returnStatement, bind_of_eq hword, bind_of_eq hatEnd, if_neg (by decide),
      bind_of_eq hexpressions, bind_of_eq hterminator]
    rfl
  exact ⟨word, array, ending, _, hreturn, hbehind, ⟨offset, rfl⟩, ⟨e.offset, rfl⟩, hsettled, harray⟩

/-- A block of one statement. -/
theorem block_of_statement {r : Rules} {s e : Scan} {inner : Tree}
    (hs : s.Stands ("\x7b ".toText ++ t)) (ht : IsSolid t)
    (hmore : (Token.ofText t == .symbol "\x7d".toText) = false)
    (hread : r.statement (s.advance "\x7b".toText) = some (inner, e))
    (hclosing : e.next = .symbol "\x7d".toText) :
    ∃ left right : Tree, block r s =
        some (Tree.node .statementBlock [left, inner, right], e.advance "\x7d".toText) ∧
      left.IsLeaf .token "\x7b".toText ∧ right.IsLeaf .token "\x7d".toText := by
  have hinside : (s.advance "\x7b".toText).Stands t := Scan.Stands.advance_blank hs ht
  have hbegin : s.next = .symbol "\x7b".toText := next_of_stands (by decide) hs
  obtain ⟨left, hopening, hleft⟩ := symbol_of_next hbegin
  obtain ⟨right, hend, hright⟩ := symbol_of_next hclosing
  obtain ⟨k, hk⟩ : ∃ k, (s.advance "\x7b".toText).rest.length = k + 1 := by
    rw [hinside.rest]
    cases t with
    | nil => cases ht
    | cons c t => exact ⟨t.length, rfl⟩
  have hgo : ∀ {s : Scan} {b : Bool}, (s.next == .symbol "\x7d".toText) = b →
      (do return !(← atSymbol "\x7d") : Parser Bool) s = some (!b, s) := by
    rintro s b rfl
    rfl
  have hmany : many (do return !(← atSymbol "\x7d")) r.statement (k + 2) (s.advance "\x7b".toText) =
      some ([inner], e) := by
    rw [many, bind_of_eq (hgo (by rw [hinside.next, hmore])), Bool.not_false, if_pos rfl,
      bind_of_eq hread, many, bind_assoc, bind_of_eq (hgo (by rw [hclosing, beq_self_eq_true]))]
    rfl
  refine ⟨left, right, ?_, hleft, hright⟩
  rw [block, bind_of_eq hopening, bind_budget, hk, bind_of_eq hmany, bind_of_eq hend]
  rfl

/-- A function without a name. -/
theorem primary_of_function {r : Rules} {s e : Scan} {signature : List Tree}
    (hword : s.next = .name "function".toText)
    (hparens : (s.advance "function".toText).next = .symbol "(".toText)
    (hrest : signatureAndBody r (s.advance "function".toText) = some (signature, e)) :
    ∃ word : Tree, primary r r.unary s = some (Tree.node .function (word :: signature), e) ∧
      word.IsLeaf .token "function".toText := by
  have hread : keyword "function" s = some (.leaf .token s.offset (s.offset + 8) "function".toText,
      s.advance "function".toText) := by
    rw [keyword, bind_atWord, hword]
    rfl
  have hstar : symbol? "*" (s.advance "function".toText) = some ([], s.advance "function".toText) := by
    rw [symbol?, bind_atSymbol, hparens]
    rfl
  refine ⟨_, ?_, s.offset, rfl⟩
  rw [primary, bind_next, hword]
  show wordExpression r r.unary s = _
  rw [wordExpression, bind_next, hword]
  show functionFrom r [] false s = _
  rw [functionFrom, bind_of_eq hread, bind_of_eq hstar, bind_assoc, bind_next, bind_assoc, bind_atWord,
    hparens, if_neg (by decide), bind_assoc,
    bind_of_eq (show require (!false) _ = some ((), _) from rfl), pure_bind, bind_of_eq hrest]
  rfl

/-- A function that returns an array is read if the array is. -/
theorem readsPart_function (h : ReadsPart (assignment (rules (d + 1))) ("[".toText ++ t) P)
    (hkind : ∀ node, P node → node.kind = .array) :
    ReadsPart (assignment (rules (d + 3)))
      ("function () \x7b return [".toText ++ (t ++ "; \x7d".toText)) fun node =>
        node.kind = .function ∧ ∃ array, node.returnedArray? = some array ∧ P array := by
  refine readsPart_primary ((opens_of_isNamePart (by decide) _).append _) fun s c rest hc hs => ?_
  rw [List.append_assoc, List.append_assoc] at hs
  have hname : s.next = .name "function".toText := hs.next
  have hhead : (s.advance "function".toText).Stands
      ("() \x7b return [".toText ++ (t ++ ("; \x7d".toText ++ c :: rest))) :=
    Scan.Stands.advance_blank hs ⟨by decide, fun h => absurd h (by decide)⟩
  obtain ⟨head, heq⟩ : ∃ head, s.advance "function".toText = head := ⟨_, rfl⟩
  rw [heq] at hhead
  obtain ⟨text, offset, next, gap, comments⟩ := head
  obtain ⟨rfl, hnext, rfl⟩ := hhead
  obtain rfl : next = .symbol "(".toText := hnext
  -- What is before the array is fixed, so it is read by computation.
  let tail := t ++ ("; \x7d".toText ++ c :: rest)
  let head : Scan := ⟨"() \x7b return [".toText ++ tail, offset, .symbol "(".toText, gap, []⟩
  let body : Scan := ⟨"\x7b return [".toText ++ tail, offset + 3, .symbol "\x7b".toText, .none, []⟩
  let parens := Tree.node .parameters
    [.leaf .token offset (offset + 1) "(".toText, .leaf .token (offset + 1) (offset + 2) ")".toText]
  have hparens : parameters (rules (d + 3)) head = some (parens, body) := rfl
  obtain ⟨word, array, ending, e, hstatement, he, hword, hending, hsettled, harray⟩ :=
    statement_of_array h (s := body.advance "\x7b".toText) ⟨rfl, rfl, rfl⟩
  obtain ⟨left, right, hblock, hleft, hright⟩ :=
    block_of_statement (t := "return [".toText ++ tail) ⟨rfl, rfl, rfl⟩
      ⟨by decide, fun h => absurd h (by decide)⟩ rfl hstatement (next_of_stands (by decide) he)
  let block := Tree.node .statementBlock [left, Tree.node .returnStatement [word, array, ending], right]
  have hrest : signatureAndBody (rules (d + 3)) (s.advance "function".toText) =
      some ([parens, block.as .body], e.advance "\x7d".toText) := by
    rw [heq, signatureAndBody, bind_of_eq hparens, bind_of_eq hblock]
    rfl
  obtain ⟨name, hprimary, hfunction⟩ := primary_of_function hname (by rw [heq]) hrest
  refine ⟨by rw [hname]; rfl, _, _, hprimary, he.advance (isSolid_of_mem hc rest), ?_, rfl, array, ?_,
    harray⟩
  · simp [Tree.node, Tree.as, Tree.leaf, Tree.hasLooseDefault, Tree.haveLooseDefault, hsettled,
      hword.hasLooseDefault, hending.hasLooseDefault, hleft.hasLooseDefault, hright.hasLooseDefault,
      hfunction.hasLooseDefault, parens, block]
  · obtain ⟨-, rfl⟩ := hword
    obtain ⟨-, rfl⟩ := hending
    obtain ⟨-, rfl⟩ := hleft
    obtain ⟨-, rfl⟩ := hright
    obtain ⟨-, rfl⟩ := hfunction
    have harray := hkind array harray
    obtain ⟨kind, role, start, stop, text, children⟩ := array
    obtain rfl : kind = .array := harray
    rfl

end Syntax.Parser

/-! ### Rows of codes -/

/-- A number that a numeral can stand for: one without a sign that is not too large. All
character codes are such numbers. -/
structure Number.IsCode (n : Number) : Prop where
  unsigned : n.Unsigned
  finite : n.isFinite = true
  canonical : n.double.IsCanonical

theorem Number.isCode_ofNat {n : Nat} (h : n < Binary64.overflowBound) : (int n).IsCode :=
  ⟨.int n, by simpa [isFinite] using h, Binary64.isCanonical_ofRatio _ _ Nat.one_pos⟩

/-- Such a number is read back from its text. -/
theorem Number.IsCode.ofSpelling_text {n : Number} (h : n.IsCode) :
    Lexeme.Numeral n.text ∧ ofSpelling n.text = .ok (some n) := by
  obtain ⟨unsigned, finite, canonical⟩ := h
  cases unsigned with
  | int n =>
    have hnumeral := Lexeme.Numeral.whole (Lexeme.isWhole_ofNat n) (.inl rfl)
    rw [List.append_nil] at hnumeral
    exact ⟨hnumeral, ofSpelling_ofNat (by simpa [isFinite] using finite)⟩
  | float significand exponent =>
    refine ⟨Binary64.numeral_write .., ?_⟩
    rcases Nat.eq_zero_or_pos significand with rfl | hpos
    · obtain rfl := canonical.normal.resolve_left (by decide)
      decide +kernel
    · exact ofSpelling_write canonical hpos _

namespace Code

/-- The codes with commas and blanks between them, and nothing for a hole. -/
def row (blanks : Nat) (codes : List Code) : Text :=
  Text.join (CodePoint.ofChar ',' :: List.replicate blanks (CodePoint.ofChar ' '))
    (codes.map fun code => (code.map Number.text).getD [])

/-- A function that returns the codes. -/
def stub (blanks : Nat) (codes : List Code) : Text :=
  "function () \x7b return [".toText ++ row blanks codes ++ "]; \x7d".toText

variable {blanks d : Nat} {codes : List Code}

theorem row_cons (code next : Code) (codes : List Code) (t : Text) :
    row blanks (code :: next :: codes) ++ t = (code.map Number.text).getD [] ++
      CodePoint.ofChar ',' :: (List.replicate blanks (CodePoint.ofChar ' ') ++
        (row blanks (next :: codes) ++ t)) := by
  simp [row, Text.join, List.intercalate_cons_cons]

theorem row_singleton (code : Code) : row blanks [code] = (code.map Number.text).getD [] := by
  simp [row, Text.join]

theorem isSolid_row (hcodes : ∀ n, some n ∈ codes → n.IsCode) (rest : Text) :
    IsSolid (row blanks codes ++ CodePoint.ofChar ']' :: rest) := by
  match codes with
  | [] => exact isSolid_of_mem (by decide) rest
  | [none] => exact isSolid_of_mem (by decide) rest
  | none :: next :: codes =>
    rw [row_cons]
    exact isSolid_of_mem (by decide) _
  | [some n] =>
    rw [row_singleton]
    exact ((hcodes n List.mem_cons_self).ofSpelling_text.1.opens.append _).isSolid
  | some n :: next :: codes =>
    rw [row_cons]
    exact ((hcodes n List.mem_cons_self).ofSpelling_text.1.opens.append _).isSolid

/-- A row of codes is read as a list with a slot for each code. -/
theorem commaList_row (hcodes : ∀ n, some n ∈ codes → n.IsCode) (hlast : codes.getLast? ≠ some none) :
    ∀ {k : Nat} {s : Scan} {rest : Text}, codes.length ≤ k →
      s.Stands (row blanks codes ++ CodePoint.ofChar ']' :: rest) →
      ∃ parts e, commaList "]" true (spreadable (rules (d + 1))) (k + 1) s = some (parts, e) ∧
        e.Stands (CodePoint.ofChar ']' :: rest) ∧ Tree.haveLooseDefault parts = false ∧
        (Tree.slots none parts).mapM Tree.elementCode = .ok codes := by
  have hpart : ∀ n, some n ∈ codes → ReadsPart (spreadable (rules (d + 1))) n.text fun node =>
      node.kind = .number ∧ Number.ofSpelling node.text = .ok (some n) := by
    intro n hn
    obtain ⟨hnumeral, hvalue⟩ := (hcodes n hn).ofSpelling_text
    refine readsPart_spreadable ((readsPart_numeral hnumeral).mono ?_)
    rintro node ⟨start, rfl⟩
    exact ⟨rfl, hvalue⟩
  induction codes with
  | nil =>
    intro k s rest _ hs
    exact ⟨[], s, commaList_of_close (next_of_stands (by decide) hs) k, hs, rfl, rfl⟩
  | cons code codes ih =>
    intro k s rest hk hs
    rw [List.length_cons] at hk
    cases codes with
    | nil =>
      obtain ⟨n, rfl⟩ : ∃ n, code = some n :=
        Option.ne_none_iff_exists'.mp fun h => hlast (by simp [h])
      rw [row_singleton] at hs
      obtain ⟨hbegin, node, e, hread, he, hsettled, hkind, hvalue⟩ :=
        (hpart n List.mem_cons_self).read s (CodePoint.ofChar ']') rest (by decide) hs
      refine ⟨[node], e, ?_, he, by simp [Tree.haveLooseDefault, hsettled],
        by simp [Tree.slots, Tree.elementCode, hkind, hvalue]⟩
      rw [commaList_of_item (not_symbol_of_begins hbegin (by decide))
        (not_symbol_of_begins hbegin (by decide)) hread, next_of_stands (by decide) he]
      rfl
    | cons next codes =>
      obtain ⟨k, rfl⟩ : ∃ k', k = k' + 1 := Nat.exists_eq_add_one.mpr (by simp at hk; omega)
      rw [row_cons] at hs
      have hrest := @ih (fun n hn => hcodes n (List.mem_cons_of_mem code hn)) (by simpa using hlast)
        (fun n hn => hpart n (List.mem_cons_of_mem code hn)) k
      have hsolid := @isSolid_row blanks _ (fun n hn => hcodes n (List.mem_cons_of_mem code hn)) rest
      cases code with
      | none =>
        obtain ⟨parts, e, hlist, he, hsettled, hvalues⟩ := hrest (Nat.le_of_succ_le_succ hk)
          (Scan.Stands.advance_blanks (t := ",".toText) hs hsolid).1
        obtain ⟨comma, hread, start, rfl⟩ :=
          commaList_of_comma rfl (next_of_stands (by decide) hs) hlist
        refine ⟨_, e, hread, he, ?_, ?_⟩
        · simpa [Tree.haveLooseDefault, Tree.hasLooseDefault, Tree.leaf] using hsettled
        · simp [Tree.slots, Tree.leaf, Tree.elementCode, hvalues]
          rfl
      | some n =>
        obtain ⟨hbegin, node, e, hitem, he, hsettled, hkind, hvalue⟩ :=
          (hpart n List.mem_cons_self).read s (CodePoint.ofChar ',') _ (by decide) hs
        obtain ⟨parts, e', hlist, he', hsettled', hvalues⟩ := hrest (Nat.le_of_succ_le_succ hk)
          (Scan.Stands.advance_blanks (t := ",".toText) he hsolid).1
        obtain ⟨comma, hread, start, rfl⟩ := commaList_of_item_comma
          (not_symbol_of_begins hbegin (by decide)) (not_symbol_of_begins hbegin (by decide))
          hitem rfl (next_of_stands (by decide) he) hlist
        refine ⟨_, e', hread, he', ?_, ?_⟩
        · simp [Tree.haveLooseDefault, Tree.hasLooseDefault, Tree.leaf, hsettled, hsettled']
        · simp [Tree.slots, Tree.leaf, Tree.elementCode, hkind, hvalue, hvalues]
          rfl

/-- So the row in brackets is an array of the codes. -/
theorem readsPart_row (hcodes : ∀ n, some n ∈ codes → n.IsCode) (hlast : codes.getLast? ≠ some none) :
    ReadsPart (assignment (rules (d + 1))) ("[".toText ++ row blanks codes ++ "]".toText) fun node =>
      node.kind = .array ∧ node.elements.mapM Tree.elementCode = .ok codes := by
  refine readsPart_brackets (R := fun parts => (Tree.slots none parts).mapM Tree.elementCode = .ok codes)
    (by decide) (fun _ => primary_of_bracket) (fun rest => ?_) (fun s rest hs => ?_)
    fun {left right parts} _ _ hvalues => ⟨rfl, ?_⟩
  · rw [List.append_assoc]
    exact isSolid_row hcodes rest
  · rw [List.append_assoc] at hs
    refine commaList_row hcodes hlast ?_ hs
    have hlength := Text.length_le_join
      (CodePoint.ofChar ',' :: List.replicate blanks (CodePoint.ofChar ' ')) (Nat.succ_pos _)
      (codes.map fun code => (code.map Number.text).getD [])
    rw [List.length_map] at hlength
    rw [hs.rest, List.length_append]
    exact hlength.trans (Nat.add_le_add_left (Nat.succ_pos _) _)
  · show (Tree.slots none ((parts ++ [right]).dropLast)).mapM Tree.elementCode = _
    rw [List.dropLast_concat, hvalues]

/-- A function that returns the row. -/
theorem readsPart_stub (hcodes : ∀ n, some n ∈ codes → n.IsCode) (hlast : codes.getLast? ≠ some none)
    {n : Nat} (hn : (stub blanks codes).length ≤ n) :
    ReadsPart (rules (n + 1)).assignment (stub blanks codes) fun node => node.kind = .function ∧
      ∃ array, node.returnedArray? = some array ∧ array.kind = .array ∧
        array.elements.mapM Tree.elementCode = .ok codes := by
  have hstub : stub blanks codes =
      "function () \x7b return [".toText ++ (row blanks codes ++ "]".toText ++ "; \x7d".toText) := by
    rw [stub, List.append_assoc, List.append_assoc]
    rfl
  obtain ⟨d, rfl⟩ : ∃ d, n = d + 3 := Nat.exists_eq_add_of_le' (by
    rw [hstub, List.length_append] at hn
    exact Nat.le_trans (by decide) (Nat.le_trans (Nat.le_add_right _ _) hn))
  have hrow := @readsPart_row blanks d codes hcodes hlast
  rw [List.append_assoc] at hrow
  rw [hstub]
  exact readsPart_function hrow fun _ h => h.1

theorem encodable_stub (blanks : Nat) (codes : List Code) : Utf8.Encodable (stub blanks codes) := by
  have hmarks : Utf8.Encodable (CodePoint.ofChar ',' :: List.replicate blanks (CodePoint.ofChar ' ')) :=
    Utf8.encodable_cons.mpr ⟨by decide, fun c hc => by rw [List.eq_of_mem_replicate hc]; decide⟩
  have hrow : Utf8.Encodable (row blanks codes) := by
    refine Text.encodable_join hmarks fun part hpart => ?_
    obtain ⟨code, -, rfl⟩ := List.mem_map.mp hpart
    match code with
    | none => exact Utf8.encodable_nil
    | some (.int i) => exact Utf8.encodable_of_isAscii (Text.all_isAscii_ofInt i)
    | some (.float f) => exact Utf8.encodable_of_isAscii (f.all_isAscii_write ⟨2⟩)
  exact Utf8.encodable_append.mpr ⟨Utf8.encodable_append.mpr
    ⟨Utf8.encodable_of_isAscii (by decide), hrow⟩, Utf8.encodable_of_isAscii (by decide)⟩

end Code

/-- The slots of every array literal: one for each comma and one for an element behind the last comma,
as many as the length of the array; an element is in the slot that its comma ends, and comments make no
difference. So a row of codes with nothing for the holes is read back, unless its last code is a hole. -/
theorem Syntax.Tree.slots_of_array :
    (∀ (array left right : Syntax.Tree) (parts : List Syntax.Tree),
      array.children = left :: (parts ++ [right]) → Divided parts →
        array.elements.length = parts.countP isComma + (endsInElement (uncommented parts)).toNat ∧
        array.elements.length = literalLength parts ∧
        array.elements = slots none (uncommented parts) ∧
        ∀ j e, array.elements[j]? = some (some e) ↔ ∃ before after,
          parts = before ++ e :: after ∧ e.isElement = true ∧ before.countP isComma = j) ∧
      ∀ (blanks : Nat) (codes : List Code), (∀ n, some n ∈ codes → n.IsCode) →
        codes.getLast? ≠ some none →
        ∃ program left fn right,
          Program.parse ("(".toText ++ Code.stub blanks codes ++ ")".toText) = .ok program ∧
          program.root.children =
            [node .expressionStatement [node .parenthesized [left, fn, right]]] ∧
          fn.returnedCodes = .ok (some codes) := by
  refine ⟨fun array left right parts hchildren hdivided => ?_, fun blanks codes hcodes hlast => ?_⟩
  · have helements : array.elements = slots none parts := by
      rw [elements, hchildren, List.tail_cons, List.dropLast_concat]
    have hrow : ∀ t ∈ uncommented parts, t.kind ≠ .comment := fun t ht =>
      bne_iff_ne.mp (List.mem_filter.mp ht).2
    have hcount : (uncommented parts).countP isComma = parts.countP isComma := by
      rw [uncommented, List.countP_filter]
      refine List.countP_congr fun t _ => ?_
      obtain ⟨hcomma, -, hkind⟩ | ⟨hcomma, -, -⟩ | ⟨hcomma, -, -⟩ := part_cases t <;> simp_all
    have hlength := @length_slots none (by simp) _ hrow
    rw [slots_uncommented, ← helements, hcount, Option.toList_none, List.nil_append] at hlength
    have hliteral := @add_elisions none _ hrow hdivided
    rw [Option.toList_none, List.nil_append, hcount, ← hlength] at hliteral
    refine ⟨hlength, ?_, by rw [slots_uncommented, helements], fun j e => ?_⟩
    · rw [← hliteral, literalLength]
      simp
    · rw [helements, @getElem?_slots none parts (by simp) hdivided]
      simp
  · obtain ⟨program, left, fn, right, hparse, hchildren, -, array, hreturned, -, hcodes⟩ :=
      Literal.parse_of_readsPart (Code.encodable_stub blanks codes) (fun node hnode => by simp [hnode.1])
        fun n hn => Code.readsPart_stub hcodes hlast hn
    refine ⟨program, left, fn, right, hparse, hchildren, ?_⟩
    rw [returnedCodes, hreturned]
    dsimp only
    rw [hcodes]
    rfl

/-- Commas at the beginning and at the end with comments between them, and a row with two holes. -/
theorem Syntax.Tree.slots_of_array_sample :
    let mark (spelling : String) : Syntax.Tree := leaf .token 0 1 spelling.toText
    let note : Syntax.Tree := leaf .comment 0 4 "/**/".toText
    let one : Syntax.Tree := leaf .number 0 1 "1".toText
    let parts := [mark ",", note, one, note, mark ",", mark ","]
    let array : Syntax.Tree := node .array (mark "[" :: (parts ++ [mark "]"]))
    let codes : List Code := [none, some (.int 70), none, some (.float (.finite false (2 ^ 52) (-53)))]
    (Divided parts ∧ array.elements = [none, some one, none] ∧
        array.elements.length = literalLength parts) ∧
      Code.stub 1 codes = "function () \x7b return [, 70, , 0.5]; \x7d".toText ∧
      ∃ program left fn right,
        Program.parse ("(".toText ++ Code.stub 1 codes ++ ")".toText) = .ok program ∧
        program.root.children =
          [node .expressionStatement [node .parenthesized [left, fn, right]]] ∧
        fn.returnedCodes = .ok (some codes) := by
  intro mark note one parts array codes
  have hdivided : Divided parts := by
    unfold Divided
    decide
  refine ⟨⟨hdivided, rfl, (slots_of_array.1 array _ _ parts rfl hdivided).2.1⟩, by decide +kernel,
    slots_of_array.2 1 codes ?_ (by decide)⟩
  intro n hn
  simp only [codes, List.mem_cons, reduceCtorEq, Option.some.injEq, List.not_mem_nil, false_or,
    or_false] at hn
  rcases hn with rfl | rfl
  · exact Number.isCode_ofNat (by decide +kernel)
  · exact ⟨.float _ _, by decide +kernel, ⟨by decide, .inl (by decide), by decide, by decide⟩⟩

end Unproxy
