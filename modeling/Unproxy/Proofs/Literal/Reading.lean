import Mathlib
import Unproxy.Proofs.Access.Nesting
import Unproxy.Proofs.Literal.Evaluation
import Unproxy.Proofs.Literal.Quotation

/-!
# Unproxy.Proofs.Literal.Reading

Literals are read as expressions, and the expressions are evaluated to what the literals stand for.

The parts of an array or an object are read one level further down in the grammar, so each form of
literal is read on the condition that its parts are. `ReadsPart` is that condition: wherever an
expression can end, the text is read as one node, and the node has a given property.

Main definitions:

* `Syntax.Scan.Stands`: a scan at a text, with no comment before it;
* `Syntax.Tree.Denotes`: a node for a literal with a value;
* `Syntax.Tree.Listed`: nodes with commas between them;
* `Syntax.Parser.ReadsPart`: a text that is read as one node.

Main statements:

* `Syntax.Parser.readsPart_word`, `readsPart_string`, `readsPart_numeral`, `readsPart_negative`: the
  literals without parts;
* `Syntax.Parser.commaList_of_parts`: parts with commas between them are read as a list;
* `Syntax.Parser.readsPart_array`, `readsPart_objectMember`, `readsPart_object`: the literals with
  parts.
-/

namespace Unproxy

open Syntax Syntax.Lexeme

/-- Two code points stand between parts, so there are hardly more parts than code points. -/
theorem Text.length_le_join (marks : Text) (hmarks : 0 < marks.length) (parts : List Text) :
    parts.length ≤ (Text.join marks parts).length + 1 := by
  induction parts with
  | nil => simp
  | cons part parts ih =>
    cases parts with
    | nil => simp
    | cons next parts =>
      simp only [Text.join, List.intercalate_cons_cons, List.length_append, List.length_cons] at ih ⊢
      omega

/-! ### Readers that stand at a text -/

namespace Syntax

/-- A scan stands at a text, and no comment was passed. -/
structure Scan.Stands (s : Scan) (t : Text) : Prop where
  rest : s.rest = t
  next : s.next = Token.ofText t
  comments : s.comments = []

theorem Scan.stands_between {t : Text} (h : IsSolid t) (offset : Nat) :
    (Scan.between offset [] t).Stands t := by
  cases t with
  | nil => cases h
  | cons c t =>
    rw [Scan.between, Scan.betweenFrom_of_ends ((Scan.isSolid_iff _).mp h)]
    exact ⟨rfl, rfl, rfl⟩

/-- Behind a lexeme the scan stands at what follows it, if that is solid. -/
theorem Scan.Stands.advance {s : Scan} {t r : Text} (h : s.Stands (t ++ r)) (hr : IsSolid r) :
    (s.advance t).Stands r := by
  rw [Scan.advance, h.rest, List.drop_left, h.comments]
  exact Scan.stands_between hr _

/-- Blanks behind the lexeme are passed over. -/
theorem Scan.Stands.advance_blanks {s : Scan} {t r : Text} {k : Nat}
    (h : s.Stands (t ++ List.replicate k (CodePoint.ofChar ' ') ++ r)) (hr : IsSolid r) :
    (s.advance t).Stands r ∧ (s.advance t).gap = .none := by
  cases r with
  | nil => cases hr
  | cons c r =>
    have hblanks : ∀ k offset, ∃ offset', Scan.betweenFrom .blank offset .none []
        (List.replicate k (CodePoint.ofChar ' ') ++ c :: r) =
          ⟨c :: r, offset', Token.ofText (c :: r), .none, []⟩ := by
      intro k
      induction k with
      | zero =>
        intro offset
        exact ⟨_, Scan.betweenFrom_of_ends ((Scan.isSolid_iff _).mp hr)⟩
      | succ k ih => exact fun offset => ih (offset + 1)
    obtain ⟨offset, hbetween⟩ := hblanks k (s.offset + Scan.byteLength t)
    rw [Scan.advance, h.rest, List.append_assoc, List.drop_left, h.comments, Scan.between, hbetween]
    exact ⟨⟨rfl, rfl, rfl⟩, rfl⟩

theorem Scan.Stands.advance_blank {s : Scan} {t r : Text} (h : s.Stands (t ++ " ".toText ++ r))
    (hr : IsSolid r) : (s.advance t).Stands r :=
  (Scan.Stands.advance_blanks (k := 1) h hr).1

namespace Tree

theorem evaluate_of_string {node : Tree} (h : node.kind = .string) :
    node.evaluate = node.units?.map .string := by
  obtain ⟨kind, role, start, stop, text, children⟩ := node
  obtain rfl : kind = .string := h
  rw [evaluate]

theorem evaluateName_of_string {node : Tree} (h : node.kind = .string) :
    node.evaluateName = node.units?.map (·, false) := by
  obtain ⟨kind, role, start, stop, text, children⟩ := node
  obtain rfl : kind = .string := h
  rw [evaluateName]

/-- The role of a node does not matter for its value. -/
theorem evaluate_as (node : Tree) (role : Role) : (node.as role).evaluate = node.evaluate := by
  obtain ⟨kind, role', start, stop, text, children⟩ := node
  cases kind <;> rfl

theorem evaluateName_as (node : Tree) (role : Role) :
    (node.as role).evaluateName = node.evaluateName := by
  obtain ⟨kind, role', start, stop, text, children⟩ := node
  cases kind <;> rfl

theorem units?_of_stringValue {node : Tree} {value : Text} (h : node.stringValue = .ok value) :
    node.units? = some (Utf16.encode value) := by
  rw [Tree.units?, h]

theorem IsLeaf.evaluate_number {node : Tree} {w : Text} (h : node.IsLeaf .number w) {f : Binary64}
    (hf : double? w = some f) : node.evaluate = some (.number f) := by
  obtain ⟨start, rfl⟩ := h
  rw [leaf, evaluate, hf]
  rfl

/-- A node for a literal with a value. No property stands in it. -/
structure Denotes (node : Tree) (d : Datum) : Prop where
  value : node.evaluate = some d
  plain : node.isPlain = true

theorem IsLeaf.isPlain {node : Tree} {kind : Kind} {spelling : Text}
    (h : node.IsLeaf kind spelling) (hkind : kind ≠ .member ∧ kind ≠ .subscript) :
    node.isPlain = true := by
  obtain ⟨start, rfl⟩ := h
  exact isPlain_iff.mpr ⟨by simp [isAccess, leaf, hkind.1, hkind.2], by simp [namedChildren, leaf]⟩

theorem isPlain_node {kind : Kind} {ts : List Tree} (hkind : kind ≠ .member ∧ kind ≠ .subscript)
    (h : ∀ t ∈ ts, t.isPlain = true) : (node kind ts).isPlain = true :=
  isPlain_iff.mpr ⟨by simp [isAccess, node, hkind.1, hkind.2],
    fun t ht => h t (mem_namedChildren.mp ht).1⟩

theorem isPlain_enclosed {kind : Kind} (hkind : kind ≠ .member ∧ kind ≠ .subscript)
    {left right : Tree} {opening closing : Text} (hleft : left.IsLeaf .token opening)
    (hright : right.IsLeaf .token closing) {row : List Tree} (h : ∀ t ∈ row, t.isPlain = true) :
    (node kind (left :: row ++ [right])).isPlain = true := by
  refine isPlain_node hkind fun t ht => ?_
  simp only [List.cons_append, List.mem_cons, List.mem_append, List.not_mem_nil, or_false] at ht
  rcases ht with rfl | ht | rfl
  · exact hleft.isPlain (by decide)
  · exact h t ht
  · exact hright.isPlain (by decide)

/-- A node with a value is named. -/
theorem isNamed_of_evaluate {node : Tree} {d : Datum} (h : node.evaluate = some d) :
    node.isNamed = true := by
  obtain ⟨kind, role, start, stop, text, children⟩ := node
  by_cases htoken : kind = .token
  · subst htoken
    cases h
  · simpa [isNamed] using htoken

/-- Nodes with commas between them, one for each member of a list. -/
inductive Listed {α : Type} (Q : α → Tree → Prop) : List α → List Tree → Prop
  | nil : Listed Q [] []
  | single {a : α} {node : Tree} (head : Q a node) : Listed Q [a] [node]
  | cons {a b : α} {as : List α} {node comma : Tree} {row : List Tree} (head : Q a node)
      (divides : comma.IsLeaf .token ",".toText) (tail : Listed Q (b :: as) row) :
      Listed Q (a :: b :: as) (node :: comma :: row)

theorem IsLeaf.hasLooseDefault {node : Tree} {spelling : Text} (h : node.IsLeaf .token spelling) :
    node.hasLooseDefault = false := by
  obtain ⟨start, rfl⟩ := h
  rfl

theorem IsLeaf.isNamed {node : Tree} {spelling : Text} (h : node.IsLeaf .token spelling) :
    node.isNamed = false := by
  obtain ⟨start, rfl⟩ := h
  rfl

theorem IsLeaf.evaluateProperties {node : Tree} {spelling : Text} (h : node.IsLeaf .token spelling)
    (row : List Tree) : Tree.evaluateProperties (node :: row) = Tree.evaluateProperties row := by
  obtain ⟨start, rfl⟩ := h
  rw [leaf, Tree.evaluateProperties, if_pos rfl]

theorem hasLooseDefault_as (node : Tree) (role : Role) :
    (node.as role).hasLooseDefault = node.hasLooseDefault := by
  obtain ⟨kind, role', start, stop, text, children⟩ := node
  rfl

theorem haveLooseDefault_append (row others : List Tree) :
    haveLooseDefault (row ++ others) = (haveLooseDefault row || haveLooseDefault others) := by
  induction row with
  | nil => rfl
  | cons node row ih => rw [List.cons_append, haveLooseDefault, haveLooseDefault, ih, Bool.or_assoc]

namespace Listed

/-- No property stands in a list if none stands in its items. -/
theorem isPlain {α : Type} {Q : α → Tree → Prop} {as : List α} {row : List Tree}
    (h : Listed Q as row) (plain : ∀ {a : α} {node : Tree}, Q a node → node.isPlain = true) :
    ∀ t ∈ row, t.isPlain = true := by
  induction h with
  | nil => simp
  | single head => simpa using plain head
  | cons head divides tail ih =>
    exact List.forall_mem_cons.mpr ⟨plain head, List.forall_mem_cons.mpr
      ⟨divides.isPlain (by decide), ih⟩⟩

/-- Nothing is missing between the commas of a list. -/
theorem haveHole {α : Type} {Q : α → Tree → Prop} {as : List α} {row : List Tree}
    (h : Listed Q as row) (named : ∀ {a : α} {node : Tree}, Q a node → node.isNamed = true)
    {right : Tree} {closing : Text} (hright : right.IsLeaf .token closing)
    (hclosing : closing ≠ ",".toText) (left : Tree) :
    Tree.haveHole (left :: row ++ [right]) = false := by
  induction h generalizing left with
  | nil =>
    obtain ⟨start, rfl⟩ := hright
    simp [Tree.haveHole, leaf, hclosing]
  | single head => simp [Tree.haveHole, named head]
  | @cons a b as node comma row head divides tail ih =>
    have htail : Tree.haveHole (comma :: row ++ [right]) = false := ih comma
    rw [List.cons_append] at htail
    simp [Tree.haveHole, named head, htail]

/-- The items of a list are evaluated one by one. -/
theorem evaluateItems {data : List Datum} {row : List Tree}
    (h : Listed (fun d node => node.Denotes d) data row) {right : Tree} {closing : Text}
    (hright : right.IsLeaf .token closing) : Tree.evaluateItems (row ++ [right]) = some data := by
  induction h with
  | nil => simp [Tree.evaluateItems, hright.isNamed]
  | single head =>
    simp [Tree.evaluateItems, isNamed_of_evaluate head.value, head.value, hright.isNamed]
  | cons head divides tail ih =>
    simp [Tree.evaluateItems, isNamed_of_evaluate head.value, head.value, divides.isNamed, ih]

/-- So are the properties. -/
theorem evaluateProperties {properties : List Datum.Property} {row : List Tree}
    (h : Listed (fun p node => node.kind = .pair ∧ evaluatePair node.children = some p ∧
      node.isPlain = true) properties row) {right : Tree} {closing : Text}
    (hright : right.IsLeaf .token closing) :
    Tree.evaluateProperties (row ++ [right]) = some properties := by
  have hpair : ∀ {node : Tree} {p : Datum.Property} {row : List Tree}, node.kind = .pair →
      evaluatePair node.children = some p → Tree.evaluateProperties (node :: row) =
        (Tree.evaluateProperties row).map (p :: ·) := by
    rintro ⟨kind, role, start, stop, text, children⟩ p row hkind hp
    obtain rfl : kind = .pair := hkind
    rw [Tree.evaluateProperties, if_neg (by decide), if_pos rfl, hp]
    cases Tree.evaluateProperties row <;> rfl
  induction h with
  | nil => exact hright.evaluateProperties []
  | single head =>
    rw [List.singleton_append, hpair head.1 head.2.1, hright.evaluateProperties]
    rfl
  | cons head divides tail ih =>
    rw [List.cons_append, hpair head.1 head.2.1, List.cons_append, divides.evaluateProperties, ih]
    rfl

end Listed

end Tree

theorem Lexeme.Numeral.opens {w : Text} (h : Numeral w) : Opens w := by
  obtain ⟨c, t, rfl, hc⟩ := h.head
  exact opens_of_isNamePart (isNamePart_of_isDigit hc) t

theorem opens_string (t : Text) : Opens (Literal.string t) := by
  rw [Literal.string_eq]
  exact ⟨doubleQuote, rfl, by decide, by decide⟩

namespace Parser

/-- A reader takes a text as one node wherever an expression can end behind it. The node has a
property, and the text begins like a literal. -/
structure ReadsPart (p : Parser Tree) (t : Text) (P : Tree → Prop) : Prop where
  opens : Opens t
  read : ∀ (s : Scan) (c : CodePoint) (r : Text), c ∈ ")]\x7d,;".toText → s.Stands (t ++ c :: r) →
    (s.next.beginsLiteral = true ∨ s.next = .symbol "-".toText) ∧
      ∃ node e, p s = some (node, e) ∧ e.Stands (c :: r) ∧ node.hasLooseDefault = false ∧ P node

theorem ReadsPart.mono {p : Parser Tree} {t : Text} {P Q : Tree → Prop} (h : ReadsPart p t P)
    (hPQ : ∀ node, P node → Q node) : ReadsPart p t Q := by
  refine ⟨h.opens, fun s c r hc hs => ?_⟩
  obtain ⟨hbegin, node, e, hread, he, hsettled, hnode⟩ := h.read s c r hc hs
  exact ⟨hbegin, node, e, hread, he, hsettled, hPQ node hnode⟩

theorem follows_of_mem {c : CodePoint} (hc : c ∈ ")]\x7d,;".toText) (r : Text) :
    Follows (c :: r) := by
  refine follows_cons ?_ r
  have hall : (")]\x7d,;".toText.all fun c => ")]\x7d,:;".toText.contains c) = true := by decide
  exact List.contains_iff_mem.mp (List.all_eq_true.mp hall c hc)

theorem isSolid_of_mem {c : CodePoint} (hc : c ∈ ")]\x7d,;".toText) (r : Text) : IsSolid (c :: r) :=
  (follows_of_mem hc r).1.resolve_left (List.cons_ne_nil c r)

/-- Where an expression can end, it ends. -/
theorem endsExpression_of_stands {e : Scan} {c : CodePoint} {r : Text}
    (hc : c ∈ ")]\x7d,;".toText) (h : e.Stands (c :: r)) : e.next.endsExpression = true := by
  have hmarks : c ∈ [CodePoint.ofChar ')', CodePoint.ofChar ']', CodePoint.ofChar '\x7d',
    CodePoint.ofChar ',', CodePoint.ofChar ';'] := hc
  rw [h.next]
  fin_cases hmarks
  all_goals
    rw [Token.ofText_punctuator (by decide)]
    rfl

variable {r : Rules}

theorem isLeaf_of_takeInside {kind : Kind} {lexeme : Text} {s e : Scan} {node : Tree}
    (h : takeInside kind lexeme s = some (node, e)) : node.IsLeaf kind lexeme := by
  cases h
  exact ⟨_, rfl⟩

/-- The parts of a string are pieces of its text. -/
theorem isPlain_of_stringRest {quote : CodePoint} {n : Nat} {s e : Scan} {inside : List Tree}
    (h : stringRest quote n s = some (inside, e)) : ∀ c ∈ inside, c.isPlain = true := by
  induction n generalizing s e inside with
  | zero => cases h
  | succ n ih =>
    -- A piece is a leaf, and the others are read behind it.
    have hpiece : ∀ {kind : Kind} {lexeme : Text} {s e : Scan} {inside : List Tree},
        (kind = .escape ∨ kind = .stringFragment) →
        (do
          let first ← takeInside kind lexeme
          let others ← stringRest quote n
          return first :: others : Parser (List Tree)) s = some (inside, e) →
        ∀ c ∈ inside, c.isPlain = true := by
      intro kind lexeme s e inside hkind h
      obtain ⟨first, s₁, hfirst, h⟩ := exists_of_bind h
      obtain ⟨others, s₂, hothers, h⟩ := exists_of_bind h
      cases h
      refine List.forall_mem_cons.mpr ⟨(isLeaf_of_takeInside hfirst).isPlain ?_, ih hothers⟩
      rcases hkind with rfl | rfl <;> decide
    unfold stringRest at h
    simp only [bind_get] at h
    split at h
    · cases h
      exact List.forall_mem_singleton.mpr (Tree.IsLeaf.isPlain ⟨_, rfl⟩ (by decide))
    · cases hescape : Lexeme.escape? s.rest with
      | some escape =>
        simp only [hescape] at h
        exact hpiece (.inl rfl) h
      | none =>
        simp only [hescape] at h
        exact hpiece (.inr rfl) (of_require h).2

/-- A string has nothing but pieces of text in it, and no text of its own. -/
theorem isPlain_of_string {s e : Scan} {node : Tree} (h : Parser.string s = some (node, e)) :
    node.isPlain = true ∧ node.text = [] := by
  unfold Parser.string at h
  simp only [bind_next] at h
  cases hnext : s.next with
  | quote quote =>
    simp only [hnext] at h
    obtain ⟨opening, s₁, hopening, h⟩ := exists_of_bind h
    simp only [bind_budget] at h
    obtain ⟨inside, s₂, hinside, h⟩ := exists_of_bind h
    cases h
    refine ⟨Tree.isPlain_node (by decide) (List.forall_mem_cons.mpr ⟨?_, ?_⟩), rfl⟩
    · exact (isLeaf_of_takeInside hopening).isPlain (by decide)
    · exact isPlain_of_stringRest hinside
  | _ =>
    simp only [hnext] at h
    cases h

/-- A text that is read as a primary expression is read as an expression. -/
theorem readsPart_primary {t : Text} {P : Tree → Prop} (hopens : Opens t)
    (h : ∀ (s : Scan) (c : CodePoint) (rest : Text), c ∈ ")]\x7d,;".toText →
      s.Stands (t ++ c :: rest) → s.next.beginsLiteral = true ∧
        ∃ node e, primary r r.unary s = some (node, e) ∧ e.Stands (c :: rest) ∧
          node.hasLooseDefault = false ∧ P node) :
    ReadsPart (assignment r) t P := by
  refine ⟨hopens, fun s c rest hc hs => ?_⟩
  obtain ⟨hbegin, node, e, hprimary, he, hsettled, hnode⟩ := h s c rest hc hs
  have hend := endsExpression_of_stands hc he
  exact ⟨.inl hbegin, node, e, assignment_of_unary (.inl hbegin)
    (unary_of_primary hbegin hprimary hend) hend, he, hsettled, hnode⟩

/-- A literal of one word. -/
theorem readsPart_word {word : String} {kind : Kind}
    (h : (word = "null" ∧ kind = .null) ∨ (word = "true" ∧ kind = .true) ∨
      (word = "false" ∧ kind = .false)) :
    ReadsPart (assignment r) word.toText (Tree.IsLeaf kind word.toText) := by
  have hopens : Opens word.toText := by
    rcases h with ⟨rfl, -⟩ | ⟨rfl, -⟩ | ⟨rfl, -⟩ <;> exact opens_of_isNamePart (by decide) _
  refine readsPart_primary hopens fun s c rest hc hs => ?_
  have hends := (follows_of_mem hc rest).2
  have htoken : s.next = .name word.toText := by
    -- The word is read alone, and what is behind it does not go on with it.
    have hname : name? (word.toText ++ c :: rest) = some word.toText := by
      have hnil : name? (word.toText ++ []) = some word.toText := by
        rcases h with ⟨rfl, -⟩ | ⟨rfl, -⟩ | ⟨rfl, -⟩ <;> decide
      exact (name?_append hnil).2 _ (namePiece?_of_ends hends)
    rw [hs.next]
    rcases h with ⟨rfl, -⟩ | ⟨rfl, -⟩ | ⟨rfl, -⟩ <;>
      exact Token.ofText_nameStart (by decide) hname
  refine ⟨?_, Tree.leaf kind s.offset (s.offset + Scan.byteLength word.toText) word.toText,
    s.advance word.toText, ?_, hs.advance (isSolid_of_mem hc rest), ?_, _, rfl⟩
  · rw [htoken]
    rcases h with ⟨rfl, -⟩ | ⟨rfl, -⟩ | ⟨rfl, -⟩ <;> decide
  · rw [primary, bind_next, htoken]
    show wordExpression r r.unary s = _
    rw [wordExpression, bind_next, htoken]
    rcases h with ⟨rfl, rfl⟩ | ⟨rfl, rfl⟩ | ⟨rfl, rfl⟩
    · show wordAs .null "null" s = _
      rw [wordAs, bind_atWord, htoken]
      rfl
    · show wordAs .true "true" s = _
      rw [wordAs, bind_atWord, htoken]
      rfl
    · show wordAs .false "false" s = _
      rw [wordAs, bind_atWord, htoken]
      rfl
  · rcases h with ⟨-, rfl⟩ | ⟨-, rfl⟩ | ⟨-, rfl⟩ <;> rfl

/-- A string literal. -/
theorem readsPart_string (t : Text) :
    ReadsPart (assignment r) (Literal.string t) fun node =>
      node.kind = .string ∧ node.stringValue = .ok (Utf16.joinPairs t) ∧ node.isPlain = true ∧
        node.text = [] := by
  refine readsPart_primary (opens_string t) fun s c rest hc hs => ?_
  obtain ⟨node, hstring, hsettled, hquotes⟩ :=
    Literal.read_string hs.rest (by rw [hs.next, hs.rest])
  have hnext : s.next = .quote doubleQuote := by
    rw [hs.next, Literal.string_eq]
    rfl
  refine ⟨by rw [hnext]; rfl, node, s.advance (Literal.string t),
    (primary_of_string hnext).trans hstring, hs.advance (isSolid_of_mem hc rest), hsettled,
    hquotes.kind, hquotes.value, isPlain_of_string hstring⟩

/-- A number is a primary expression. -/
theorem primary_of_numeral {w : Text} (h : Numeral w) {s : Scan} {c : CodePoint} {rest : Text}
    (hc : c ∈ ")]\x7d,;".toText) (hs : s.Stands (w ++ c :: rest)) :
    s.next = .number w ∧ primary r r.unary s = some
      (Tree.leaf .number s.offset (s.offset + Scan.byteLength w) w, s.advance w) := by
  have hnext : s.next = .number w := by
    have hnumber := number?_numeral h (follows_of_mem hc rest).2
    obtain ⟨d, t, rfl, hd⟩ := h.head
    rw [hs.next]
    exact Token.ofText_digit hd hnumber
  refine ⟨hnext, ?_⟩
  rw [primary, bind_next, hnext]
  rfl

theorem readsPart_numeral {w : Text} (h : Numeral w) :
    ReadsPart (assignment r) w (Tree.IsLeaf .number w) := by
  refine readsPart_primary h.opens fun s c rest hc hs => ?_
  obtain ⟨hnext, hprimary⟩ := primary_of_numeral (r := r) h hc hs
  exact ⟨by rw [hnext]; rfl, _, _, hprimary, hs.advance (isSolid_of_mem hc rest), rfl, _, rfl⟩

/-- A number behind a minus sign, which is read one level down. -/
theorem readsPart_negative {r' : Rules} (hr : r.unary = unary r') {w : Text} (h : Numeral w) :
    ReadsPart (assignment r) (CodePoint.ofChar '-' :: w) fun node =>
      ∃ operator operand : Tree,
        node = Tree.node .unary [operator.as .operator, operand.as .argument] ∧
        operator.IsLeaf .token "-".toText ∧ operand.IsLeaf .number w := by
  refine ⟨⟨CodePoint.ofChar '-', rfl, by decide, by decide⟩, fun s c rest hc hs => ?_⟩
  obtain ⟨d, t, rfl, hd⟩ := h.head
  have hnext : s.next = .symbol "-".toText := by
    rw [hs.next]
    exact Token.ofText_minus hd _
  have hbehind : (s.advance "-".toText).Stands (d :: t ++ c :: rest) := by
    have hopens := opens_of_isNamePart (isNamePart_of_isDigit hd) (t ++ c :: rest)
    exact Scan.Stands.advance (t := "-".toText) hs hopens.isSolid
  obtain ⟨hnumber, hprimary⟩ := primary_of_numeral (r := r') h hc hbehind
  have he := hbehind.advance (isSolid_of_mem hc rest)
  have hend := endsExpression_of_stands hc he
  have hoperand := unary_of_primary (by rw [hnumber]; rfl) hprimary hend
  rw [← hr] at hoperand
  exact ⟨.inr hnext, _, _, assignment_of_unary (.inr hnext) (unary_of_minus hnext hoperand) hend,
    he, rfl, _, _, rfl, ⟨_, rfl⟩, _, rfl⟩

/-! ### Rows of parts -/

/-- A punctuator that comes next is read. -/
theorem symbol_of_next {spelling : String} {s : Scan} (h : s.next = .symbol spelling.toText) :
    ∃ mark, symbol spelling s = some (mark, s.advance spelling.toText) ∧
      mark.IsLeaf .token spelling.toText := by
  refine ⟨Tree.leaf .token s.offset (s.offset + Scan.byteLength spelling.toText) spelling.toText,
    ?_, _, rfl⟩
  rw [symbol, bind_atSymbol, h, beq_self_eq_true]
  rfl

theorem next_of_stands {c : CodePoint} (hc : c ∈ "()[]\x7b\x7d,:;".toText) {s : Scan} {t : Text}
    (hs : s.Stands (c :: t)) : s.next = .symbol [c] := by
  rw [hs.next, Token.ofText_punctuator hc]

/-- A part begins with none of the punctuators that end or divide a list, and not with points. -/
theorem not_symbol_of_begins {t : Token}
    (h : t.beginsLiteral = true ∨ t = .symbol "-".toText) {mark : String}
    (hmark : mark ∈ [")", "]", "\x7d", ",", "..."]) : (t == .symbol mark.toText) = false := by
  rw [beq_eq_false_iff_ne]
  rintro rfl
  fin_cases hmark <;> exact absurd h (by decide)

theorem ReadsPart.opens_join {p : Parser Tree} {part : Text} {P : Tree → Prop}
    (h : ReadsPart p part P) (parts : List Text) :
    Opens (Text.join ", ".toText (part :: parts)) := by
  cases parts with
  | nil =>
    rw [Text.join, List.intercalate_singleton]
    exact h.opens
  | cons next parts =>
    rw [Text.join, List.intercalate_cons_cons, List.append_assoc]
    exact h.opens.append _

/-- The items of a list. -/
theorem readsPart_spreadable {t : Text} {P : Tree → Prop} (h : ReadsPart r.assignment t P) :
    ReadsPart (spreadable r) t P := by
  refine ⟨h.opens, fun s c rest hc hs => ?_⟩
  obtain ⟨hbegin, hread⟩ := h.read s c rest hc hs
  refine ⟨hbegin, ?_⟩
  rw [spreadable, bind_atSymbol, not_symbol_of_begins hbegin (by decide)]
  exact hread

section

variable {p : Parser Tree} {close : String} {holes : Bool} {s e : Scan} {node : Tree}

theorem commaList_of_close (hnext : s.next = .symbol close.toText) (n : Nat) :
    commaList close holes p (n + 1) s = some ([], s) := by
  rw [commaList, bind_atSymbol, hnext, beq_self_eq_true]
  rfl

/-- A comma before which an item is missing. -/
theorem commaList_of_comma (hclose : (Token.symbol ",".toText == .symbol close.toText) = false)
    (hnext : s.next = .symbol ",".toText) {n : Nat} {row : List Tree}
    (hrow : commaList close true p n (s.advance ",".toText) = some (row, e)) :
    ∃ comma, commaList close true p (n + 1) s = some (comma :: row, e) ∧
      comma.IsLeaf .token ",".toText := by
  obtain ⟨comma, hread, hcomma⟩ := symbol_of_next hnext
  refine ⟨comma, ?_, hcomma⟩
  rw [commaList, bind_atSymbol, hnext, hclose]
  show (atSymbol "," >>= _) s = _
  rw [bind_atSymbol, hnext, if_pos (beq_self_eq_true _),
    bind_of_eq (show require true s = some ((), s) from rfl), bind_of_eq hread, bind_of_eq hrow]
  rfl

/-- An item is read, and behind it the list ends or goes on with a comma. -/
theorem commaList_of_item (hclose : (s.next == .symbol close.toText) = false)
    (hcomma : (s.next == .symbol ",".toText) = false) (hitem : p s = some (node, e)) (n : Nat) :
    commaList close holes p (n + 1) s =
      if e.next == .symbol close.toText then some ([node], e)
      else (symbol "," >>= fun comma => commaList close holes p n >>= fun others =>
        pure (node :: comma :: others)) e := by
  rw [commaList, bind_atSymbol, hclose]
  show (atSymbol "," >>= _) s = _
  rw [bind_atSymbol, hcomma]
  show (p >>= _) s = _
  rw [bind_of_eq hitem, bind_atSymbol]
  split <;> rfl

/-- An item with a comma behind it. -/
theorem commaList_of_item_comma (hclose : (s.next == .symbol close.toText) = false)
    (hcomma : (s.next == .symbol ",".toText) = false) (hitem : p s = some (node, e))
    (hends : (Token.symbol ",".toText == .symbol close.toText) = false)
    (hnext : e.next = .symbol ",".toText) {n : Nat} {row : List Tree} {e' : Scan}
    (hrow : commaList close holes p n (e.advance ",".toText) = some (row, e')) :
    ∃ comma, commaList close holes p (n + 1) s = some (node :: comma :: row, e') ∧
      comma.IsLeaf .token ",".toText := by
  obtain ⟨comma, hread, hmark⟩ := symbol_of_next hnext
  refine ⟨comma, ?_, hmark⟩
  rw [commaList_of_item hclose hcomma hitem, hnext, hends]
  show (symbol "," >>= _) e = _
  rw [bind_of_eq hread, bind_of_eq hrow]
  rfl

end

/-- Parts with commas between them are read as a list, up to the punctuator that closes it. -/
theorem commaList_of_parts {p : Parser Tree} {α : Type} {Q : α → Tree → Prop} {close : String}
    {last : CodePoint} (hclose : close.toText = [last]) (hmark : close ∈ [")", "]", "\x7d"])
    (holes : Bool) {parts : List Text} {as : List α}
    (h : List.Forall₂ (fun part a => ReadsPart p part (Q a)) parts as) :
    ∀ {n : Nat} {s : Scan} {rest : Text}, parts.length ≤ n →
      s.Stands (Text.join ", ".toText parts ++ last :: rest) →
      ∃ row e, commaList close holes p (n + 1) s = some (row, e) ∧ e.Stands (last :: rest) ∧
        Tree.haveLooseDefault row = false ∧ Tree.Listed Q as row := by
  have hlast : last ∈ ")]\x7d,;".toText ∧ last ∈ "()[]\x7b\x7d,:;".toText := by
    fin_cases hmark <;> cases hclose <;> decide
  have hends : ∀ {e : Scan} {rest : Text}, e.Stands (last :: rest) →
      e.next = .symbol close.toText := by
    intro e rest he
    rw [hclose]
    exact next_of_stands hlast.2 he
  have hbegins : ∀ {t : Token}, t.beginsLiteral = true ∨ t = .symbol "-".toText →
      (t == .symbol close.toText) = false ∧ (t == .symbol ",".toText) = false := by
    intro t ht
    refine ⟨?_, not_symbol_of_begins ht (by decide)⟩
    fin_cases hmark <;> exact not_symbol_of_begins ht (by decide)
  have hcomma : (Token.symbol ",".toText == .symbol close.toText) = false := by
    fin_cases hmark <;> rfl
  induction h with
  | nil => exact fun _ hs => ⟨[], _, commaList_of_close (hends hs) _, hs, rfl, .nil⟩
  | @cons part a parts as hpart hparts ih =>
    intro n s rest hn hs
    rw [List.length_cons] at hn
    -- A part is behind the first one, or the list ends there.
    cases hparts with
    | nil =>
      rw [Text.join, List.intercalate_singleton] at hs
      obtain ⟨hbegin, node, e, hp, he, hsettled, hnode⟩ := hpart.read s last rest hlast.1 hs
      refine ⟨[node], e, ?_, he, by simp [Tree.haveLooseDefault, hsettled], .single hnode⟩
      rw [commaList_of_item (hbegins hbegin).1 (hbegins hbegin).2 hp, hends he,
        beq_self_eq_true, if_pos rfl]
    | @cons next b parts bs hnext hparts =>
      obtain ⟨n, rfl⟩ : ∃ m, n = m + 1 := Nat.exists_eq_add_one.mpr (by omega)
      rw [Text.join, List.intercalate_cons_cons, List.append_assoc, List.append_assoc] at hs
      obtain ⟨hbegin, node, e, hp, he, hsettled, hnode⟩ :=
        hpart.read s (CodePoint.ofChar ',') _ (by decide) hs
      have hdivides : e.next = .symbol ",".toText := next_of_stands (by decide) he
      have hbehind := Scan.Stands.advance_blank (t := ",".toText) he
        ((hnext.opens_join parts).append _).isSolid
      obtain ⟨row, e', hrow, he', hsettled', hlisted⟩ := ih (n := n) (by omega) hbehind
      obtain ⟨comma, hread, hmark⟩ := commaList_of_item_comma (hbegins hbegin).1
        (hbegins hbegin).2 hp hcomma hdivides hrow
      refine ⟨node :: comma :: row, e', hread, he', ?_, .cons hnode hmark hlisted⟩
      simp [Tree.haveLooseDefault, hmark.hasLooseDefault, hsettled, hsettled']

/-- What is in brackets is a primary expression, if it is read as a list. -/
theorem readsPart_brackets {p : Parser Tree} {kind : Kind} {opening closing : String} {holes : Bool}
    (hmarks : (kind, opening, closing) ∈ [(.array, "[", "]"), (.object, "\x7b", "\x7d")])
    (hprimary : ∀ s : Scan, s.next = .symbol opening.toText → primary r r.unary s =
      (do
        let opening ← symbol opening
        let items ← commaList closing holes p (← budget)
        let closing ← symbol closing
        return Tree.node kind (opening :: items ++ [closing]) : Parser Tree) s)
    {inside : Text} (hsolid : ∀ rest, IsSolid (inside ++ closing.toText ++ rest))
    {R : List Tree → Prop}
    (hlist : ∀ (s : Scan) (rest : Text), s.Stands (inside ++ closing.toText ++ rest) →
      ∃ row e, commaList closing holes p (s.rest.length + 1) s = some (row, e) ∧
        e.Stands (closing.toText ++ rest) ∧ Tree.haveLooseDefault row = false ∧ R row)
    {P : Tree → Prop}
    (hP : ∀ {left right : Tree} {row : List Tree}, left.IsLeaf .token opening.toText →
      right.IsLeaf .token closing.toText → R row → P (Tree.node kind (left :: row ++ [right]))) :
    ReadsPart (assignment r) (opening.toText ++ inside ++ closing.toText) P := by
  obtain ⟨first, last, hopening, hclosing, hopens, hfirst, hpunctuator, hbegins, hkind⟩ :
      ∃ first last, opening.toText = [first] ∧ closing.toText = [last] ∧ Opens [first] ∧
        first ∈ "()[]\x7b\x7d,:;".toText ∧ last ∈ "()[]\x7b\x7d,:;".toText ∧
        (Token.symbol opening.toText).beginsLiteral = true ∧ kind ≠ .shorthandDefault := by
    fin_cases hmarks <;> exact ⟨_, _, rfl, rfl, ⟨_, rfl, by decide, by decide⟩, by decide,
      by decide, by decide, by decide⟩
  rw [List.append_assoc, hopening]
  refine readsPart_primary (hopens.append _) fun s c rest hc hs => ?_
  rw [List.append_assoc] at hs
  have hnext : s.next = .symbol opening.toText := by
    rw [hopening]
    exact next_of_stands hfirst hs
  have hinside : (s.advance opening.toText).Stands (inside ++ closing.toText ++ c :: rest) := by
    rw [hopening]
    exact Scan.Stands.advance (t := [first]) hs (hsolid _)
  obtain ⟨row, e, hrow, he, hsettled, hlisted⟩ := hlist _ _ hinside
  have hnext' : e.next = .symbol closing.toText := by
    rw [hclosing] at he ⊢
    exact next_of_stands hpunctuator he
  have hbehind := he.advance (isSolid_of_mem hc rest)
  obtain ⟨left, hread, hleft⟩ := symbol_of_next hnext
  obtain ⟨right, hread', hright⟩ := symbol_of_next hnext'
  refine ⟨by rw [hnext, hbegins], Tree.node kind (left :: row ++ [right]), _, ?_, hbehind, ?_,
    hP hleft hright hlisted⟩
  · rw [hprimary s hnext, bind_of_eq hread, bind_budget, bind_of_eq hrow, bind_of_eq hread']
    rfl
  · simp [Tree.node, Tree.hasLooseDefault, Tree.haveLooseDefault, Tree.haveLooseDefault_append,
      hleft.hasLooseDefault, hright.hasLooseDefault, hsettled, hkind]

/-- Parts in brackets are a primary expression. The reader of the list has room for as many turns as
the text has code points, which is enough for the parts. -/
theorem readsPart_enclosed {p : Parser Tree} {kind : Kind} {opening closing : String} {holes : Bool}
    (hmarks : (kind, opening, closing) ∈ [(.array, "[", "]"), (.object, "\x7b", "\x7d")])
    (hprimary : ∀ s : Scan, s.next = .symbol opening.toText → primary r r.unary s =
      (do
        let opening ← symbol opening
        let items ← commaList closing holes p (← budget)
        let closing ← symbol closing
        return Tree.node kind (opening :: items ++ [closing]) : Parser Tree) s)
    {α : Type} {Q : α → Tree → Prop} {parts : List Text} {as : List α}
    (h : List.Forall₂ (fun part a => ReadsPart p part (Q a)) parts as) {P : Tree → Prop}
    (hP : ∀ {left right : Tree} {row : List Tree}, left.IsLeaf .token opening.toText →
      right.IsLeaf .token closing.toText → Tree.Listed Q as row →
      P (Tree.node kind (left :: row ++ [right]))) :
    ReadsPart (assignment r)
      (opening.toText ++ Text.join ", ".toText parts ++ closing.toText) P := by
  obtain ⟨last, hclosing, hmark, hlast⟩ : ∃ last, closing.toText = [last] ∧
      closing ∈ [")", "]", "\x7d"] ∧ last ∈ ")]\x7d,;".toText := by
    fin_cases hmarks <;> exact ⟨_, rfl, by decide, by decide⟩
  refine readsPart_brackets hmarks hprimary (fun rest => ?_) (fun s rest hs => ?_) hP
  · rw [List.append_assoc, hclosing]
    cases h with
    | nil => exact isSolid_of_mem hlast _
    | cons hpart _ => exact ((hpart.opens_join _).append _).isSolid
  · rw [List.append_assoc, hclosing] at hs
    have hlength : parts.length ≤ s.rest.length := by
      rw [hs.rest]
      exact Nat.le_trans (Text.length_le_join ", ".toText (by decide) _) (by simp)
    rw [hclosing]
    exact commaList_of_parts hclosing hmark holes h hlength hs

theorem primary_of_bracket {s : Scan} (h : s.next = .symbol "[".toText) :
    primary r r.unary s = array r s := by
  rw [primary, bind_next, h]
  rfl

theorem primary_of_brace {s : Scan} (h : s.next = .symbol "\x7b".toText) :
    primary r r.unary s = object r s := by
  rw [primary, bind_next, h]
  rfl

/-- An array of parts. -/
theorem readsPart_array {parts : List Text} {data : List Datum}
    (h : List.Forall₂ (fun part d => ReadsPart r.assignment part fun node => node.Denotes d)
      parts data) :
    ReadsPart (assignment r) ("[".toText ++ Text.join ", ".toText parts ++ "]".toText)
      fun node => node.Denotes (.array data) ∧ node.kind = .array ∧ node.text = [] := by
  have hitems := h.imp fun part d hpart => readsPart_spreadable hpart
  refine readsPart_enclosed (by decide) (fun _ => primary_of_bracket) hitems fun hleft hright hlisted =>
    ⟨⟨?_, ?_⟩, rfl, rfl⟩
  · show (if Tree.haveHole _ then none else (Tree.evaluateItems _).map Datum.array) = _
    rw [hlisted.haveHole (fun h => Tree.isNamed_of_evaluate h.value) hright (by decide),
      List.cons_append, Tree.evaluateItems, hleft.isNamed, hlisted.evaluateItems hright]
    rfl
  · exact Tree.isPlain_enclosed (by decide) hleft hright (hlisted.isPlain fun h => h.plain)

/-- A string, a colon and a part. -/
theorem readsPart_pair {key part : Text} {P : Tree → Prop} (h : ReadsPart r.assignment part P) :
    ReadsPart (objectMember r) (Literal.string key ++ ": ".toText ++ part) fun node =>
      ∃ name colon value : Tree, node = Tree.node .pair [name.as .key, colon, value.as .value] ∧
        name.kind = .string ∧ name.stringValue = .ok (Utf16.joinPairs key) ∧ name.isPlain = true ∧
        colon.IsLeaf .token ":".toText ∧ P value := by
  refine ⟨((opens_string key).append _).append _, fun s c rest hc hs => ?_⟩
  rw [List.append_assoc, List.append_assoc] at hs
  have hnext : s.next = .quote doubleQuote := by
    rw [hs.next, Literal.string_eq]
    rfl
  obtain ⟨name, hstring, hsettled, hquotes⟩ :=
    Literal.read_string hs.rest (by rw [hs.next, hs.rest])
  have hbehind : (s.advance (Literal.string key)).Stands
      (CodePoint.ofChar ':' :: (" ".toText ++ (part ++ c :: rest))) :=
    hs.advance ⟨by decide, fun h => absurd h (by decide)⟩
  have hnext' : (s.advance (Literal.string key)).next = .symbol ":".toText :=
    next_of_stands (by decide) hbehind
  obtain ⟨colon, hread, hcolon⟩ := symbol_of_next hnext'
  have hvalue := Scan.Stands.advance_blank (t := ":".toText) hbehind (h.opens.append _).isSolid
  obtain ⟨-, value, e, hpart, he, hsettled', hnode⟩ := h.read _ c rest hc hvalue
  refine ⟨by rw [hnext]; exact .inl rfl, Tree.node .pair [name.as .key, colon, value.as .value], e,
    ?_, he, ?_, name, colon, value, rfl, hquotes.kind, hquotes.value, (isPlain_of_string hstring).1,
    hcolon, hnode⟩
  · have hname : propertyName r s = some (name, s.advance (Literal.string key)) := by
      rw [propertyName, bind_next, hnext]
      exact hstring
    -- A string is none of the words that can stand before the name of a method.
    have hmodifiers : methodModifiers s = some ([], s) := by
      rw [methodModifiers, bind_next, hnext]
      show symbol? "*" s = _
      rw [symbol?, bind_atSymbol, hnext]
      rfl
    rw [objectMember, bind_atSymbol, hnext]
    show (methodModifiers >>= _) s = _
    rw [bind_of_eq hmodifiers]
    show (next >>= _) s = _
    rw [bind_next, bind_of_eq hname, bind_atSymbol, hnext']
    show (atSymbol ":" >>= _) (s.advance (Literal.string key)) = _
    rw [bind_atSymbol, hnext']
    show (symbol ":" >>= _) (s.advance (Literal.string key)) = _
    rw [bind_of_eq hread, bind_of_eq hpart]
    rfl
  · simp [Tree.node, Tree.hasLooseDefault, Tree.haveLooseDefault, Tree.hasLooseDefault_as, hsettled,
      hsettled', hcolon.hasLooseDefault]

/-- The name and the value of a member are evaluated. -/
theorem readsPart_objectMember {key part : Text} {d : Datum}
    (h : ReadsPart r.assignment part fun node => node.Denotes d) :
    ReadsPart (objectMember r) (Literal.string key ++ ": ".toText ++ part) fun node =>
      node.kind = .pair ∧
        Tree.evaluatePair node.children = some ⟨Utf16.encode key, false, d⟩ ∧
        node.isPlain = true := by
  refine (readsPart_pair h).mono ?_
  rintro _ ⟨name, colon, value, rfl, hkind, hname, hplain, hcolon, hdatum⟩
  refine ⟨rfl, ?_, ?_⟩
  · show Tree.evaluatePair [_, _, _] = _
    rw [Tree.evaluatePair, Tree.evaluateName_as, Tree.evaluateName_of_string hkind,
      Tree.units?_of_stringValue hname, Utf16.encode_joinPairs, Tree.evaluate_as, hdatum.value]
    rfl
  · refine Tree.isPlain_node (by decide) (List.forall_mem_cons.mpr ⟨?_, List.forall_mem_cons.mpr
      ⟨hcolon.isPlain (by decide), List.forall_mem_cons.mpr ⟨?_, by simp⟩⟩⟩)
    · rw [Tree.isPlain_as]
      exact hplain
    · rw [Tree.isPlain_as]
      exact hdatum.plain

/-- An object of members. -/
theorem readsPart_object {parts : List Text} {properties : List Datum.Property} {d : Datum}
    (h : List.Forall₂ (fun part p => ReadsPart (objectMember r) part fun node => node.kind = .pair ∧
      Tree.evaluatePair node.children = some p ∧ node.isPlain = true) parts properties)
    (hd : Datum.ofProperties properties = some d) :
    ReadsPart (assignment r) ("\x7b".toText ++ Text.join ", ".toText parts ++ "\x7d".toText)
      fun node => node.Denotes d ∧ node.kind = .object ∧ node.text = [] := by
  have hnamed : ∀ {p : Datum.Property} {node : Tree}, (node.kind = .pair ∧
      Tree.evaluatePair node.children = some p ∧ node.isPlain = true) → node.isNamed = true := by
    rintro p node ⟨hkind, -⟩
    rw [Tree.isNamed, hkind]
    rfl
  refine readsPart_enclosed (by decide) (fun _ => primary_of_brace) h fun hleft hright hlisted =>
    ⟨⟨?_, ?_⟩, rfl, rfl⟩
  · show (if Tree.haveHole _ then none else (Tree.evaluateProperties _).bind Datum.ofProperties) = _
    rw [hlisted.haveHole hnamed hright (by decide), List.cons_append,
      hleft.evaluateProperties, hlisted.evaluateProperties hright]
    exact hd
  · exact Tree.isPlain_enclosed (by decide) hleft hright (hlisted.isPlain fun h => h.2.2)

/-- A part alone in parentheses, if no arrow follows. -/
theorem primary_of_parenthesized {t rest : Text} {P : Tree → Prop}
    (h : ReadsPart r.assignment t P) (hspread : ∀ node, P node → node.kind ≠ .spread)
    (harrow : ∀ e : Scan, e.Stands (CodePoint.ofChar ')' :: rest) →
      ((e.advance ")".toText).next == .symbol "=>".toText) = false)
    {s : Scan} (hs : s.Stands ("(".toText ++ (t ++ CodePoint.ofChar ')' :: rest))) :
    ∃ (left node right : Tree) (e : Scan),
      primary r r.unary s =
        some (Tree.node .parenthesized [left, node, right], e.advance ")".toText) ∧
      e.Stands (CodePoint.ofChar ')' :: rest) ∧
      (Tree.node .parenthesized [left, node, right]).hasLooseDefault = false ∧
      left.IsLeaf .token "(".toText ∧ right.IsLeaf .token ")".toText ∧ P node := by
  have hnext : s.next = .symbol "(".toText := next_of_stands (by decide) hs
  obtain ⟨left, hread, hleft⟩ := symbol_of_next hnext
  have hinside : (s.advance "(".toText).Stands
      (Text.join ", ".toText [t] ++ CodePoint.ofChar ')' :: rest) := by
    rw [Text.join, List.intercalate_singleton]
    exact hs.advance (h.opens.append _).isSolid
  have hparts := List.Forall₂.cons (readsPart_spreadable h) List.Forall₂.nil
  have hlength : [t].length ≤ (s.advance "(".toText).rest.length := by
    rw [hinside.rest, List.length_append]
    exact Nat.le_add_left _ _ |>.trans (Nat.add_le_add_left (Nat.le_add_left 1 _) _)
  have hclose : ")".toText = [CodePoint.ofChar ')'] := rfl
  obtain ⟨row, e, hrow, he, hsettled, hlisted⟩ :=
    commaList_of_parts hclose (by decide) false hparts hlength hinside
  have hnext' : e.next = .symbol ")".toText := next_of_stands (by decide) he
  obtain ⟨right, hread', hright⟩ := symbol_of_next hnext'
  -- The list has one item.
  obtain ⟨node, rfl, hnode⟩ : ∃ node, row = [node] ∧ P node := by
    cases hlisted with
    | single hnode => exact ⟨_, rfl, hnode⟩
  have hkind : (node.kind != .spread) = true := bne_iff_ne.mpr (hspread node hnode)
  refine ⟨left, node, right, e, ?_, he, ?_, hleft, hright, hnode⟩
  · rw [primary, bind_next, hnext]
    show parenthesizedOrArrow r [] s = _
    rw [parenthesizedOrArrow, bind_of_eq hread, bind_budget, bind_of_eq hrow, bind_of_eq hread',
      bind_atSymbol, harrow e he, if_neg (by decide)]
    simp only [hkind]
    rfl
  · simpa [Tree.node, Tree.hasLooseDefault, Tree.haveLooseDefault, hleft.hasLooseDefault,
      hright.hasLooseDefault] using hsettled

/-- A part in parentheses is a part. -/
theorem readsPart_parenthesized {t : Text} {P : Tree → Prop} (h : ReadsPart r.assignment t P)
    (hspread : ∀ node, P node → node.kind ≠ .spread) :
    ReadsPart (assignment r) ("(".toText ++ t ++ ")".toText) fun node =>
      ∃ left inner right, node = Tree.node .parenthesized [left, inner, right] ∧
        left.IsLeaf .token "(".toText ∧ right.IsLeaf .token ")".toText ∧ P inner := by
  rw [List.append_assoc]
  refine readsPart_primary ⟨_, rfl, by decide, by decide⟩ fun s c rest hc hs => ?_
  rw [List.append_assoc, List.append_assoc] at hs
  have hbehind : ∀ {e : Scan}, e.Stands (CodePoint.ofChar ')' :: c :: rest) →
      (e.advance ")".toText).Stands (c :: rest) := fun he =>
    Scan.Stands.advance (t := ")".toText) he (isSolid_of_mem hc rest)
  have harrow : ∀ e : Scan, e.Stands (CodePoint.ofChar ')' :: c :: rest) →
      ((e.advance ")".toText).next == .symbol "=>".toText) = false := by
    intro e he
    have hend := endsExpression_of_stands hc (hbehind he)
    rw [beq_eq_false_iff_ne]
    intro harrow
    rw [harrow] at hend
    exact absurd hend (by decide)
  obtain ⟨left, inner, right, e, hprimary, he, hsettled, hleft, hright, hinner⟩ :=
    primary_of_parenthesized h hspread harrow hs
  have hnext : s.next = .symbol "(".toText := next_of_stands (by decide) hs
  exact ⟨by rw [hnext]; rfl, _, _, hprimary, hbehind he, hsettled, left, inner, right, rfl, hleft,
    hright, hinner⟩

end Parser

end Syntax

end Unproxy
