import Mathlib
import Unproxy.Syntax.Program
import Unproxy.Proofs.Syntax.Reading

/-!
# Unproxy.Proofs.Syntax.Operand

Expressions of a single operand. What is read as a primary expression, or as one behind a minus
sign, is read as an expression if the expression ends behind it, and alone as a program.

Main definitions:

* `Token.beginsLiteral`: a token that a literal, a function or a parenthesis begins with;
* `Token.endsExpression`: a token that no expression goes on with.

Main statements:

* `Parser.unary_of_primary`, `Parser.assignment_of_unary`: nothing is read but the operand;
* `Program.tree?_of_expression`: an expression with nothing behind it is a program.
-/

namespace Unproxy.Syntax

namespace Token

/-- A literal or a function begins with the token, or something in parentheses does. -/
def beginsLiteral (t : Token) : Bool :=
  match t with
  | .quote _ | .number _ => true
  | .name _ => t.isWordOf ["null", "true", "false", "function"]
  | .symbol _ => t.isSymbolOf ["(", "[", "\x7b"]
  | _ => false

/-- No expression goes on with the token. -/
def endsExpression (t : Token) : Bool :=
  t == .finish || t.isSymbolOf [")", "]", "\x7d", ",", ";"]

theorem beginsLiteral_cases {t : Token} (h : t.beginsLiteral = true) :
    (∃ c, t = .quote c) ∨ (∃ spelling, t = .number spelling) ∨
      (∃ word ∈ ["null", "true", "false", "function"], t = .name word.toText) ∨
        ∃ mark ∈ ["(", "[", "\x7b"], t = .symbol mark.toText := by
  unfold beginsLiteral at h
  split at h
  · exact .inl ⟨_, rfl⟩
  · exact .inr (.inl ⟨_, rfl⟩)
  · obtain ⟨word, hword, heq⟩ := List.any_eq_true.mp h
    exact .inr (.inr (.inl ⟨word, hword, beq_iff_eq.mp heq⟩))
  · obtain ⟨mark, hmark, heq⟩ := List.any_eq_true.mp h
    exact .inr (.inr (.inr ⟨mark, hmark, beq_iff_eq.mp heq⟩))
  · cases h

/-- A token that a literal begins with is no operator and none of the words that begin another
expression. -/
theorem plain_of_beginsLiteral {t : Token} (h : t.beginsLiteral = true) :
    t.isSymbolOf ["!", "~", "-", "+"] = false ∧ t.isSymbolOf ["++", "--"] = false ∧
      t.isWordOf ["typeof", "void", "delete", "await", "new", "yield"] = false := by
  obtain ⟨c, heq⟩ | ⟨spelling, heq⟩ | ⟨word, hword, heq⟩ | ⟨mark, hmark, heq⟩ :=
    beginsLiteral_cases h
  · rw [heq]
    exact ⟨rfl, rfl, rfl⟩
  · rw [heq]
    exact ⟨rfl, rfl, rfl⟩
  · rw [heq]
    fin_cases hword <;> exact ⟨rfl, rfl, rfl⟩
  · rw [heq]
    fin_cases hmark <;> exact ⟨rfl, rfl, rfl⟩

theorem endsExpression_cases {t : Token} (h : t.endsExpression = true) :
    t = .finish ∨ ∃ mark ∈ [")", "]", "\x7d", ",", ";"], t = .symbol mark.toText := by
  rw [endsExpression, Bool.or_eq_true, beq_iff_eq] at h
  refine h.imp id fun h => ?_
  obtain ⟨mark, hmark, heq⟩ := List.any_eq_true.mp h
  exact ⟨mark, hmark, beq_iff_eq.mp heq⟩

end Token

namespace Parser

section

variable {r : Rules} {s e : Scan} {node : Tree}

theorem bind_second {β : Type} (f : Scan → Parser β) :
    ∃ behind, (second >>= f) s = f behind s := by
  have hsecond : ∃ behind, second s = some (behind, s) := by
    unfold second
    split <;> exact ⟨_, rfl⟩
  obtain ⟨behind, hbehind⟩ := hsecond
  exact ⟨behind, bind_of_eq hbehind f⟩

/-- Nothing is read behind an operand where the expression ends. -/
theorem memberTail_of_ends (hend : e.next.endsExpression = true) (n : Nat) :
    memberTail r true (n + 1) node e = some (node, e) := by
  rw [memberTail, bind_next]
  obtain heq | ⟨mark, hmark, heq⟩ := Token.endsExpression_cases hend
  · rw [heq]
    rfl
  · rw [heq]
    fin_cases hmark <;> rfl

/-- A primary expression is an operand. -/
theorem unary_of_primary (hbegin : s.next.beginsLiteral = true)
    (hprimary : primary r r.unary s = some (node, e)) (hend : e.next.endsExpression = true) :
    unary r s = some (node, e) := by
  obtain ⟨hsign, hupdate, hword⟩ := Token.plain_of_beginsLiteral hbegin
  simp only [Token.isWordOf, List.any_cons, List.any_nil, Bool.or_eq_false_iff] at hword
  obtain ⟨htypeof, hvoid, hdelete, hawait, hnew, -, -⟩ := hword
  have hnew : (s.next == .name "new".toText) = false := hnew
  have hoperand : leftHandSide r s = some (node, e) := by
    simp [leftHandSide, hnew, bind_of_eq hprimary, memberTail_of_ends hend]
  have hbehind : e.next.isSymbolOf ["++", "--"] = false := by
    obtain heq | ⟨mark, hmark, heq⟩ := Token.endsExpression_cases hend
    · rw [heq]
      rfl
    · rw [heq]
      fin_cases hmark <;> rfl
  obtain ⟨behind, hsecond⟩ := @bind_second s Tree _
  simp only [unary, bind_next, hsign, hupdate, hawait, Token.isWordOf, List.any_cons, List.any_nil,
    htypeof, hvoid, hdelete, Bool.or_false, Bool.false_and, Bool.false_eq_true, if_false]
  rw [hsecond]
  rw [bind_of_eq hoperand, bind_next, bind_gap, hbehind]
  rfl

/-- A minus sign before an operand. -/
theorem unary_of_minus (hnext : s.next = .symbol "-".toText)
    (hoperand : r.unary (s.advance "-".toText) = some (node, e)) :
    unary r s = some (Tree.node .unary
      [(Tree.leaf .token s.offset (s.offset + Scan.byteLength "-".toText) "-".toText).as .operator,
        node.as .argument], e) := by
  have hsign : ((Token.symbol "-".toText).isSymbolOf ["!", "~", "-", "+"] ||
      (Token.symbol "-".toText).isWordOf ["typeof", "void", "delete"]) = true := by decide
  have htake : take .token "-".toText s = some (Tree.leaf .token s.offset
      (s.offset + Scan.byteLength "-".toText) "-".toText, s.advance "-".toText) := rfl
  rw [unary, bind_next, hnext, if_pos hsign]
  show (take .token "-".toText >>= _) s = _
  rw [bind_of_eq htake, bind_of_eq hoperand]
  rfl

/-- No operator stands behind an operand where the expression ends, so it is the expression. -/
theorem assignment_of_unary
    (hbegin : s.next.beginsLiteral = true ∨ s.next = .symbol "-".toText)
    (hunary : unary r s = some (node, e)) (hend : e.next.endsExpression = true) :
    assignment r s = some (node, e) := by
  have hword : (s.next == .name "yield".toText) = false ∧ ∀ w, s.next ≠ .privateName w := by
    rcases hbegin with hbegin | hminus
    · have hplain := (Token.plain_of_beginsLiteral hbegin).2.2
      simp only [Token.isWordOf, List.any_cons, List.any_nil, Bool.or_eq_false_iff] at hplain
      refine ⟨hplain.2.2.2.2.2.1, fun w hprivate => ?_⟩
      rw [hprivate] at hbegin
      cases hbegin
    · rw [hminus]
      exact ⟨rfl, fun w h => by cases h⟩
  have hoperator : binaryOperator? e.next = none ∧ (e.next == .symbol "?".toText) = false := by
    obtain heq | ⟨mark, hmark, heq⟩ := Token.endsExpression_cases hend
    · rw [heq]
      exact ⟨rfl, rfl⟩
    · rw [heq]
      fin_cases hmark <;> exact ⟨rfl, rfl⟩
  have htail : ∀ n, binaryTail r 0 (n + 1) node e = some (node, e) := by
    intro n
    rw [binaryTail, bind_next, hoperator.1]
    rfl
  have hbinary : binary r 0 s = some (node, e) := by
    have hrest : (do binaryTail r 0 (← budget) (← unary r) : Parser Tree) s = some (node, e) := by
      rw [bind_budget, bind_of_eq hunary]
      exact htail _
    rw [binary, bind_next]
    cases hnext : s.next with
    | privateName w => exact absurd hnext (hword.2 w)
    | _ => exact hrest
  have hconditional : conditional r s = some (node, e) := by
    rw [conditional, bind_of_eq hbinary, bind_atSymbol, hoperator.2]
    rfl
  rw [assignment, bind_atWord, hword.1]
  show (conditional r >>= _) s = _
  rw [bind_of_eq hconditional, bind_next]
  obtain heq | ⟨mark, hmark, heq⟩ := Token.endsExpression_cases hend
  · rw [heq]
    rfl
  · rw [heq]
    fin_cases hmark <;> rfl

end

/-- An expression is read alone, unless a comma follows. -/
theorem expressions_of_assignment {r : Rules} {s e : Scan} {node : Tree}
    (h : r.assignment s = some (node, e)) (hcomma : (e.next == .symbol ",".toText) = false) :
    expressions r s = some (node, e) := by
  have hlist : ∀ n, commaSeparated r.assignment (n + 1) s = some ([node], e) := by
    intro n
    rw [commaSeparated, bind_of_eq h, bind_atSymbol, hcomma]
    rfl
  rw [expressions, bind_budget, bind_of_eq (hlist _)]
  rfl

/-- An expression with nothing behind it is a statement, unless it begins with a word or a brace. -/
theorem statement_of_expression {r : Rules} {s e : Scan} {node : Tree}
    (hbegin : (∃ c, s.next = .quote c) ∨ s.next = .symbol "(".toText)
    (hexpression : r.assignment s = some (node, e)) (hend : e.next = .finish) :
    statement r s = some (Tree.node .expressionStatement [node], e) := by
  have hexpressions := expressions_of_assignment hexpression (by rw [hend]; rfl)
  have hterminator : terminator false e = some ([], e) := by
    rw [terminator, bind_atEnd, Scan.endsByBreak, hend]
    show symbol? ";" e = _
    rw [symbol?, bind_atSymbol, hend]
    rfl
  have hstatement : expressionStatement r s = some (Tree.node .expressionStatement [node], e) := by
    rw [expressionStatement, bind_of_eq hexpressions, bind_of_eq hterminator]
    rfl
  rw [statement, bind_next]
  rcases hbegin with ⟨c, hquote⟩ | hparenthesis
  · rw [hquote]
    exact hstatement
  · rw [hparenthesis]
    exact hstatement

end Parser

namespace Program

/-- A text that is read as one expression is a program of one statement. -/
theorem tree?_of_expression {source : Text} {s e : Scan} {node : Tree} (hsource : source ≠ [])
    (hopening : opening source = ([], s))
    (hbegin : (∃ c, s.next = .quote c) ∨ s.next = .symbol "(".toText)
    (hexpression : (rules (4 * source.length + 15)).assignment s = some (node, e))
    (hend : e.next = .finish) (hcomments : e.comments = [])
    (hsettled : node.hasLooseDefault = false) :
    tree? source = some ⟨.program, none, 0, Scan.byteLength source, [],
      [Tree.node .expressionStatement [node]]⟩ := by
  have hmore : (do return (← Parser.next) != .finish : Parser Bool) s = some (true, s) := by
    show some (s.next != .finish, s) = _
    rcases hbegin with ⟨c, hquote⟩ | hparenthesis
    · rw [hquote]
      rfl
    · rw [hparenthesis]
      rfl
  have hdone : (do return (← Parser.next) != .finish : Parser Bool) e = some (false, e) := by
    show some (e.next != .finish, e) = _
    rw [hend]
    rfl
  have hstatement : (rules (4 * source.length + 16)).statement s =
      some (Tree.node .expressionStatement [node], e) :=
    Parser.statement_of_expression hbegin hexpression hend
  have hstatements : (statements source).run s =
      some ([Tree.node .expressionStatement [node]], e) := by
    obtain ⟨n, hn⟩ := Nat.exists_eq_add_one.mpr (List.length_pos_of_ne_nil hsource)
    -- One turn reads the statement, the next one finds the end.
    show statements source s = _
    rw [statements, depthBound, hn, Parser.many, Parser.bind_of_eq hmore, if_pos rfl]
    rw [hn] at hstatement
    rw [Parser.bind_of_eq hstatement, Parser.many, bind_assoc, Parser.bind_of_eq hdone]
    rfl
  have hfound : Tree.haveLooseDefault [Tree.node .expressionStatement [node]] = false := by
    simp [Tree.haveLooseDefault, Tree.hasLooseDefault, Tree.node, hsettled]
  simp only [tree?, hopening, hstatements, hfound, hcomments]
  rfl

end Program

end Unproxy.Syntax
