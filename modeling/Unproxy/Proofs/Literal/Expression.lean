import Mathlib
import Unproxy.Proofs.Literal.Source

/-!
# Unproxy.Proofs.Literal.Expression

The expressions that literals are. What is put in the place of a read is such an expression, in
parentheses or without: no property stands in it, and as an index it gives the name of the value
that it was written for.

Main definitions:

* `Literal.expression?`: the expression that a text is by itself;
* `Value.Fills`: an expression that was written for a value.

Main statements:

* `Value.exists_expression`: the literal of a value is an expression that was written for it.
-/

namespace Unproxy

open Syntax Syntax.Parser

/-- The expression that a text is by itself. It is read in parentheses, so that no part of it can be
taken for a statement. -/
def Literal.expression? (t : Text) : Option Syntax.Tree :=
  match Program.parse ("(".toText ++ t ++ ")".toText) with
  | .ok program =>
    match program.root.children with
    | [statement] => (statement.children.head?).bind fun group => group.children[1]?
    | _ => none
  | .error _ => none

theorem Literal.exists_of_readsPart {t : Text} {P : Syntax.Tree → Prop}
    (hencodable : Utf8.Encodable t) (hspread : ∀ node, P node → node.kind ≠ .spread)
    (h : ∀ n, t.length ≤ n → ReadsPart (rules (n + 1)).assignment t P) :
    ∃ node, Literal.expression? t = some node ∧ P node := by
  obtain ⟨program, left, node, right, hparse, hchildren, hnode⟩ :=
    parse_of_readsPart hencodable hspread h
  refine ⟨node, ?_, hnode⟩
  rw [expression?, hparse]
  dsimp only
  rw [hchildren]
  rfl

/-- The kinds of node that have a value. -/
theorem Syntax.Tree.kind_of_evaluate {node : Syntax.Tree} {d : Datum}
    (h : node.evaluate = some d) :
    node.kind ∈ [.null, .true, .false, .number, .string, .unary, .parenthesized, .array,
      .object] := by
  obtain ⟨kind, role, start, stop, text, children⟩ := node
  rw [evaluate.eq_def] at h
  dsimp only at h ⊢
  split at h <;> first | decide | cases h

namespace Value

/-- An expression that was written for a value, with or without parentheses around it. -/
structure Fills (v : Value) (e : Syntax.Tree) : Prop where
  plain : e.isPlain = true
  kind : e.kind ∉ [.token, .comment, .identifier, .propertyIdentifier]
  text : e.text ≠ "delete".toText
  inner : ∃ u, e.unwrapped = some u ∧ u.isAccess = false ∧ u.kind ≠ .identifier ∧
    u.indexName = .ok v.asIndex?

namespace Fills

variable {v : Value} {e : Syntax.Tree}

theorem isNamed (h : v.Fills e) : e.isNamed = true := by
  rw [Syntax.Tree.isNamed, bne_iff_ne]
  intro hkind
  exact h.kind (by rw [hkind]; decide)

theorem ne_comment (h : v.Fills e) : e.kind ≠ .comment := fun hkind =>
  h.kind (by rw [hkind]; decide)

end Fills

theorem Stands.fills {v : Value} {node : Syntax.Tree} (h : v.Stands node) : v.Fills node where
  plain := h.denotes.plain
  kind hkind := by
    have hkind' := Syntax.Tree.kind_of_evaluate h.denotes.value
    simp only [List.mem_cons, List.not_mem_nil, or_false] at hkind
    rcases hkind with hkind | hkind | hkind | hkind <;>
      · rw [hkind] at hkind'
        exact absurd hkind' (by decide)
  text := h.text
  inner := by
    refine ⟨node, ?_, (Syntax.Tree.isPlain_iff.mp h.denotes.plain).1, fun hkind => ?_, h.index⟩
    · rw [Syntax.Tree.unwrapped_eq, if_neg h.bare]
    · have hkind' := Syntax.Tree.kind_of_evaluate h.denotes.value
      rw [hkind] at hkind'
      exact absurd hkind' (by decide)

theorem Stands.fills_group {v : Value} {left node right : Syntax.Tree} {opening closing : Text}
    (h : v.Stands node) (hleft : left.IsLeaf .token opening)
    (hright : right.IsLeaf .token closing) :
    v.Fills (Syntax.Tree.node .parenthesized [left, node, right]) where
  plain := by
    show (Syntax.Tree.node .parenthesized (left :: [node] ++ [right])).isPlain = true
    exact Syntax.Tree.isPlain_enclosed (by decide) hleft hright (by simpa using h.denotes.plain)
  kind := by
    show Kind.parenthesized ∉ _
    decide
  text := (List.cons_ne_nil _ _).symm
  inner := by
    obtain ⟨u, hu, hinner⟩ := h.fills.inner
    refine ⟨u, ?_, hinner⟩
    obtain ⟨start, rfl⟩ := hleft
    have hnode : (node.isNamed && node.kind != .comment) = true := by
      rw [h.fills.isNamed, Bool.true_and, bne_iff_ne]
      exact h.fills.ne_comment
    rw [Syntax.Tree.node, Syntax.Tree.unwrapped, if_pos rfl, Syntax.Tree.unwrappedFirst,
      if_neg (by simp [Syntax.Tree.isNamed, Syntax.Tree.leaf]), Syntax.Tree.unwrappedFirst,
      if_pos hnode, hu]

/-- The role of an expression does not matter. -/
theorem Fills.inRole {v : Value} {e : Syntax.Tree} (h : v.Fills e) (role : Option Role) :
    v.Fills { e with role := role } where
  plain := by
    have hplain := h.plain
    rw [Syntax.Tree.isPlain_iff] at hplain ⊢
    exact hplain
  kind := h.kind
  text := h.text
  inner := by
    obtain ⟨u, hu, haccess, hvariable, hindex⟩ := h.inner
    rw [Syntax.Tree.unwrapped_eq] at hu
    split at hu
    · rename_i hkind
      refine ⟨u, ?_, haccess, hvariable, hindex⟩
      rw [Syntax.Tree.unwrapped_eq, if_pos hkind]
      exact hu
    · rename_i hkind
      cases hu
      refine ⟨{ e with role := role }, ?_, haccess, hvariable, hindex⟩
      rw [Syntax.Tree.unwrapped_eq, if_neg hkind]

/-- The literal of a value is an expression that was written for it, and it stays one in
parentheses. -/
theorem exists_expression {v : Value} (json : v.IsJson) {t : Text} {strength : Strength}
    (h : v.literal = .ok (some (t, strength))) (grouped : Bool) :
    ∃ e, Literal.expression? (if grouped then "(".toText ++ t ++ ")".toText else t) = some e ∧
      v.Fills e := by
  have hsource := source_of_literal h
  have hencodable := v.encodable_source hsource
  have hspread : ∀ node, v.Stands node → node.kind ≠ .spread := fun node hnode =>
    Syntax.Tree.kind_ne_spread hnode.denotes.value
  cases grouped with
  | false =>
    obtain ⟨e, he, hstands⟩ := Literal.exists_of_readsPart hencodable hspread fun n hn =>
      v.readsPart_source json hsource hn
    exact ⟨e, he, hstands.fills⟩
  | true =>
    have hencodable' : Utf8.Encodable ("(".toText ++ t ++ ")".toText) := by
      rw [Utf8.encodable_append, Utf8.encodable_append]
      exact ⟨⟨Utf8.encodable_of_isAscii (by decide), hencodable⟩,
        Utf8.encodable_of_isAscii (by decide)⟩
    have hspread' : ∀ node, (∃ left inner right,
        node = Syntax.Tree.node .parenthesized [left, inner, right] ∧
          left.IsLeaf .token "(".toText ∧ right.IsLeaf .token ")".toText ∧ v.Stands inner) →
        node.kind ≠ .spread := by
      rintro node ⟨left, inner, right, rfl, -⟩
      exact Kind.noConfusion
    have hlength : ("(".toText ++ t ++ ")".toText).length = t.length + 2 := by
      rw [List.append_assoc, List.length_append, List.length_append, Nat.add_comm]
      rfl
    obtain ⟨e, he, left, inner, right, rfl, hleft, hright, hstands⟩ :=
      Literal.exists_of_readsPart hencodable' hspread' fun n hn => by
        rw [hlength] at hn
        -- The parentheses take room, so what is in them can be read one level further down.
        obtain ⟨n, rfl⟩ : ∃ n', n = n' + 1 := Nat.exists_eq_add_one.mpr (by omega)
        exact readsPart_parenthesized (v.readsPart_source json hsource (by omega)) hspread
    exact ⟨_, he, hstands.fills_group hleft hright⟩

end Value

end Unproxy
