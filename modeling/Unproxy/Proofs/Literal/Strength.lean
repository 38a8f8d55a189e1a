import Mathlib
import Unproxy.Proofs.Literal.Source

/-!
# Unproxy.Proofs.Literal.Strength

How tightly a literal holds together is found from the value. It is the same as what is found from the
expression that the literal is read as, and it shows in the literal's first code point.

Main definitions:

* `Value.literalKind`: the kind of expression that the literal of a value is.

Main statements:

* `Value.readsKind_source`: the literal of a value is read as an expression of that kind;
* `Value.strength_of_literal`: the strength of a value is that of the expression.
-/

namespace Unproxy

open Syntax Syntax.Parser

namespace Value

/-- The kind of expression that the literal of a value is. -/
def literalKind : Value → Kind
  | .null => .null
  | .bool b => if b then .true else .false
  | .number n => if n.isBelowZero then .unary else .number
  | .text _ => .string
  | .array _ => .array
  | .object _ => .object
  | .other _ => .undefined

theorem kind_of_isLeaf {node : Syntax.Tree} {kind : Kind} {lexeme : Text}
    (h : node.IsLeaf kind lexeme) : node.kind = kind := by
  obtain ⟨start, rfl⟩ := h
  rfl

/-- A literal with a minus sign is an operation, and one without is a numeral. -/
theorem readsPart_numberKind {n : Number} {t : Text} (ht : n.source = .ok (some t)) {d : Nat}
    (hd : t.length ≤ d) :
    ReadsPart (rules (d + 1)).assignment t fun node => node.kind = (Value.number n).literalKind := by
  rcases Number.spelling_of_source ht with ⟨hunsigned, hs⟩ | ⟨hsign, hunsigned, digits, hs, rfl⟩
  · refine (readsPart_numeral (hunsigned.numeral hs)).mono fun node hnode => ?_
    obtain ⟨start, rfl⟩ := hnode
    rw [literalKind, hunsigned.isBelowZero]
    rfl
  · obtain ⟨d, rfl⟩ : ∃ d', d = d' + 1 := Nat.exists_eq_add_one.mpr (by simp at hd; omega)
    refine (readsPart_negative rfl (hunsigned.numeral hs)).mono ?_
    rintro node ⟨operator, operand, rfl, -⟩
    rw [literalKind, hsign]
    rfl

/-- The literal of a value is read as one expression of the value's kind, whatever is in it. -/
def ReadsKind (v : Value) (t : Text) : Prop := ∀ {d : Nat}, t.length ≤ d →
  ReadsPart (rules (d + 1)).assignment t fun node => node.kind = v.literalKind

theorem readsKind_array {items : List Value} {parts : List Text}
    (h : List.Forall₂ (fun part item => ReadsKind item part) parts items) :
    ReadsKind (.array items) ("[".toText ++ Text.join ", ".toText parts ++ "]".toText) := by
  intro d hd
  obtain ⟨d, rfl, hparts⟩ := Text.exists_depth (by decide) hd
  have hitems : List.Forall₂ (fun part item => ReadsPart (spreadable (rules (d + 1))) part
      fun node => node.kind = literalKind item) parts items := by
    clear hd
    induction h with
    | nil => exact .nil
    | cons hpart _ ih =>
      rw [List.forall_mem_cons] at hparts
      exact .cons (readsPart_spreadable (hpart hparts.1)) (ih hparts.2)
  exact readsPart_enclosed (by decide) (fun _ => primary_of_bracket) hitems fun _ _ _ => rfl

theorem readsKind_object {members : List (Key × Value)} {parts : List Text}
    (h : List.Forall₂ (fun part member => ∃ t,
      part = Literal.string member.1.toText ++ ": ".toText ++ t ∧ ReadsKind member.2 t)
      parts members) :
    ReadsKind (.object members) ("\x7b".toText ++ Text.join ", ".toText parts ++ "\x7d".toText) := by
  intro d hd
  obtain ⟨d, rfl, hparts⟩ := Text.exists_depth (by decide) hd
  have hmembers : List.Forall₂ (fun part _ => ReadsPart (objectMember (rules (d + 1))) part
      fun node => node.kind = .pair) parts members := by
    clear hd
    induction h with
    | nil => exact .nil
    | cons hpart _ ih =>
      obtain ⟨t, rfl, ht⟩ := hpart
      rw [List.forall_mem_cons, List.length_append] at hparts
      refine .cons ((readsPart_pair (ht (d := d) (by omega))).mono ?_) (ih hparts.2)
      rintro _ ⟨name, colon, node, rfl, -⟩
      rfl
  exact readsPart_enclosed (by decide) (fun _ => primary_of_brace) hmembers fun _ _ _ => rfl

theorem readsKind_source (v : Value) {t : Text} (h : v.source = .ok (some t)) : v.ReadsKind t := by
  intro d hd
  have step : SourceStep ReadsKind :=
    { null := fun _ => (readsPart_word (.inl ⟨rfl, rfl⟩)).mono fun node hnode => kind_of_isLeaf hnode
      bool := fun b d _ => by
        cases b with
        | true => exact (readsPart_word (.inr (.inl ⟨rfl, rfl⟩))).mono fun _ => kind_of_isLeaf
        | false => exact (readsPart_word (.inr (.inr ⟨rfl, rfl⟩))).mono fun _ => kind_of_isLeaf
      text := fun t _ _ => (readsPart_string t).mono fun node hnode => hnode.1
      number := fun h _ hd => readsPart_numberKind h hd
      array := readsKind_array
      object := readsKind_object }
  exact step.source v h hd

/-- What the first code point of a literal says about it. -/
theorem head_of_source {v : Value} {t : Text} (h : v.source = .ok (some t)) :
    ∃ c rest, t = c :: rest ∧ (c = CodePoint.ofChar '-' ↔ v.literalKind = .unary) ∧
      (c.isDigit = true ↔ v.literalKind = .number) := by
  -- Only numbers begin with a sign or a digit.
  have hother : ∀ {c : CodePoint} {rest : Text}, t = c :: rest →
      c ≠ CodePoint.ofChar '-' ∧ c.isDigit = false →
      v.literalKind ≠ .unary ∧ v.literalKind ≠ .number →
      ∃ c rest, t = c :: rest ∧ (c = CodePoint.ofChar '-' ↔ v.literalKind = .unary) ∧
        (c.isDigit = true ↔ v.literalKind = .number) := fun ht hc hkind =>
    ⟨_, _, ht, iff_of_false hc.1 hkind.1, iff_of_false (by simp [hc.2]) hkind.2⟩
  cases v with
  | null =>
    cases h
    exact hother rfl (by decide) (by decide)
  | bool b =>
    cases b <;> cases h <;> exact hother rfl (by decide) (by decide)
  | text t =>
    cases h
    exact hother (Literal.string_eq t) (by decide) ⟨Kind.noConfusion, Kind.noConfusion⟩
  | number n =>
    rcases Number.spelling_of_source h with ⟨hunsigned, hs⟩ | ⟨hsign, -, digits, -, rfl⟩
    · obtain ⟨c, rest, rfl, hc⟩ := (hunsigned.numeral hs).head
      have hminus : c ≠ CodePoint.ofChar '-' := by
        rintro rfl
        cases hc
      rw [literalKind, hunsigned.isBelowZero]
      exact ⟨c, rest, rfl, iff_of_false hminus (by decide), iff_of_true hc rfl⟩
    · rw [literalKind, hsign]
      exact ⟨_, digits, rfl, iff_of_true rfl rfl, iff_of_false (by decide) (by decide)⟩
  | array parts | object parts =>
    rw [source] at h
    split at h <;> cases h
    exact hother rfl (by decide) ⟨Kind.noConfusion, Kind.noConfusion⟩
  | other typeName => cases h

/-- The strength that goes with the literal of a value is that of the expression in the parentheses
when the literal is read in parentheses. The literal is compound just if it is an object or begins with
a minus sign, and a number just if it begins with a digit; otherwise it is one of the words, a string
or an array. -/
theorem strength_of_literal {v : Value} {t : Text} {strength : Strength}
    (h : v.literal = .ok (some (t, strength))) :
    ∃ program left e right, Program.parse ("(".toText ++ t ++ ")".toText) = .ok program ∧
      program.root.children =
        [Syntax.Tree.node .expressionStatement
          [Syntax.Tree.node .parenthesized [left, e, right]]] ∧
      e.strength = strength ∧
      (strength = .compound ↔ e.kind = .object ∨ t.head? = some (CodePoint.ofChar '-')) ∧
      (strength = .number ↔ ∃ c ∈ t.head?, c.isDigit = true) ∧
      (strength = .primary ↔ e.kind ∈ [.null, .true, .false, .string, .array]) := by
  have hsource := source_of_literal h
  rw [literal, hsource] at h
  cases h
  have hspread : ∀ e : Syntax.Tree, e.kind = v.literalKind → e.kind ≠ .spread := by
    intro e he
    rw [he]
    cases v <;> simp only [literalKind] <;> first | decide | (split <;> decide)
  obtain ⟨program, left, e, right, hparse, hchildren, hkind⟩ :=
    Literal.parse_of_readsPart (v.encodable_source hsource) hspread fun _ hn =>
      v.readsKind_source hsource hn
  obtain ⟨c, rest, rfl, hminus, hdigit⟩ := head_of_source hsource
  refine ⟨program, left, e, right, hparse, hchildren, ?_⟩
  simp only [List.head?_cons, Option.some.injEq, Option.mem_def, exists_eq_left', hminus, hdigit,
    Syntax.Tree.strength, hkind]
  cases v with
  | bool b => cases b <;> decide
  | number n =>
    simp only [literalKind, Value.strength]
    cases n.isBelowZero <;> decide
  | other typeName => cases hsource
  | _ => simp [literalKind, Value.strength]

/-- Negative zero and a large negative number in an object, a key that is a number, and an array. -/
theorem strength_of_literal_sample :
    let v : Value := .object [(.number (.int 1), .number (.float (.finite true 0 0))),
      (.text "a".toText, .array [.number (.int (-(10 ^ 21))), .bool true, .null])]
    let t := "\x7b\"1\": -0, \"a\": [-1e+21, true, null]\x7d".toText
    v.literal = .ok (some (t, .compound)) ∧
      ∃ program left e right, Program.parse ("(".toText ++ t ++ ")".toText) = .ok program ∧
        program.root.children =
          [Syntax.Tree.node .expressionStatement
            [Syntax.Tree.node .parenthesized [left, e, right]]] ∧
        e.strength = .compound := by
  intro v t
  have hliteral : v.literal = .ok (some (t, .compound)) := by decide +kernel
  obtain ⟨program, left, e, right, hparse, hchildren, hstrength, -⟩ := strength_of_literal hliteral
  exact ⟨hliteral, program, left, e, right, hparse, hchildren, hstrength⟩

end Value

end Unproxy
