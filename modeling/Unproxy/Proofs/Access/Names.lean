import Mathlib
import Unproxy.Proofs.Access.Shape
import Unproxy.Proofs.Literal.Escapes
import Unproxy.Proofs.Number.Printing

/-!
# Unproxy.Proofs.Access.Names

The names that literals give as indices, compared with those of the language: a string names its
units, and a number what is printed for the double nearest to it.

Main statements:

* `Tree.spells_iff_of_cooked`: string literals, as long as no escape takes more than its own;
* `Tree.spells_iff_printed`: numbers, as long as they are not misprinted.
-/

namespace Unproxy.Syntax

open Literal

/-- A string literal without an escape that goes too far is read as a node with one name, the text
that the units of the literal stand for. -/
theorem Tree.spells_iff_of_cooked {quote : CodePoint}
    (hquote : quote = doubleQuote ∨ quote = singleQuote) {t : Text} {units : List Nat}
    (cooked : Cooked quote t units) (fair : overreaches t = false) {s : Scan} {r : Text}
    (hs : s.rest = inQuotes quote t ++ r) (hnext : s.next = .quote quote) :
    ∃ node, Parser.string s = some (node, s.advance (inQuotes quote t)) ∧
      ∀ name, node.Spells name ↔ Utf16.Joined name ∧ Utf16.encode name = units := by
  obtain ⟨v, hquoted, hagrees⟩ := quoted_of_cooked hquote cooked
  rw [Agrees, fair, if_neg Bool.false_ne_true] at hagrees
  rw [inQuotes, List.cons_append, List.append_assoc] at hs
  obtain ⟨node, hread, -, hquotes⟩ :=
    Parser.string_of_quoted (not_of_quote hquote).2.2 hquoted hs hnext
  refine ⟨node, hread, fun name => ⟨fun hspells => ?_, ?_⟩⟩
  · cases hspells with
    | string _ value =>
      obtain rfl := Except.ok.inj (hquotes.value.symm.trans value)
      exact ⟨Utf16.joined_decode fun _ => Utf16.encode_lt, (Utf16.encode_joinPairs v).trans hagrees⟩
    | number kind =>
      rw [hquotes.kind] at kind
      cases kind
  · rintro ⟨joined, rfl⟩
    refine .string hquotes.kind (hquotes.value.trans (congrArg Except.ok ?_))
    rw [Utf16.joinPairs, hagrees, Utf16.decode_encode joined]

/-- A number that is not misprinted names what the language prints for it, and nothing else. -/
theorem Tree.spells_iff_printed {t : Tree} {n : Number} (kind : t.kind = .number)
    (value : Number.ofSpelling t.text = .ok (some n)) (printable : n.Printable)
    (right : ¬n.Misprinted) (name : Text) : t.Spells name ↔ n.double.Printed name := by
  obtain ⟨spelled, printed, hspelling, hprinted, hiff, -⟩ := printable.exists_printed
  obtain rfl := hiff.mpr right
  constructor
  · intro hspells
    cases hspells with
    | string kind' =>
      rw [kind] at kind'
      cases kind'
    | number _ value' spelling =>
      cases value.symm.trans value'
      obtain rfl := Except.ok.inj (hspelling.symm.trans spelling)
      exact hprinted
  · intro h
    rw [h.unique hprinted]
    exact .number kind value hspelling

end Unproxy.Syntax
