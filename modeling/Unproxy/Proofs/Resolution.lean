import Mathlib
import Unproxy.Resolution
import Unproxy.Proofs.Access.Nesting
import Unproxy.Proofs.Literal
import Unproxy.Proofs.Syntax.Program
import Unproxy.Proofs.Syntax.Replacement

/-!
# Unproxy.Proofs.Resolution

Resolution replaces exactly the reads of table entries and keeps every other byte.

Main definitions:

* `Resolution.replacement?`: what a node is replaced by, said without a scan.

Main statements:

* `Resolution.edits_eq`: a scan that succeeds gives the replacements of all nodes;
* `Resolution.edited_of_edits`: the text after it is the source with all of them put in
  place at once.
-/

namespace Unproxy.Resolution

open Syntax

/-- The entry that a field of a table selects, if the table is there and not null and
has the field. -/
def lookup? (tables : Table.Decoded) (table field : Text) : Option Value :=
  match tables.get? table with
  | none | some .null => none
  | some value =>
    match value.field field with
    | .ok entry => entry
    | .error _ => none

/-- What a node is replaced by: the literal of the table entry it reads, in parentheses
where its place asks for them. -/
def replacement? (scheme : Scheme) (tables : Table.Decoded) (c : Cursor) : Option Edit :=
  match c.node.proxyAccess scheme, c.isWritten with
  | .ok (some (table, field)), false =>
    match (lookup? tables table field).map Value.literal with
    | some (.ok (some (text, strength))) =>
      some ⟨c.node.start, c.node.stop,
        if c.needsParentheses strength then "(".toText ++ text ++ ")".toText else text⟩
    | _ => none
  | _, _ => none

section

variable {scheme : Scheme} {tables : Table.Decoded} {c : Cursor}

theorem lookup?_of_selected {table field : Text} {entry : Option Value}
    (h : selected tables table field = .ok entry) : lookup? tables table field = entry := by
  unfold selected at h
  unfold lookup?
  split at h
  · cases h
    simp_all
  · cases h
    simp_all
  · simp_all

/-- A visit that succeeds gives the replacement of its node. -/
theorem eq_replacement?_of_visit {r : Option (List Edit)} {tally tally' : Tally}
    (h : (visit scheme tables c).tallied tally = (.ok r, tally')) :
    r = (replacement? scheme tables c).map fun edit => [edit] := by
  unfold visit at h
  obtain ⟨access, _, haccess, h⟩ := Counting.exists_of_tallied_bind h
  have haccess := Counting.eq_ok_of_tallied_ofExcept haccess
  unfold replacement?
  rw [haccess]
  cases access with
  | none => cases h; rfl
  | some access =>
    obtain ⟨table, field⟩ := access
    dsimp only at h
    cases hwritten : c.isWritten with
    | true =>
      rw [hwritten] at h
      cases h
      rfl
    | false =>
      rw [hwritten] at h
      obtain ⟨entry, _, hentry, h⟩ := Counting.exists_of_tallied_bind h
      dsimp only
      rw [lookup?_of_selected (Counting.eq_ok_of_tallied_ofExcept hentry)]
      cases entry with
      | none => cases h; rfl
      | some entry =>
        obtain ⟨literal, _, hliteral, h⟩ := Counting.exists_of_tallied_bind h
        rw [Option.map_some, Counting.eq_ok_of_tallied_ofExcept hliteral]
        cases literal with
        | none => cases h; rfl
        | some literal => cases h; rfl

/-- The parts of a replacement. -/
theorem exists_of_replacement? {edit : Edit} (h : replacement? scheme tables c = some edit) :
    (∃ table field, c.node.proxyAccess scheme = .ok (some (table, field))) ∧
      edit.start = c.node.start ∧ edit.stop = c.node.stop ∧ Utf8.Encodable edit.replacement := by
  unfold replacement? at h
  split at h
  · rename_i table field haccess _
    split at h
    · rename_i text strength hliteral
      obtain ⟨entry, -, hliteral⟩ := Option.map_eq_some_iff.mp hliteral
      cases h
      exact ⟨⟨table, field, haccess⟩, rfl, rfl,
        Cursor.encodable_replaceBy (Value.encodable_literal hliteral) strength⟩
    · cases h
  · cases h

/-- A node is replaced where it reads a table entry that has a literal. -/
theorem exists_replacement?_iff :
    (∃ edit, replacement? scheme tables c = some edit) ↔
      c.isWritten = false ∧ ∃ table field value literal,
        c.node.proxyAccess scheme = .ok (some (table, field)) ∧
          lookup? tables table field = some value ∧ value.literal = .ok (some literal) := by
  unfold replacement?
  constructor
  · rintro ⟨edit, h⟩
    split at h
    · rename_i table field haccess hwritten
      split at h
      · rename_i text strength hliteral
        obtain ⟨value, hvalue, hliteral⟩ := Option.map_eq_some_iff.mp hliteral
        exact ⟨hwritten, table, field, value, (text, strength), haccess, hvalue, hliteral⟩
      · cases h
    · cases h
  · rintro ⟨hwritten, table, field, value, ⟨text, strength⟩, haccess, hvalue, hliteral⟩
    simp only [haccess, hwritten, hvalue, Option.map_some, hliteral]
    exact ⟨_, rfl⟩

/-- Replacements of nodes do not lie in one another. -/
theorem replaces_replacement? (hshaped : c.node.isShaped = true) :
    c.Replaces (replacement? scheme tables) where
  range d hd edit hedit := by
    obtain ⟨⟨table, field, haccess⟩, hstart, hstop, -⟩ := exists_of_replacement? hedit
    have hdshaped := Cursor.isShaped_of_mem_walk hshaped hd
    have hlt := Tree.start_lt_stop hdshaped (Tree.exists_of_proxyAccess haccess).1
    exact ⟨hstart, hstop, by rwa [hstart, hstop]⟩
  encodable d _ edit hedit := (exists_of_replacement? hedit).2.2.2
  apart d hd edit hedit e he x hx := by
    obtain ⟨⟨table, field, haccess⟩, -⟩ := exists_of_replacement? hedit
    have hnone : x.node.proxyAccess scheme = .ok none :=
      Tree.proxyAccess_below (Cursor.isShaped_of_mem_walk hshaped hd)
        (Cursor.node_mem_namedChildren he) (Cursor.node_mem_preorder hx) haccess
    rw [replacement?, hnone]

end

/-- A scan that succeeds gives the replacements of all nodes, in source order. -/
theorem edits_eq {scheme : Scheme} {tables : Table.Decoded} {root : Tree} {found : List Edit}
    (hshaped : root.isShaped = true) (h : (edits scheme tables root).1 = .ok found) :
    found = (Cursor.ofRoot root).walk.filterMap (replacement? scheme tables) := by
  have hreplaces : (Cursor.ofRoot root).Replaces (replacement? scheme tables) :=
    replaces_replacement? hshaped
  rw [← hreplaces.gathered_eq]
  exact Cursor.eq_of_tallied_collect (fun d _ r tally tally' => eq_replacement?_of_visit)
    (Prod.ext h rfl)

/-- Resolution replaces exactly the reads of table entries: each by its literal, with
parentheses where they are needed. Every other byte of the source stays. The program may
be any that was read, by `Program.wellFormed_of_parse`. -/
theorem edited_of_edits {p : Program} (wellFormed : p.WellFormed) {scheme : Scheme}
    {tables : Table.Decoded} {found : List Edit}
    (scanned : (edits scheme tables p.root).1 = .ok found) :
    found = (Cursor.ofRoot p.root).walk.filterMap (replacement? scheme tables) ∧
      Edit.Placed 0 p.bytes.length found ∧
      ∃ text, p.edited found = .ok text ∧ Utf8.encode text = Edit.patch 0 p.bytes found := by
  have hfound := edits_eq wellFormed.shaped scanned
  refine ⟨hfound, ?_⟩
  rw [hfound]
  exact wellFormed.exists_edited (replaces_replacement? wellFormed.shaped)

/-- The theorem at a program with a comment beyond ASCII, a write, a read that needs
parentheses and one that needs none. -/
theorem edited_of_edits_sample :
    let source := "/* é */ a.H.z.f = (a.H).z['f'].x + f(a.H.z.g);".toText
    let tables : Table.Decoded :=
      [("z".toText, .object [(.text "f".toText, .number (.int 5)),
        (.text "g".toText, .object [(.text "k".toText, .bool true)])])]
    let found : List Edit :=
      [⟨19, 31, "(5)".toText⟩, ⟨38, 45, "\x7b\"k\": true\x7d".toText⟩]
    ∃ p, Program.parse source = .ok p ∧ (edits Scheme.standard tables p.root).1 = .ok found ∧
      Edit.Placed 0 p.bytes.length found ∧
      ∃ text, p.edited found = .ok text ∧ Utf8.encode text = Edit.patch 0 p.bytes found := by
  intro source tables found
  obtain ⟨p, hparse, hscanned⟩ : ∃ p, Program.parse source = .ok p ∧
      (edits Scheme.standard tables p.root).1 = .ok found := by decide +kernel
  exact ⟨p, hparse, hscanned,
    (edited_of_edits (Program.wellFormed_of_parse hparse) hscanned).2⟩

end Unproxy.Resolution
