import Mathlib
import Unproxy.Proofs.Literal.Tokens
import Unproxy.Proofs.Resolution
import Unproxy.Proofs.Syntax.Revision

/-!
# Unproxy.Proofs.Resolution.Tokens

Resolution exchanges the tokens of the nodes it replaces for those of their literals, and says
exactly when: where nothing runs together with a literal.

Main statements:

* `Resolution.isLiteral_replacement?`: what a node is replaced by is a literal;
* `Resolution.tokens_of_edits`: the tokens of the text after resolution.
-/

namespace Unproxy

open Syntax

/-- A literal has tokens of its own. -/
theorem IsLiteral.exists_tokens {t : Text} (h : IsLiteral t) :
    ∃ pieces last, Piece.Stand pieces last ∧ t = Piece.spelled pieces ++ last.text ∧
      Program.Tokens t (pieces ++ [last]) := by
  obtain ⟨pieces, last, rfl, hgap, hstand, hlast⟩ := h
  refine ⟨pieces, last, hstand, rfl, ?_⟩
  have hplain : ¬"#!".toText <+: Piece.spelled pieces ++ last.text := by
    intro hbegins
    obtain ⟨c, hc, -, hplain⟩ := hstand.opens
    obtain ⟨t, ht⟩ := List.head?_eq_some_iff.mp hc
    rw [ht] at hbegins
    obtain ⟨rfl, -⟩ := List.cons_prefix_cons.mp hbegins
    exact absurd (by decide) hplain
  have hopening : (Program.opening (Piece.spelled pieces ++ last.text)).2.rest =
      Piece.spelled pieces ++ (last.text ++ []) := by
    rw [Program.opening_of_not_hashBang hplain, List.append_nil]
    exact Scan.betweenFrom_of_isSolid hstand.opens.isSolid
  obtain ⟨finish, hlexed, -, hfinish⟩ :=
    hstand.lexed hgap hopening (hlast [] fun c hc => by cases hc) (.inl rfl)
  exact ⟨finish, hlexed, hfinish rfl⟩

namespace Resolution

section

variable {scheme : Scheme} {tables : Table.Decoded} {c : Cursor} {edit : Edit}

/-- What a node is replaced by is a literal, with its parentheses if it has any. -/
theorem isLiteral_replacement? (h : replacement? scheme tables c = some edit) :
    IsLiteral edit.replacement := by
  unfold replacement? at h
  split at h
  · split at h
    · rename_i text strength hliteral
      obtain ⟨entry, -, hliteral⟩ := Option.map_eq_some_iff.mp hliteral
      have htext := Value.isLiteral_literal hliteral
      cases h
      dsimp only
      split
      · obtain ⟨hopens, pieces, hrow⟩ := htext.isPart
        exact isLiteral_bracketed (by decide) (by decide) hrow (.inr hopens)
      · exact htext
    · cases h
  · cases h

/-- A node that is replaced is cut out of the tokens of the source. -/
theorem cut_of_replacement? {root : Tree} {offset : Nat} {pieces : List Piece}
    (hroot : root.Forall (Tree.AtProperty (Piece.Cut offset pieces)))
    (hc : c ∈ (Cursor.ofRoot root).walk) (h : replacement? scheme tables c = some edit) :
    Piece.Cut offset pieces edit.start edit.stop := by
  obtain ⟨⟨table, field, haccess⟩, hstart, hstop, -⟩ := exists_of_replacement? h
  have hkind : c.node.kind = .member ∨ c.node.kind = .subscript := by
    simpa [Tree.isAccess] using (Tree.exists_of_proxyAccess haccess).1
  have hnode : Tree.AtProperty (Piece.Cut offset pieces) c.node :=
    hroot.of_mem_preorder (Cursor.node_mem_preorder hc)
  rw [hstart, hstop]
  exact hnode hkind

end

/-- Resolution takes out the tokens of each node that it replaces and puts in the tokens of its
literal. The text that it leaves has the tokens that were kept and those that were put in
exactly if nothing runs together: the tokens right before a literal are still read in front of
it, and so is its last token in front of what is behind. -/
theorem tokens_of_edits {source : Text} {p : Program} (parsed : Program.parse source = .ok p)
    {scheme : Scheme} {tables : Table.Decoded} {found : List Edit}
    (scanned : (edits scheme tables p.root).1 = .ok found) :
    ∃ lead exchanges rest,
      source = lead ++ Piece.spelled (Exchange.source exchanges rest) ∧
      Program.Tokens source (Exchange.source exchanges rest) ∧
      Exchange.Enact (Scan.byteLength lead) exchanges found ∧
      ∃ text, p.edited found = .ok text ∧
        text = lead ++ Piece.spelled (Exchange.result exchanges rest) ∧
        (Program.Tokens text (Exchange.result exchanges rest) ↔
          Exchange.Clean rest exchanges) := by
  have wellFormed := Program.wellFormed_of_parse parsed
  obtain ⟨hsource, hencodable, htree⟩ := Program.tree?_of_parse parsed
  obtain ⟨pieces, htokens, hproperties⟩ := Program.exists_tokens htree
  have hfound := edits_eq wellFormed.shaped scanned
  have hreplaces : (Cursor.ofRoot p.root).Replaces (replacement? scheme tables) :=
    replaces_replacement? wellFormed.shaped
  have hplaced := (wellFormed.exists_edited hreplaces).1
  have hmem : ∀ edit ∈ found, ∃ c ∈ (Cursor.ofRoot p.root).walk,
      replacement? scheme tables c = some edit := by
    intro edit hedit
    rw [hfound] at hedit
    exact List.mem_filterMap.mp hedit
  rw [← hfound, Program.bytes, hsource] at hplaced
  obtain ⟨lead, exchanges, rest, hlead, hkept, henact, hedited, hiff⟩ :=
    Exchange.exists_of_edits htokens hencodable hplaced
      (fun edit hedit => by
        obtain ⟨c, hc, hedit⟩ := hmem edit hedit
        exact cut_of_replacement? hproperties hc hedit)
      (fun edit hedit => by
        obtain ⟨c, hc, hedit⟩ := hmem edit hedit
        exact hreplaces.encodable c hc edit hedit)
      (fun edit hedit => by
        obtain ⟨c, hc, hedit⟩ := hmem edit hedit
        exact (isLiteral_replacement? hedit).exists_tokens)
  refine ⟨lead, exchanges, rest, hlead, hkept, henact, _, ?_, rfl, hiff⟩
  rw [Program.edited, Program.bytes, hsource]
  exact hedited

/-- The theorem at a read whose first token touches a word: the literal runs together with the
word. -/
theorem tokens_of_edits_sample :
    let source := "function g() \x7b return(a).H.z.f \x7d".toText
    let tables : Table.Decoded :=
      [("z".toText, .object [(.text "f".toText, .number (.int 42))])]
    let found : List Edit := [⟨21, 30, "42".toText⟩]
    ∃ p, Program.parse source = .ok p ∧ (edits Scheme.standard tables p.root).1 = .ok found ∧
      p.edited found = .ok "function g() \x7b return42 \x7d".toText ∧
      ∃ lead exchanges rest,
        source = lead ++ Piece.spelled (Exchange.source exchanges rest) ∧
        Program.Tokens source (Exchange.source exchanges rest) ∧
        Exchange.Enact (Scan.byteLength lead) exchanges found ∧
        (Program.Tokens "function g() \x7b return42 \x7d".toText (Exchange.result exchanges rest) ↔
          Exchange.Clean rest exchanges) := by
  intro source tables found
  obtain ⟨p, parsed, scanned, hedited⟩ : ∃ p, Program.parse source = .ok p ∧
      (edits Scheme.standard tables p.root).1 = .ok found ∧
      p.edited found = .ok "function g() \x7b return42 \x7d".toText := by decide +kernel
  obtain ⟨lead, exchanges, rest, hlead, hkept, henact, text, htext, -, hiff⟩ :=
    tokens_of_edits parsed scanned
  obtain rfl : text = "function g() \x7b return42 \x7d".toText :=
    Except.ok.inj (htext.symm.trans hedited)
  exact ⟨p, parsed, scanned, hedited, lead, exchanges, rest, hlead, hkept, henact, hiff⟩

end Resolution

end Unproxy
