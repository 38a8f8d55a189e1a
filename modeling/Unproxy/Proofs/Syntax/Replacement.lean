import Mathlib
import Unproxy.Access.Position
import Unproxy.Syntax.Revision
import Unproxy.Proofs.Syntax.WellFormed

/-!
# Unproxy.Proofs.Syntax.Replacement

Nodes of a program replaced by texts, all at once.

Main definitions:

* `Cursor.Replaces`: a choice of texts for nodes, none of which lies inside another.

Main statements:

* `Cursor.Replaces.gathered_eq`: a walk that stops at the chosen nodes misses none;
* `Program.WellFormed.exists_applyAll`: the chosen nodes of a stretch of source can be
  replaced all at once, and all bytes around them stay.
-/

namespace Unproxy.Syntax

theorem Cursor.encodable_replaceBy {c : Cursor} {text : Text} (h : Utf8.Encodable text)
    (strength : Strength) : Utf8.Encodable (c.replaceBy text strength).replacement := by
  rw [replaceBy]
  split
  · exact Utf8.encodable_append.mpr ⟨Utf8.encodable_append.mpr
      ⟨Utf8.encodable_of_isAscii (by decide), h⟩, Utf8.encodable_of_isAscii (by decide)⟩
  · exact h

/-- A choice of edits for nodes below a cursor: each replaces its node, takes away a
byte at least, puts in a text that has a UTF-8 form, and has no other chosen node inside
of its own. -/
structure Cursor.Replaces (edit? : Cursor → Option Edit) (c : Cursor) : Prop where
  range : ∀ d ∈ c.walk, ∀ edit, edit? d = some edit →
    edit.start = d.node.start ∧ edit.stop = d.node.stop ∧ edit.start < edit.stop
  encodable : ∀ d ∈ c.walk, ∀ edit, edit? d = some edit → Utf8.Encodable edit.replacement
  apart : ∀ d ∈ c.walk, ∀ edit, edit? d = some edit →
    ∀ e ∈ d.below, ∀ x ∈ e.walk, edit? x = none

namespace Cursor.Replaces

variable {edit? : Cursor → Option Edit} {c : Cursor}

theorem of_mem_walk (h : Replaces edit? c) {d : Cursor} (hd : d ∈ c.walk) : Replaces edit? d where
  range e he := h.range e (mem_walk_trans hd he)
  encodable e he := h.encodable e (mem_walk_trans hd he)
  apart e he := h.apart e (mem_walk_trans hd he)

theorem filterMap_walk (h : Replaces edit? c) {edit : Edit} (hedit : edit? c = some edit) :
    c.walk.filterMap edit? = [edit] :=
  filterMap_walk_of_below hedit (h.apart c (mem_walk_self c) edit hedit)

/-- A walk that stops at the chosen nodes misses none. -/
theorem gathered_eq (h : Replaces edit? c) :
    c.gathered (fun d => (edit? d).map fun edit => [edit]) = c.walk.filterMap edit? := by
  refine gathered_eq_filterMap (fun d hd found hfound => ?_) (fun d _ => Option.map_eq_none_iff.mp)
  obtain ⟨edit, hedit, rfl⟩ := Option.map_eq_some_iff.mp hfound
  exact ((h.of_mem_walk hd).filterMap_walk hedit).symm

/-- The chosen nodes lie side by side. -/
theorem placed (h : Replaces edit? c) (hnested : c.node.isNested = true) :
    Edit.Placed c.node.start c.node.stop (c.walk.filterMap edit?) := by
  rw [← h.gathered_eq]
  refine placed_gathered hnested fun d hd found hfound => ?_
  obtain ⟨edit, hedit, rfl⟩ := Option.map_eq_some_iff.mp hfound
  obtain ⟨hstart, hstop, hlt⟩ := h.range d hd edit hedit
  exact ⟨hstart.ge, hlt, hstop.le⟩

end Cursor.Replaces

section

variable {p : Program} {edit? : Cursor → Option Edit} {c : Cursor}

/-- The chosen nodes below a node can be replaced in any stretch of source around it that
cuts through no code point. -/
theorem Program.WellFormed.exists_applyAll (wellFormed : p.WellFormed)
    (hc : c ∈ (Cursor.ofRoot p.root).walk) (h : c.Replaces edit?) {low high : Nat}
    (hlow : low ≤ c.node.start) (hhigh : c.node.stop ≤ high)
    (hlow' : Utf8.isBoundary p.source low = true) (hhigh' : Utf8.isBoundary p.source high = true) :
    ∃ text,
      Edit.applyAll ((p.bytes.drop low).take (high - low)) (c.walk.filterMap edit?) low = .ok text ∧
      Utf8.encode text =
        Edit.patch low ((p.bytes.drop low).take (high - low)) (c.walk.filterMap edit?) ∧
      Utf8.Encodable text := by
  obtain ⟨hnested, -⟩ :=
    Cursor.isNested_of_mem_walk (c := Cursor.ofRoot p.root) wellFormed.nested hc
  have hle : low ≤ high := by
    have := Tree.start_le_stop c.node hnested
    omega
  obtain ⟨inside, hpart, hbytes, hlength, hinside⟩ := Utf8.exists_stretch hle hlow' hhigh'
  have hplaced : Edit.Placed low (low + (Utf8.encode inside).length) (c.walk.filterMap edit?) :=
    (h.placed hnested).mono hlow (by omega)
  rw [Program.bytes, hbytes]
  refine Edit.exists_applyAll hplaced.spaced hplaced.pairwise (List.Perm.refl _)
    (fun x hx => wellFormed.encodable x (hpart.subset hx)) (fun edit hedit => ?_)
    (fun edit hedit => ?_)
  · obtain ⟨d, hd, hedit⟩ := List.mem_filterMap.mp hedit
    exact h.encodable d hd edit hedit
  · obtain ⟨hstart, hlt, hstop⟩ := hplaced.of_mem hedit
    obtain ⟨d, hd, hedit⟩ := List.mem_filterMap.mp hedit
    obtain ⟨heq, heq', -⟩ := h.range d hd edit hedit
    have hboundaries := wellFormed.boundaries d (Cursor.mem_walk_trans hc hd)
    rw [← heq, ← heq'] at hboundaries
    exact ⟨hinside _ hstart (by omega) hboundaries.1, hinside _ (by omega) (by omega) hboundaries.2⟩

/-- The chosen nodes of a program can be replaced. -/
theorem Program.WellFormed.exists_edited (wellFormed : p.WellFormed)
    (h : (Cursor.ofRoot p.root).Replaces edit?) :
    Edit.Placed 0 p.bytes.length ((Cursor.ofRoot p.root).walk.filterMap edit?) ∧
      ∃ text, p.edited ((Cursor.ofRoot p.root).walk.filterMap edit?) = .ok text ∧
        Utf8.encode text =
          Edit.patch 0 p.bytes ((Cursor.ofRoot p.root).walk.filterMap edit?) := by
  refine ⟨(h.placed wellFormed.nested).mono (Nat.zero_le _) wellFormed.inside, ?_⟩
  obtain ⟨text, happly, hpatch, -⟩ := wellFormed.exists_applyAll (Cursor.mem_walk_self _) h
    (Nat.zero_le _) wellFormed.inside (by rw [Utf8.isBoundary])
    (Utf8.isBoundary_length p.source)
  rw [List.drop_zero, Nat.sub_zero, List.take_length] at happly hpatch
  exact ⟨text, happly, hpatch⟩

end

end Unproxy.Syntax
