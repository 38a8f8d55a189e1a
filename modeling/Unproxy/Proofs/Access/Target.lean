import Mathlib
import Unproxy.Access.Position
import Unproxy.Proofs.Access.Nesting
import Unproxy.Proofs.Syntax.Program

/-!
# Unproxy.Proofs.Access.Target

What a program writes to. The nodes that count as written are all targets but those inside
of patterns. No target lies inside of a reference, and a target is longer than any reference
inside of it, so an edit that covers a target replaces it and nothing else.

Main definitions:

* `Cursor.Target`: a node that is assigned to, counted up or down, deleted or bound;
* `Cursor.isDestructured`: a part of a pattern that takes a value;
* `Tree.IsPath`: a property with nothing but properties and parentheses on the way down;
* `Edit.Covers`: an edit replaces all of a node.

Main statements:

* `Cursor.target_iff`: targets are written or parts of patterns;
* `Cursor.not_target_of_isPath`: there are no targets inside of references;
* `Cursor.eq_of_covers`: a reference that covers a target is the target.
-/

namespace Unproxy

/-- An edit replaces all of a node, and maybe more. -/
def Edit.Covers (edit : Edit) (t : Syntax.Tree) : Prop := edit.start ≤ t.start ∧ t.stop ≤ edit.stop

namespace Syntax

/-! ### Targets -/

namespace Cursor

/-- A node that a program assigns to, counts up or down, deletes or binds. Parentheses around
it do not matter. In a pattern these are the items, the values of properties, what takes the
rest, and what has a default. -/
inductive Target : Cursor → Prop
  | left {node parent : Tree} {ancestors : List Tree}
      (kind : parent.kind = .assignment ∨ parent.kind = .compoundAssignment ∨ parent.kind = .forIn)
      (role : node.role = some .left) : Target ⟨node, parent :: ancestors⟩
  | counted {node parent : Tree} {ancestors : List Tree} (kind : parent.kind = .update)
      (role : node.role = some .argument) : Target ⟨node, parent :: ancestors⟩
  | deleted {node parent operator : Tree} {ancestors : List Tree} (kind : parent.kind = .unary)
      (child : parent.child? .operator = some operator) (text : operator.text = "delete".toText) :
      Target ⟨node, parent :: ancestors⟩
  | parenthesized {node parent : Tree} {ancestors : List Tree} (kind : parent.kind = .parenthesized)
      (outer : Target ⟨parent, ancestors⟩) : Target ⟨node, parent :: ancestors⟩
  | item {node parent : Tree} {ancestors : List Tree}
      (kind : parent.kind = .arrayPattern ∨ parent.kind = .objectPattern ∨
        parent.kind = .restPattern) : Target ⟨node, parent :: ancestors⟩
  | value {node parent : Tree} {ancestors : List Tree} (kind : parent.kind = .pairPattern)
      (role : node.role = some .value) : Target ⟨node, parent :: ancestors⟩
  | defaulted {node parent : Tree} {ancestors : List Tree} (kind : parent.kind = .assignmentPattern)
      (role : node.role = some .left) : Target ⟨node, parent :: ancestors⟩

/-- Whether a node is a part of a pattern that takes a value. Parentheses around it do not
matter. -/
def isDestructured (c : Cursor) : Bool :=
  match outermost c.node c.ancestors with
  | (_, []) => false
  | (slot, parent :: _) =>
    match parent.kind with
    | .arrayPattern | .objectPattern | .restPattern => true
    | .pairPattern => slot.role == some .value
    | .assignmentPattern => slot.role == some .left
    | _ => false

/-- What counts as written is no part of a pattern. -/
theorem not_isWritten_of_isDestructured {c : Cursor} (h : c.isDestructured = true) :
    c.isWritten = false := by
  unfold isDestructured at h
  unfold isWritten
  generalize outermost c.node c.ancestors = place at h ⊢
  obtain ⟨slot, parents⟩ := place
  cases parents with
  | nil => rfl
  | cons parent parents =>
    dsimp only at h ⊢
    split at h <;> simp_all

/-- Parentheses around a target are a target. -/
theorem Target.outer {node parent : Tree} {ancestors : List Tree}
    (h : Target ⟨node, parent :: ancestors⟩) (hkind : parent.kind = .parenthesized) :
    Target ⟨parent, ancestors⟩ := by
  cases h with
  | parenthesized _ outer => exact outer
  | left kind _ => simp [hkind] at kind
  | item kind => simp [hkind] at kind
  | counted kind _ | value kind _ | defaulted kind _ | deleted kind _ _ =>
    rw [hkind] at kind
    cases kind

/-- Targets are the nodes that count as written and those that are parts of patterns. -/
theorem target_iff {c : Cursor} :
    c.Target ↔ c.isWritten = true ∨ c.isDestructured = true := by
  obtain ⟨node, ancestors⟩ := c
  induction ancestors generalizing node with
  | nil =>
    constructor
    · intro h
      cases h
    · simp [isWritten, isDestructured, outermost]
  | cons parent ancestors ih =>
    by_cases hparenthesized : parent.kind = .parenthesized
    · have hwritten : isWritten ⟨node, parent :: ancestors⟩ = isWritten ⟨parent, ancestors⟩ := by
        simp only [isWritten, outermost, hparenthesized, if_true]
      have hdestructured : isDestructured ⟨node, parent :: ancestors⟩ =
          isDestructured ⟨parent, ancestors⟩ := by
        simp only [isDestructured, outermost, hparenthesized, if_true]
      rw [hwritten, hdestructured, ← ih]
      exact ⟨fun h => h.outer hparenthesized, .parenthesized hparenthesized⟩
    · simp only [isWritten, isDestructured, outermost, hparenthesized, if_false]
      constructor
      · intro h
        cases h with
        | left kind role => rcases kind with kind | kind | kind <;> simp [kind, role]
        | counted kind role | value kind role | defaulted kind role => simp [kind, role]
        | deleted kind child text => simp [kind, child, text]
        | item kind => rcases kind with kind | kind | kind <;> simp [kind]
        | parenthesized kind _ => exact absurd kind hparenthesized
      · rintro (h | h)
        · split at h
          · exact .left (.inl ‹_›) (beq_iff_eq.mp h)
          · exact .left (.inr (.inl ‹_›)) (beq_iff_eq.mp h)
          · exact .left (.inr (.inr ‹_›)) (beq_iff_eq.mp h)
          · exact .counted ‹_› (beq_iff_eq.mp h)
          · rename_i kind
            cases child : parent.child? .operator with
            | none => simp [child] at h
            | some operator => exact .deleted kind child (by simpa [child] using h)
          · cases h
        · split at h
          · exact .item (.inl ‹_›)
          · exact .item (.inr (.inl ‹_›))
          · exact .item (.inr (.inr ‹_›))
          · exact .value ‹_› (beq_iff_eq.mp h)
          · exact .defaulted ‹_› (beq_iff_eq.mp h)
          · cases h

end Cursor

/-! ### Paths -/

namespace Tree

/-- A property with nothing but properties and parentheses on the way down to any property
inside of it. -/
structure IsPath (t : Tree) : Prop where
  access : t.isAccess = true
  below : ∀ c ∈ t.namedChildren, ∀ x ∈ c.preorder, ∀ y ∈ x.preorder, y.isAccess = true →
    x.isAccess = true ∨ x.kind = .parenthesized

variable {t : Tree} {root name : Text}

theorem isPath_of_isNamespace (hshaped : t.isShaped = true)
    (h : t.isNamespace root name = .ok true) : t.IsPath where
  access := (exists_of_isNamespace h).1
  below c hc x hx y hy haccess := by
    rw [isAccess_below_namespace hshaped hc (mem_preorder_trans hx hy) h] at haccess
    cases haccess

/-- A property of a path is a path. -/
theorem IsPath.property {o : Tree} (h : o.IsPath) (hshaped : t.isShaped = true)
    (haccess : t.isAccess = true) (hname : t.propertyName = .ok (some name))
    (ho : t.object? = some o) : t.IsPath where
  access := haccess
  below c hc x hx y hy hyaccess := by
    rcases kind_or_mem_preorder_of_object? hshaped haccess hname ho hc hx hy hyaccess with
      hkind | hmem
    · exact .inr hkind
    · rcases mem_preorder.mp hmem with rfl | ⟨c', hc', hx'⟩
      · exact .inl h.access
      · exact h.below c' hc' x hx' y hy hyaccess

theorem isPath_of_namespaceKey {key : Text} (hshaped : t.isShaped = true)
    (h : t.namespaceKey root name = .ok (some key)) : t.IsPath := by
  obtain ⟨haccess, hname, head, hhead, hnamespace⟩ := exists_of_namespaceKey h
  have hpath := isPath_of_isNamespace (isShaped_of_object? hshaped hhead) hnamespace
  exact hpath.property hshaped haccess hname hhead

theorem isPath_of_proxyAccess {scheme : Scheme} {table field : Text} (hshaped : t.isShaped = true)
    (h : t.proxyAccess scheme = .ok (some (table, field))) : t.IsPath := by
  obtain ⟨haccess, hname, o, ho, hkey⟩ := exists_of_proxyAccess h
  have hpath := isPath_of_namespaceKey (isShaped_of_object? hshaped ho) hkey
  exact hpath.property hshaped haccess hname ho

end Tree

namespace Cursor

/-- The parent of a target is no property. -/
theorem Target.parent {node parent : Tree} {ancestors : List Tree}
    (h : Target ⟨node, parent :: ancestors⟩) : parent.isAccess = false := by
  cases h with
  | left kind _ | item kind => rcases kind with kind | kind | kind <;> simp [Tree.isAccess, kind]
  | counted kind _ | value kind _ | defaulted kind _ | deleted kind _ _ | parenthesized kind _ =>
    simp [Tree.isAccess, kind]

/-- On the way down from a path to a property inside of it there are no targets. -/
theorem not_target_of_isPath {d e c : Cursor} (hd : d.node.IsPath) (he : e ∈ d.below)
    (hc : c ∈ e.walk) {y : Tree} (hy : y ∈ c.node.preorder) (haccess : y.isAccess = true) :
    ¬c.Target := by
  intro h
  obtain ⟨node, ancestors⟩ := c
  induction ancestors generalizing node with
  | nil => cases h
  | cons parent ancestors ih =>
    have hparent := h.parent
    rcases exists_above_of_mem_walk hc with rfl | ⟨above, habove, hbelow⟩
    · -- Right below the path the parent is the path itself.
      obtain ⟨-, -, hancestors⟩ := mem_below.mp he
      rw [(List.cons.inj hancestors).1, hd.access] at hparent
      cases hparent
    · obtain ⟨-, -, hancestors⟩ := mem_below.mp hbelow
      obtain ⟨rfl, rfl⟩ := List.cons.inj hancestors
      have hy' : y ∈ above.node.preorder :=
        Tree.mem_preorder.mpr (.inr ⟨node, node_mem_namedChildren hbelow, hy⟩)
      rcases hd.below e.node (node_mem_namedChildren he) above.node (node_mem_preorder habove)
        y hy' haccess with h' | hkind
      · rw [h'] at hparent
        cases hparent
      · exact ih above.node habove hy' (h.outer hkind)

/-- A property is longer than those inside of it. -/
theorem lt_or_lt_of_exceeds {c e d : Cursor} (hshaped : c.node.isShaped = true)
    (hnested : c.node.isNested = true) (hexceeds : c.node.Exceeds) (hc : c.node.isAccess = true)
    (he : e ∈ c.below) (hd : d ∈ e.walk) (haccess : d.node.isAccess = true) :
    c.node.start < d.node.start ∨ d.node.stop < c.node.stop := by
  obtain ⟨hmem, hnamed, -⟩ := mem_below.mp he
  have heshaped := Tree.isShaped_of_mem_namedChildren hshaped (node_mem_namedChildren he)
  have hatom : e.node.isAtom = false := by
    by_contra hatom
    rw [Bool.not_eq_false] at hatom
    rw [Tree.isAccess_of_mem_atom heshaped hatom (node_mem_preorder hd)] at haccess
    cases haccess
  rw [Tree.isNested_eq] at hnested
  obtain ⟨-, hstart, hstop⟩ := isNested_of_mem_walk (Tree.isNested_of_mem hnested hmem).1 hd
  rcases hexceeds (Tree.isAccess_iff.mp hc) e.node hmem hnamed hatom with h | h <;> omega

/-- A path that covers a target is the target. -/
theorem eq_of_covers {r c d : Cursor} (hshaped : r.node.isShaped = true)
    (hnested : r.node.isNested = true) (hc : c ∈ r.walk) (hd : d ∈ r.walk)
    (hexceeds : c.node.Exceeds) (haccess : c.node.isAccess = true) (htarget : c.Target)
    (hpath : d.node.IsPath) (hstart : d.node.start ≤ c.node.start)
    (hstop : c.node.stop ≤ d.node.stop) : c = d := by
  have hcshaped := isShaped_of_mem_walk hshaped hc
  rcases mem_walk_or_apart hnested hd hc with h | h | h
  · rcases mem_walk.mp h with rfl | ⟨e, he, h⟩
    · rfl
    · exact absurd htarget
        (not_target_of_isPath hpath he h (Tree.mem_preorder_self c.node) haccess)
  · rcases mem_walk.mp h with rfl | ⟨e, he, h⟩
    · rfl
    · have := lt_or_lt_of_exceeds hcshaped (isNested_of_mem_walk hnested hc).1 hexceeds haccess he h
        hpath.access
      omega
  · have := Tree.start_lt_stop hcshaped haccess
    omega

end Cursor

end Syntax

end Unproxy
