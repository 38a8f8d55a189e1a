import Mathlib
import Unproxy.Proofs.Syntax.Scan

/-!
# Unproxy.Proofs.Syntax.Nodes

All nodes of a subtree. A walk passes tokens over, but the part of a node in a role may be
any of its children.

Main definitions:

* `Tree.nodes`: the nodes of a subtree, tokens too.

Main statements:

* `Tree.mem_nodes`, `Tree.mem_nodes_trans`: a node, then what is below it;
* `Tree.Forall.of_mem_nodes`, `Tree.isNested_of_mem_nodes`: what holds of the nodes of a tree
  holds of those of a subtree;
* `Tree.length_nodes`: there are as many as the size of the tree says;
* `Tree.size_lt_of_mem_children`: so children are smaller.
-/

namespace Unproxy.Syntax

namespace Tree

mutual

/-- The nodes of a subtree, tokens too, a parent before its children. -/
def nodes : Tree → List Tree
  | ⟨kind, role, start, stop, text, children⟩ =>
    ⟨kind, role, start, stop, text, children⟩ :: nodesList children

/-- The nodes of a row of subtrees. -/
def nodesList : List Tree → List Tree
  | [] => []
  | t :: ts => t.nodes ++ nodesList ts

end

theorem nodesList_eq (ts : List Tree) : nodesList ts = ts.flatMap nodes := by
  induction ts with
  | nil => rfl
  | cons t ts ih => rw [nodesList, ih, List.flatMap_cons]

theorem nodes_eq (t : Tree) : t.nodes = t :: t.children.flatMap nodes := by
  obtain ⟨kind, role, start, stop, text, children⟩ := t
  rw [nodes, nodesList_eq]

theorem mem_nodes {t x : Tree} : x ∈ t.nodes ↔ x = t ∨ ∃ c ∈ t.children, x ∈ c.nodes := by
  rw [nodes_eq, List.mem_cons, List.mem_flatMap]

theorem mem_nodes_self (t : Tree) : t ∈ t.nodes := mem_nodes.mpr (.inl rfl)

theorem mem_nodes_of_child {t c x : Tree} (hc : c ∈ t.children) (hx : x ∈ c.nodes) : x ∈ t.nodes :=
  mem_nodes.mpr (.inr ⟨c, hc, hx⟩)

theorem mem_nodes_trans {t x y : Tree} (hx : x ∈ t.nodes) (hy : y ∈ x.nodes) : y ∈ t.nodes := by
  induction t using induction_children with
  | step t ih =>
    rcases mem_nodes.mp hx with rfl | ⟨c, hc, hx⟩
    · exact hy
    · exact mem_nodes_of_child hc (ih c hc hx)

/-- The part in a role is among the nodes. -/
theorem mem_nodes_of_child? {t c : Tree} {role : Role} (h : t.child? role = some c) :
    c ∈ t.nodes :=
  mem_nodes_of_child (List.mem_of_find?_eq_some h) (mem_nodes_self c)

theorem mem_nodes_of_mem_preorder {t x : Tree} (h : x ∈ t.preorder) : x ∈ t.nodes := by
  induction t using induction_named with
  | step t ih =>
    rcases mem_preorder.mp h with rfl | ⟨c, hc, hx⟩
    · exact mem_nodes_self _
    · exact mem_nodes_of_child (mem_namedChildren.mp hc).1 (ih c hc hx)

theorem Forall.of_mem_nodes {P : Tree → Prop} {t x : Tree} (h : t.Forall P) (hx : x ∈ t.nodes) :
    x.Forall P := by
  induction t using induction_children with
  | step t ih =>
    rcases mem_nodes.mp hx with rfl | ⟨c, hc, hx⟩
    · exact h
    · exact ih c hc (h.of_mem hc) hx

theorem isNested_of_mem_nodes {t x : Tree} (h : t.isNested = true) (hx : x ∈ t.nodes) :
    x.isNested = true ∧ t.start ≤ x.start ∧ x.stop ≤ t.stop := by
  induction t using induction_children with
  | step t ih =>
    rcases mem_nodes.mp hx with rfl | ⟨c, hc, hx⟩
    · exact ⟨h, Nat.le_refl _, Nat.le_refl _⟩
    · rw [isNested_eq] at h
      obtain ⟨hnested, hstart, hstop⟩ := isNested_of_mem h hc
      obtain ⟨hx, hxstart, hxstop⟩ := ih c hc hnested hx
      exact ⟨hx, by omega, by omega⟩

theorem length_nodesList {ts : List Tree} (h : ∀ t ∈ ts, t.nodes.length = t.size) :
    (nodesList ts).length = sizeList ts := by
  induction ts with
  | nil => rfl
  | cons t ts ih =>
    obtain ⟨ht, hts⟩ := List.forall_mem_cons.mp h
    rw [nodesList, List.length_append, ht, ih hts, sizeList]

theorem length_nodes (t : Tree) : t.nodes.length = t.size := by
  induction t using induction_children with
  | step t ih =>
    obtain ⟨kind, role, start, stop, text, children⟩ := t
    rw [nodes, List.length_cons, length_nodesList ih, size, Nat.add_comm]

/-- A child is smaller than its parent. -/
theorem size_lt_of_mem_children {t c : Tree} (h : c ∈ t.children) : c.size < t.size := by
  obtain ⟨before, behind, hsplit⟩ := List.append_of_mem h
  rw [← length_nodes, ← length_nodes, nodes_eq t, hsplit]
  simp only [List.flatMap_append, List.flatMap_cons, List.length_cons, List.length_append]
  omega

end Tree

theorem Cursor.node_mem_nodes {c d : Cursor} (h : d ∈ c.walk) : d.node ∈ c.node.nodes :=
  Tree.mem_nodes_of_mem_preorder (node_mem_preorder h)

end Unproxy.Syntax
