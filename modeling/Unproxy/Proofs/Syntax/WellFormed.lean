import Mathlib
import Unproxy.Syntax.Program
import Unproxy.Proofs.Edit.Patch
import Unproxy.Proofs.Syntax.Walk

/-!
# Unproxy.Proofs.Syntax.WellFormed

What the grammar promises of a tree, as far as edits depend on it: where nodes lie in
the source, and what may stand below a node.

Main definitions:

* `Tree.isNested`: ranges lie inside the range above them, in order and apart;
* `Tree.hasShape`, `Tree.isShaped`: the parts of properties, assignments, parentheses
  and strings;
* `Program.WellFormed`: a tree that fits the source it belongs to.

Main statements:

* `Cursor.mem_walk_or_apart`: of two nodes one is below the other, or they lie apart;
* `Cursor.placed_collect`, `Cursor.placed_gathered`: if visits give edits of their own nodes,
  a walk gathers edits side by side.
-/

namespace Unproxy.Syntax

namespace Tree

/-! ### Ranges -/

mutual

/-- Whether the ranges below a node lie inside its own, in order and apart. -/
def isNested : Tree → Bool
  | ⟨_, _, start, stop, _, children⟩ => areNested start stop children

/-- Whether the ranges of a row of subtrees lie between two places, in order and
apart. -/
def areNested (low high : Nat) : List Tree → Bool
  | [] => low ≤ high
  | t :: ts => low ≤ t.start && t.isNested && areNested t.stop high ts

end

theorem isNested_eq (t : Tree) : t.isNested = areNested t.start t.stop t.children := by
  obtain ⟨kind, role, start, stop, text, children⟩ := t
  rw [isNested]

theorem areNested_cons {low high : Nat} {t : Tree} {ts : List Tree} :
    areNested low high (t :: ts) = true ↔
      low ≤ t.start ∧ t.isNested = true ∧ areNested t.stop high ts = true := by
  rw [areNested, Bool.and_eq_true, Bool.and_eq_true, decide_eq_true_eq, and_assoc]

mutual

theorem start_le_stop : ∀ t : Tree, t.isNested = true → t.start ≤ t.stop
  | ⟨_, _, _, _, _, children⟩, h => le_of_areNested children (by rwa [isNested] at h)

theorem le_of_areNested : ∀ {low high : Nat} (ts : List Tree),
    areNested low high ts = true → low ≤ high
  | _, _, [], h => of_decide_eq_true h
  | low, high, t :: ts, h => by
    obtain ⟨hlow, ht, hts⟩ := areNested_cons.mp h
    have hstop := start_le_stop t ht
    have hhigh := le_of_areNested ts hts
    omega

end

theorem isNested_of_mem {low high : Nat} {t : Tree} {ts : List Tree}
    (h : areNested low high ts = true) (ht : t ∈ ts) :
    t.isNested = true ∧ low ≤ t.start ∧ t.stop ≤ high := by
  induction ts generalizing low with
  | nil => cases ht
  | cons first ts ih =>
    obtain ⟨hlow, hfirst, hts⟩ := areNested_cons.mp h
    rcases List.mem_cons.mp ht with rfl | ht
    · exact ⟨hfirst, hlow, le_of_areNested ts hts⟩
    · obtain ⟨hnested, hstart, hstop⟩ := ih hts ht
      have := start_le_stop first hfirst
      exact ⟨hnested, by omega, hstop⟩

/-- Trees of a row are the same or lie apart. -/
theorem eq_or_apart {low high : Nat} {ts : List Tree} (h : areNested low high ts = true)
    {t u : Tree} (ht : t ∈ ts) (hu : u ∈ ts) : t = u ∨ t.stop ≤ u.start ∨ u.stop ≤ t.start := by
  induction ts generalizing low with
  | nil => cases ht
  | cons first ts ih =>
    obtain ⟨-, -, hts⟩ := areNested_cons.mp h
    rcases List.mem_cons.mp ht with rfl | ht'
    · rcases List.mem_cons.mp hu with rfl | hu'
      · exact .inl rfl
      · exact .inr (.inl (isNested_of_mem hts hu').2.1)
    · rcases List.mem_cons.mp hu with rfl | hu'
      · exact .inr (.inr (isNested_of_mem hts ht').2.1)
      · exact ih hts ht' hu'

end Tree

namespace Cursor

theorem isNested_of_mem_walk {c d : Cursor} (h : c.node.isNested = true) (hd : d ∈ c.walk) :
    d.node.isNested = true ∧ c.node.start ≤ d.node.start ∧ d.node.stop ≤ c.node.stop := by
  induction c using induction_below with
  | step c ih =>
    rcases mem_walk.mp hd with rfl | ⟨b, hb, hd⟩
    · exact ⟨h, Nat.le_refl _, Nat.le_refl _⟩
    · rw [Tree.isNested_eq] at h
      obtain ⟨hnested, hstart, hstop⟩ := Tree.isNested_of_mem h (mem_below.mp hb).1
      obtain ⟨hd, hdstart, hdstop⟩ := ih b hb hnested hd
      exact ⟨hd, by omega, by omega⟩

/-- Nodes right below the same node are the same or lie apart. -/
theorem eq_or_apart_of_below {c d e : Cursor} (h : c.node.isNested = true) (hd : d ∈ c.below)
    (he : e ∈ c.below) :
    d = e ∨ d.node.stop ≤ e.node.start ∨ e.node.stop ≤ d.node.start := by
  obtain ⟨node, ancestors⟩ := d
  obtain ⟨node', ancestors'⟩ := e
  obtain ⟨hmem, -, rfl⟩ := mem_below.mp hd
  obtain ⟨hmem', -, rfl⟩ := mem_below.mp he
  rw [Tree.isNested_eq] at h
  rcases Tree.eq_or_apart h hmem hmem' with rfl | hapart
  · exact .inl rfl
  · exact .inr hapart

/-- What takes up a byte is below one node only of those right below another. -/
theorem eq_of_mem_walk_of_below {c d e x : Cursor} (h : c.node.isNested = true) (hd : d ∈ c.below)
    (he : e ∈ c.below) (hx : x ∈ d.walk) (hx' : x ∈ e.walk) (hlt : x.node.start < x.node.stop) :
    d = e := by
  have hnested : ∀ b ∈ c.below, b.node.isNested = true := fun b hb =>
    (isNested_of_mem_walk h (mem_walk_of_below hb (mem_walk_self b))).1
  have hinside := isNested_of_mem_walk (hnested d hd) hx
  have hinside' := isNested_of_mem_walk (hnested e he) hx'
  rcases eq_or_apart_of_below h hd he with heq | hapart
  · exact heq
  · omega

/-- Of two nodes one is below the other, or they lie apart. -/
theorem mem_walk_or_apart {c d e : Cursor} (h : c.node.isNested = true) (hd : d ∈ c.walk)
    (he : e ∈ c.walk) :
    e ∈ d.walk ∨ d ∈ e.walk ∨ d.node.stop ≤ e.node.start ∨ e.node.stop ≤ d.node.start := by
  induction c using induction_below with
  | step c ih =>
    rcases mem_walk.mp hd with rfl | ⟨b, hb, hdb⟩
    · exact .inl he
    rcases mem_walk.mp he with rfl | ⟨b', hb', heb⟩
    · exact .inr (.inl hd)
    have hnested : ∀ b ∈ c.below, b.node.isNested = true := fun b hb =>
      (isNested_of_mem_walk h (mem_walk_of_below hb (mem_walk_self b))).1
    rcases eq_or_apart_of_below h hb hb' with rfl | hapart
    · exact ih b hb (hnested b hb) hdb heb
    · have hinside := isNested_of_mem_walk (hnested b hb) hdb
      have hinside' := isNested_of_mem_walk (hnested b' hb') heb
      exact .inr (.inr (by omega))

section

variable {ε σ : Type} {visit : Cursor → Counting ε σ (Option (List Edit))}

theorem placed_collectRow {ts : List Tree} {place : Tree → Cursor} {low high : Nat}
    (h : Tree.areNested low high ts = true)
    (hts : ∀ t ∈ ts.filter Tree.isNamed, t.isNested = true → ∀ found tally tally',
      Counting.tallied ((place t).collect visit) tally = (.ok found, tally') →
        Edit.Placed t.start t.stop found)
    {found : List Edit} {tally tally' : σ}
    (hrun : Counting.tallied (collectRow visit ((ts.filter Tree.isNamed).map place)) tally =
      (.ok found, tally')) :
    Edit.Placed low high found := by
  induction ts generalizing low found tally with
  | nil =>
    rw [List.filter_nil, List.map_nil, collectRow_nil] at hrun
    cases hrun
    exact Tree.le_of_areNested [] h
  | cons t ts ih =>
    obtain ⟨hlow, ht, hrest⟩ := Tree.areNested_cons.mp h
    by_cases hnamed : t.isNamed = true
    · rw [List.filter_cons_of_pos hnamed] at hts hrun
      rw [List.forall_mem_cons] at hts
      obtain ⟨part, others, middle, rfl, hpart, hlast⟩ := exists_of_tallied_row hrun
      have hfirst := hts.1 ht part _ _ hpart
      exact (hfirst.mono hlow (Nat.le_refl _)).append (ih hrest hts.2 hlast)
    · rw [List.filter_cons_of_neg hnamed] at hts hrun
      have hle := Tree.start_le_stop t ht
      exact (ih hrest hts hrun).mono (Nat.le_trans hlow hle) (Nat.le_refl _)

/-- If visits that succeed give edits inside of their own nodes, a walk that succeeds gathers
edits side by side. -/
theorem placed_collect {c : Cursor} (h : c.node.isNested = true)
    (hvisit : ∀ d ∈ c.walk, ∀ found tally tally',
      Counting.tallied (visit d) tally = (.ok (some found), tally') →
        Edit.Placed d.node.start d.node.stop found)
    {found : List Edit} {tally tally' : σ}
    (hrun : Counting.tallied (c.collect visit) tally = (.ok found, tally')) :
    Edit.Placed c.node.start c.node.stop found := by
  induction c using induction_below generalizing found tally tally' with
  | step c ih =>
    rw [collect_eq] at hrun
    obtain ⟨r, middle, hfirst, hrun⟩ := Counting.exists_of_tallied_bind hrun
    cases r with
    | some first =>
      cases hrun
      exact hvisit c (mem_walk_self c) found _ _ hfirst
    | none =>
      rw [Tree.isNested_eq] at h
      refine placed_collectRow h (fun t ht hnested found tally tally' hpart => ?_) hrun
      have hbelow : ⟨t, c.node :: c.ancestors⟩ ∈ c.below := List.mem_map_of_mem ht
      exact ih _ hbelow hnested (fun d hd => hvisit d (mem_walk_of_below hbelow hd)) hpart

end

/-- If visits give edits inside of their own nodes, a walk gathers edits side by side. -/
theorem placed_gathered {result : Cursor → Option (List Edit)} {c : Cursor}
    (h : c.node.isNested = true)
    (hresult : ∀ d ∈ c.walk, ∀ found, result d = some found →
      Edit.Placed d.node.start d.node.stop found) :
    Edit.Placed c.node.start c.node.stop (c.gathered result) := by
  let visit : Cursor → Counting Unit Unit (Option (List Edit)) := fun d => pure (result d)
  have hgives : Counting.Gives id (c.collect visit) (c.gathered result) :=
    gives_collect fun d _ => .pure id (result d)
  obtain ⟨tally, hrun, -⟩ := hgives ()
  refine placed_collect h (fun d hd found _ _ hvisit => hresult d hd found ?_) hrun
  exact Except.ok.inj (congrArg Prod.fst hvisit)

end Cursor

/-! ### Shapes -/

namespace Tree

/-- Whether a node is of a kind that has no nodes below it. -/
def isAtom (t : Tree) : Bool :=
  match t.kind with
  | .comment | .identifier | .propertyIdentifier | .privateIdentifier | .number | .stringFragment
  | .escape | .optionalChain => true
  | _ => false

/-- Whether a node has named children in the given roles, at most one in each, and atoms
besides. -/
def hasOnly (t : Tree) (roles : List Role) : Bool :=
  (t.children.all fun c =>
      if roles.any fun role => c.role == some role then c.isNamed else !c.isNamed || c.isAtom) &&
    roles.all fun role => (t.children.filter fun c => c.role == some role).length ≤ 1

/-- Whether the parts of a node are those that its kind asks for. A property has a point
or brackets, so it takes up a byte at least; parentheses have one expression in them;
atoms have no parts. -/
def hasShape (t : Tree) : Bool :=
  match t.kind with
  | .member => t.hasOnly [.object] && t.start < t.stop
  | .subscript => t.hasOnly [.object, .index] && t.start < t.stop
  | .assignment => t.hasOnly [.left, .right]
  | .parenthesized => (t.namedChildren.filter fun c => c.kind != .comment).length ≤ 1
  | .string => t.namedChildren.all isAtom
  | _ => !t.isAtom || t.children.isEmpty

mutual

/-- Whether all nodes of a subtree have the parts that their kinds ask for. -/
def isShaped : Tree → Bool
  | ⟨kind, role, start, stop, text, children⟩ =>
    hasShape ⟨kind, role, start, stop, text, children⟩ && areShaped children

/-- Whether all nodes of a row of subtrees have the parts that their kinds ask for. -/
def areShaped : List Tree → Bool
  | [] => true
  | t :: ts => t.isShaped && areShaped ts

end

theorem areShaped_iff {ts : List Tree} : areShaped ts = true ↔ ∀ t ∈ ts, t.isShaped = true := by
  induction ts with
  | nil => simp [areShaped]
  | cons t ts ih => rw [areShaped, Bool.and_eq_true, ih, List.forall_mem_cons]

theorem isShaped_iff {t : Tree} :
    t.isShaped = true ↔ t.hasShape = true ∧ ∀ c ∈ t.children, c.isShaped = true := by
  obtain ⟨kind, role, start, stop, text, children⟩ := t
  rw [isShaped, Bool.and_eq_true, areShaped_iff]

/-! ### Nodes without their surroundings -/

theorem preorder_eq (t : Tree) : t.preorder = t :: t.namedChildren.flatMap preorder := by
  rw [preorder, Cursor.walk_eq, List.map_cons, List.map_flatMap, Cursor.below, List.flatMap_map]
  exact congrArg _ (List.flatMap_congr fun c _ => Cursor.map_node_walk _)

theorem mem_preorder {t x : Tree} :
    x ∈ t.preorder ↔ x = t ∨ ∃ c ∈ t.namedChildren, x ∈ c.preorder := by
  rw [preorder_eq, List.mem_cons, List.mem_flatMap]

theorem mem_namedChildren {t c : Tree} :
    c ∈ t.namedChildren ↔ c ∈ t.children ∧ c.isNamed = true :=
  List.mem_filter

/-- What holds of a node whenever it holds of its named children holds of every node. -/
theorem induction_named {motive : Tree → Prop}
    (step : ∀ t, (∀ c ∈ t.namedChildren, motive c) → motive t) (t : Tree) : motive t := by
  refine Cursor.induction_below (motive := fun c => motive c.node) (fun c ih => ?_)
    (Cursor.ofRoot t)
  exact step c.node fun t' ht' =>
    ih ⟨t', c.node :: c.ancestors⟩ (List.mem_map.mpr ⟨t', ht', rfl⟩)

theorem isShaped_of_mem_namedChildren {t c : Tree} (h : t.isShaped = true)
    (hc : c ∈ t.namedChildren) : c.isShaped = true :=
  (isShaped_iff.mp h).2 c (mem_namedChildren.mp hc).1

theorem isShaped_of_mem_preorder {t x : Tree} (h : t.isShaped = true) (hx : x ∈ t.preorder) :
    x.isShaped = true := by
  induction t using induction_named with
  | step t ih =>
    rcases mem_preorder.mp hx with rfl | ⟨c, hc, hx⟩
    · exact h
    · exact ih c hc (isShaped_of_mem_namedChildren h hc) hx

end Tree

/-- The nodes of a walk are those of the subtree. -/
theorem Cursor.node_mem_preorder {c d : Cursor} (h : d ∈ c.walk) : d.node ∈ c.node.preorder := by
  rw [← map_node_walk]
  exact List.mem_map_of_mem h

theorem Cursor.isShaped_of_mem_walk {c d : Cursor} (h : c.node.isShaped = true)
    (hd : d ∈ c.walk) : d.node.isShaped = true :=
  Tree.isShaped_of_mem_preorder h (node_mem_preorder hd)

theorem Cursor.node_mem_namedChildren {c d : Cursor} (h : d ∈ c.below) :
    d.node ∈ c.node.namedChildren :=
  Tree.mem_namedChildren.mpr ⟨(mem_below.mp h).1, (mem_below.mp h).2.1⟩

/-! ### Programs -/

/-- A tree that fits the source it belongs to: its ranges are nested and lie inside the
source, no node cuts through a code point, and every node has the parts its kind asks
for. All programs that can be read have such a tree. -/
structure Program.WellFormed (p : Program) : Prop where
  encodable : Utf8.Encodable p.source
  nested : p.root.isNested = true
  inside : p.root.stop ≤ p.bytes.length
  shaped : p.root.isShaped = true
  boundaries : ∀ c ∈ (Cursor.ofRoot p.root).walk,
    Utf8.isBoundary p.source c.node.start = true ∧ Utf8.isBoundary p.source c.node.stop = true

end Unproxy.Syntax
