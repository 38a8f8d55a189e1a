import Mathlib
import Unproxy.Proofs.Alias.Visit
import Unproxy.Proofs.Resolution
import Unproxy.Proofs.Syntax.Nodes

/-!
# Unproxy.Proofs.Placement

Where the edits of a scan lie. What is replaced is a reference, and a reference takes up a
byte, because the variable at its root has a name. So all that the two scans find for a node
lies inside of the node, in source order and apart.

Nothing is asked of the tree but what a range is: that ranges are nested, and that a variable
is as long as its name.

Main definitions:

* `Edit.Within`: edits that can be applied to a node.

Main statements:

* `Resolution.placed_visit`, `Alias.placed_visit`: what one visit gives;
* `within_of_collect`: what a scan gives, from whichever node and with whatever under way.
-/

namespace Unproxy

open Syntax

/-- Edits for a node: they start one behind the other, do not overlap, and each replaces at
least one byte of the node. -/
structure Edit.Within (t : Tree) (edits : List Edit) : Prop where
  increasing : edits.Pairwise fun a b => a.start < b.start
  disjoint : edits.Pairwise fun a b => a.stop ≤ b.start ∨ b.stop ≤ a.start
  inside : ∀ edit ∈ edits, t.start ≤ edit.start ∧ edit.start < edit.stop ∧ edit.stop ≤ t.stop

theorem Edit.Placed.within {t : Tree} {edits : List Edit} (h : Placed t.start t.stop edits) :
    Within t edits where
  increasing := h.pairwise
  disjoint := h.apart.imp .inl
  inside _ hedit := h.of_mem hedit

/-! ### References take up a byte -/

namespace Syntax.Tree

theorem object?_mem_nodes {t o : Tree} (h : t.object? = some o) : o ∈ t.nodes := by
  obtain ⟨c, hc, hu⟩ := Option.bind_eq_some_iff.mp h
  exact mem_nodes_trans (mem_nodes_of_child? hc)
    (mem_nodes_of_mem_preorder (unwrapped_mem_preorder hu))

/-- At the root of a reference stands the variable. -/
theorem exists_variable_of_namespaceKey {t : Tree} {root name key : Text}
    (h : t.namespaceKey root name = .ok (some key)) :
    ∃ v ∈ t.nodes, v.kind = .identifier ∧ v.text = root := by
  obtain ⟨-, -, head, hhead, hnamespace⟩ := exists_of_namespaceKey h
  obtain ⟨-, -, v, hv, hvariable⟩ := exists_of_isNamespace hnamespace
  exact ⟨v, mem_nodes_trans (object?_mem_nodes hhead) (object?_mem_nodes hv), hvariable⟩

/-- A node with a variable in it takes up a byte, unless the variable has no name. -/
theorem start_lt_stop_of_variable {t v : Tree} (hnested : t.isNested = true)
    (hnames : t.Forall HoldsName) (hv : v ∈ t.nodes) (hkind : v.kind = .identifier)
    (hname : v.text ≠ []) : t.start < t.stop := by
  have hlength : 0 < (Utf8.encode v.text).length := by
    obtain ⟨c, rest, hrest⟩ := List.exists_cons_of_ne_nil hname
    rw [hrest, Utf8.encode_cons, List.length_append, Utf8.length_encodeOne]
    exact Nat.add_pos_left (Utf8.width_pos c) _
  have hholds := (hnames.of_mem_nodes hv).here hkind
  obtain ⟨-, hstart, hstop⟩ := isNested_of_mem_nodes hnested hv
  omega

section

variable {t : Tree} {scheme : Scheme} (hnested : t.isNested = true) (hnames : t.Forall HoldsName)
  (hroot : scheme.root ≠ [])

include hnested hnames hroot

theorem start_lt_stop_of_aliasKey {key : Text} (h : t.aliasKey scheme = .ok (some key)) :
    t.start < t.stop := by
  obtain ⟨v, hv, hkind, hname⟩ := exists_variable_of_namespaceKey h
  exact start_lt_stop_of_variable hnested hnames hv hkind (hname ▸ hroot)

theorem start_lt_stop_of_proxyAccess {table field : Text}
    (h : t.proxyAccess scheme = .ok (some (table, field))) : t.start < t.stop := by
  obtain ⟨-, -, o, ho, hkey⟩ := exists_of_proxyAccess h
  obtain ⟨v, hv, hkind, hname⟩ := exists_variable_of_namespaceKey hkey
  exact start_lt_stop_of_variable hnested hnames (mem_nodes_trans (object?_mem_nodes ho) hv) hkind
    (hname ▸ hroot)

end

end Syntax.Tree

/-! ### One visit -/

/-- If a visit that succeeds gives edits inside of its node, whichever node with nested ranges
and variables as long as their names it is, then so does a scan. -/
theorem Syntax.Cursor.placed_collect_of_names {ε σ : Type}
    {visit : Cursor → Counting ε σ (Option (List Edit))}
    (hvisit : ∀ d : Cursor, d.node.isNested = true → d.node.Forall Tree.HoldsName →
      ∀ found tally tally', Counting.tallied (visit d) tally = (.ok (some found), tally') →
        Edit.Placed d.node.start d.node.stop found)
    {c : Cursor} (hnested : c.node.isNested = true) (hnames : c.node.Forall Tree.HoldsName)
    {found : List Edit} {tally tally' : σ}
    (hrun : Counting.tallied (c.collect visit) tally = (.ok found, tally')) :
    Edit.Placed c.node.start c.node.stop found := by
  refine placed_collect hnested (fun d hd found tally tally' h => ?_) hrun
  exact hvisit d (isNested_of_mem_walk hnested hd).1 (hnames.of_mem_nodes (node_mem_nodes hd))
    found tally tally' h

section

variable {c : Cursor} {scheme : Scheme} (hnested : c.node.isNested = true)
  (hnames : c.node.Forall Tree.HoldsName) (hroot : scheme.root ≠ [])

include hnested hnames hroot

theorem Resolution.placed_visit {tables : Table.Decoded} {found : List Edit} {tally tally' : Tally}
    (h : Counting.tallied (visit scheme tables c) tally = (.ok (some found), tally')) :
    Edit.Placed c.node.start c.node.stop found := by
  obtain ⟨edit, hedit, rfl⟩ := Option.map_eq_some_iff.mp (eq_replacement?_of_visit h).symm
  obtain ⟨⟨table, field, haccess⟩, hstart, hstop, -⟩ := exists_of_replacement? hedit
  have hlt := Tree.start_lt_stop_of_proxyAccess hnested hnames hroot haccess
  exact ⟨hstart.ge, by rwa [hstart, hstop], hstop.le⟩

/-- The edits for the expression of an assignment lie inside of the expression, and so inside
of the assignment; a read is replaced as a whole. -/
theorem Alias.placed_visit {aliases : Alias.Table} {bytes : Bytes} {depth : Nat}
    {active : List Text} {found : List Edit} {tally tally' : Tally}
    (h : Counting.tallied ((Setting.mk scheme aliases bytes).visit depth active c) tally =
      (.ok (some found), tally')) :
    Edit.Placed c.node.start c.node.stop found := by
  -- By induction on the depth: the visits of the expression are one level further down.
  induction depth generalizing c active found tally tally' with
  | zero => cases h
  | succ depth ih =>
    rcases visit_cases h with ⟨hnone, -, -⟩ |
      ⟨key, right, part, first, last, ha, -, hpart, hfound⟩ |
      ⟨key, right, inner, text, first, last, hreads, -, -, -, -, hfound⟩
    · cases hnone
    · cases hfound
      obtain ⟨t, ht, rfl⟩ := Option.map_eq_some_iff.mp ha.source
      have hmem := Tree.mem_nodes_of_child? ht
      obtain ⟨htnested, hstart, hstop⟩ := Tree.isNested_of_mem_nodes hnested hmem
      have hplaced := Cursor.placed_collect_of_names
        (fun d hdnested hdnames _ _ _ hvisit => ih hdnested hdnames hvisit) htnested
        (hnames.of_mem_nodes hmem) hpart
      exact hplaced.mono hstart hstop
    · cases hfound
      have hlt := Tree.start_lt_stop_of_aliasKey hnested hnames hroot hreads.name
      exact ⟨Nat.le_refl _, hlt, Nat.le_refl _⟩

end

/-! ### Scans -/

/-- The edits that either scan finds for a node of a tree with nested ranges are in source
order, apart and inside of the node, each of them of at least one byte. It does not matter which
tables are known, which nodes of the tree the aliases stand for and which of them are under
way. So the edits for the expression of an alias never reach beyond its bytes, counted from
where it starts. A name of the root is required of every scheme, and the variables of a program
that was read are as long as their names, by `Program.holdsName_of_parse`. -/
theorem within_of_collect {root : Tree} (nested : root.isNested = true)
    (names : root.Forall Tree.HoldsName) {scheme : Scheme} (named : scheme.root ≠ []) :
    (∀ c : Cursor, c.node ∈ root.nodes → ∀ tables found tally tally',
      Counting.tallied (c.collect (Resolution.visit scheme tables)) tally = (.ok found, tally') →
        Edit.Within c.node found) ∧
    ∀ (aliases : Alias.Table) (bytes : Bytes),
      (∀ key right, aliases.get? key = some right → right.node ∈ root.nodes) →
      let s : Alias.Setting := ⟨scheme, aliases, bytes⟩
      (∀ c : Cursor, c.node ∈ root.nodes → ∀ depth active found tally tally',
        Counting.tallied (c.collect (s.visit depth active)) tally = (.ok found, tally') →
          Edit.Within c.node found) ∧
      ∀ key right, aliases.get? key = some right → ∀ depth active inner tally tally',
        Counting.tallied (right.collect (s.visit depth active)) tally = (.ok inner, tally') →
        ∀ edit ∈ inner,
          (right.node.start ≤ edit.start ∧ edit.start < edit.stop ∧
            edit.stop ≤ right.node.stop) ∧
          (root.stop ≤ bytes.length →
            let offset : Int := right.node.start
            0 ≤ edit.start - offset ∧ edit.start - offset < edit.stop - offset ∧
              edit.stop - offset ≤ (s.slice right.node).length) := by
  have hparts : ∀ t ∈ root.nodes, t.isNested = true ∧ t.Forall Tree.HoldsName :=
    fun t ht => ⟨(Tree.isNested_of_mem_nodes nested ht).1, names.of_mem_nodes ht⟩
  refine ⟨?_, fun aliases bytes hrights => ?_⟩
  · intro c hc tables found tally tally' hrun
    obtain ⟨hnested, hnames⟩ := hparts c.node hc
    refine (Cursor.placed_collect_of_names ?_ hnested hnames hrun).within
    intro d hdnested hdnames _ _ _ hvisit
    exact Resolution.placed_visit hdnested hdnames named hvisit
  intro s
  have hcollect : ∀ c : Cursor, c.node ∈ root.nodes → ∀ depth active found tally tally',
      Counting.tallied (c.collect (s.visit depth active)) tally = (.ok found, tally') →
        Edit.Within c.node found := by
    intro c hc depth active found tally tally' hrun
    obtain ⟨hnested, hnames⟩ := hparts c.node hc
    refine (Cursor.placed_collect_of_names ?_ hnested hnames hrun).within
    intro d hdnested hdnames _ _ _ hvisit
    exact Alias.placed_visit hdnested hdnames named hvisit
  refine ⟨hcollect, ?_⟩
  intro key right hright depth active inner tally tally' hrun edit hedit
  have hmem := hrights key right hright
  have hinside := (hcollect right hmem depth active inner tally tally' hrun).inside edit hedit
  refine ⟨hinside, fun hbytes => ?_⟩
  have hstop := (Tree.isNested_of_mem_nodes nested hmem).2.2
  have hslice : (s.slice right.node).length = right.node.stop - right.node.start := by
    show ((bytes.drop right.node.start).take (right.node.stop - right.node.start)).length = _
    rw [List.length_take, List.length_drop]
    omega
  rw [hslice]
  dsimp only
  omega

/-- The theorem at a program with two aliases that stand for each other. -/
theorem within_of_collect_mutual :
    let source := "a.G.x = f(a.G.y); a.G.y = [a.G.x]; use(a.G.x, a.H.z.f);".toText
    let scheme := Scheme.standard
    let tables : Table.Decoded := [("z".toText, .object [(.text "f".toText, .number (.int 5))])]
    let found : List Edit :=
      [⟨10, 15, "[a.G.x]".toText⟩, ⟨27, 32, "f(a.G.y)".toText⟩, ⟨39, 44, "f([a.G.x])".toText⟩]
    ∃ p aliases, Program.parse source = .ok p ∧ p.root.isNested = true ∧
      p.root.Forall Tree.HoldsName ∧ scheme.root ≠ [] ∧ p.root.stop ≤ p.bytes.length ∧
      (Alias.collect p.root scheme).outcome = .ok aliases ∧
      (∀ key right, aliases.get? key = some right → right.node ∈ p.root.nodes) ∧
      let s : Alias.Setting := ⟨scheme, aliases, p.bytes⟩
      (Resolution.edits scheme tables p.root).1 = .ok [⟨46, 53, "5".toText⟩] ∧
        Edit.Within p.root [⟨46, 53, "5".toText⟩] ∧
        (s.edits p.root).1 = .ok found ∧ Edit.Within p.root found ∧
        ∃ right, aliases.get? "x".toText = some right ∧ right.node.start = 8 ∧
          (Counting.tallied (right.collect (s.visit 2 ["x".toText])) {}).1 =
            .ok [⟨10, 15, "[a.G.x]".toText⟩] ∧
          (15 : Int) - right.node.start ≤ (s.slice right.node).length := by
  intro source scheme tables found
  obtain ⟨p, parsed, hresolved, aliases, collected, hedits, right, hright, hstart, hinner⟩ :
      ∃ p, Program.parse source = .ok p ∧
        (Resolution.edits scheme tables p.root).1 = .ok [⟨46, 53, "5".toText⟩] ∧
        ∃ aliases, (Alias.collect p.root scheme).outcome = .ok aliases ∧
          ((Alias.Setting.mk scheme aliases p.bytes).edits p.root).1 = .ok found ∧
          ∃ right, aliases.get? "x".toText = some right ∧ right.node.start = 8 ∧
            (Counting.tallied (right.collect
              ((Alias.Setting.mk scheme aliases p.bytes).visit 2 ["x".toText])) {}).1 =
                .ok [⟨10, 15, "[a.G.x]".toText⟩] := by
    decide +kernel
  have wellFormed := Program.wellFormed_of_parse parsed
  have names := Program.holdsName_of_parse parsed
  have hrights : ∀ key right, aliases.get? key = some right → right.node ∈ p.root.nodes :=
    fun key right h => Cursor.node_mem_nodes (c := Cursor.ofRoot p.root)
      (Alias.mem_walk_of_get? wellFormed collected h)
  have hroot : scheme.root ≠ [] := by decide
  obtain ⟨hresolution, halias⟩ := within_of_collect wellFormed.nested names hroot
  obtain ⟨hscan, hexpression⟩ := halias aliases p.bytes hrights
  have hmem := Tree.mem_nodes_self p.root
  have hbounds := (hexpression "x".toText right hright 2 ["x".toText] _ {} _
    (Prod.ext hinner rfl) _ (List.mem_singleton_self _)).2 wellFormed.inside
  exact ⟨p, aliases, parsed, wellFormed.nested, names, hroot, wellFormed.inside, collected,
    hrights, hresolved, hresolution (Cursor.ofRoot p.root) hmem tables _ {} _
      (Prod.ext hresolved rfl), hedits,
    hscan (Cursor.ofRoot p.root) hmem _ [] found {} _ (Prod.ext hedits rfl), right, hright,
    hstart, hinner, hbounds.2.2⟩

end Unproxy
