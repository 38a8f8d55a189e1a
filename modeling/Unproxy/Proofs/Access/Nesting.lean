import Mathlib
import Unproxy.Access.Reference
import Unproxy.Proofs.Outcome
import Unproxy.Proofs.Syntax.WellFormed
import Unproxy.Proofs.Value.Entries

/-!
# Unproxy.Proofs.Access.Nesting

References through the namespaces of a scheme never lie in one another: what stands
below one is its own path.

Main statements:

* `Tree.aliasKey_below`: no alias is named inside of a node that names one;
* `Tree.accessBy_below`, `Tree.proxyAccess_below`: no table is read inside of a node that reads
  one.
-/

namespace Unproxy.Syntax.Tree

/-- Whether a node has the form `x.y` or `x[y]`. -/
def isAccess (t : Tree) : Bool := t.kind == .member || t.kind == .subscript

theorem isAccess_iff {t : Tree} : t.isAccess = true ↔ t.kind = .member ∨ t.kind = .subscript := by
  rw [isAccess, Bool.or_eq_true, beq_iff_eq, beq_iff_eq]

theorem isNamed_of_isAccess {t : Tree} (h : t.isAccess = true) : t.isNamed = true := by
  rcases isAccess_iff.mp h with hkind | hkind <;> rw [isNamed, hkind] <;> rfl

/-! ### References by other names -/

/-- The key of `root.space.key` or `root.space[key]` if `name` tells the names of properties. -/
def keyBy (name : Tree → Except Access.Error (Option Text)) (t : Tree) (root space : Text) :
    Except Access.Error (Option Text) :=
  if t.isPlainMember then
    match t.object? with
    | some head => do
      if ← head.isNamespace root space then name t else return none
    | none => .ok none
  else .ok none

/-- The table and the field that a node reads if `name` tells the names of properties. -/
def accessBy (name : Tree → Except Access.Error (Option Text)) (t : Tree) (scheme : Scheme) :
    Except Access.Error (Option (Text × Text)) :=
  if t.isAccess then
    match t.object? with
    | some object => do
      match ← object.keyBy name scheme.root scheme.proxyNamespace with
      | some table =>
        if scheme.keyPositions.has table && t.isPlainMember then
          return (← name t).map fun field => (table, field)
        else return none
      | none => return none
    | none => .ok none
  else .ok none

theorem keyBy_propertyName (t : Tree) (root space : Text) :
    t.keyBy propertyName root space = t.namespaceKey root space := rfl

theorem accessBy_propertyName (t : Tree) (scheme : Scheme) :
    t.accessBy propertyName scheme = t.proxyAccess scheme := rfl

/-- A property takes up a byte at least. -/
theorem start_lt_stop {t : Tree} (hshaped : t.isShaped = true) (h : t.isAccess = true) :
    t.start < t.stop := by
  have hshape := (isShaped_iff.mp hshaped).1
  rcases isAccess_iff.mp h with hkind | hkind <;>
    · simp only [hasShape, hkind, Bool.and_eq_true, decide_eq_true_eq] at hshape
      exact hshape.2

/-! ### What is no property is no reference -/

theorem not_isPlainMember {t : Tree} (h : t.isAccess = false) : t.isPlainMember = false := by
  rw [isAccess] at h
  rw [isPlainMember, h, Bool.false_and]

theorem keyBy_of_not_isAccess {t : Tree} (h : t.isAccess = false)
    (name : Tree → Except Access.Error (Option Text)) (root space : Text) :
    t.keyBy name root space = .ok none := by
  rw [keyBy, not_isPlainMember h]
  rfl

theorem namespaceKey_of_not_isAccess {t : Tree} (h : t.isAccess = false) (root name : Text) :
    t.namespaceKey root name = .ok none :=
  keyBy_of_not_isAccess h propertyName root name

theorem accessBy_of_not_isAccess {t : Tree} (h : t.isAccess = false)
    (name : Tree → Except Access.Error (Option Text)) (scheme : Scheme) :
    t.accessBy name scheme = .ok none := by
  rw [accessBy, h]
  rfl

theorem proxyAccess_of_not_isAccess {t : Tree} (h : t.isAccess = false) (scheme : Scheme) :
    t.proxyAccess scheme = .ok none :=
  accessBy_of_not_isAccess h propertyName scheme

theorem isAccess_of_isAtom {t : Tree} (h : t.isAtom = true) : t.isAccess = false := by
  unfold isAtom at h
  split at h <;> simp_all [isAccess]

/-- Whether no node of a subtree has the form `x.y` or `x[y]`. -/
def isPlain (t : Tree) : Bool := t.preorder.all fun x => !x.isAccess

theorem isPlain_iff {t : Tree} :
    t.isPlain = true ↔ t.isAccess = false ∧ ∀ c ∈ t.namedChildren, c.isPlain = true := by
  rw [isPlain, preorder_eq, List.all_cons, List.all_flatMap, Bool.and_eq_true, Bool.not_eq_true',
    List.all_eq_true]
  rfl

theorem isAccess_of_isPlain {t x : Tree} (h : t.isPlain = true) (hx : x ∈ t.preorder) :
    x.isAccess = false := by
  simpa using List.all_eq_true.mp h x hx

theorem isPlain_as (t : Tree) (role : Role) : (t.as role).isPlain = t.isPlain := by
  rw [Bool.eq_iff_iff, isPlain_iff, isPlain_iff]
  rfl

/-! ### Parts of a path -/

theorem namedChildren_of_isAtom {t : Tree} (hshaped : t.isShaped = true) (h : t.isAtom = true) :
    t.namedChildren = [] := by
  have hshape := (isShaped_iff.mp hshaped).1
  have hatom := h
  unfold isAtom at h
  unfold hasShape at hshape
  split at h <;> simp_all [namedChildren]

/-- Atoms have nothing below them. -/
theorem eq_of_mem_preorder_of_isAtom {t x : Tree} (hshaped : t.isShaped = true)
    (h : t.isAtom = true) (hx : x ∈ t.preorder) : x = t := by
  rw [preorder_eq, namedChildren_of_isAtom hshaped h] at hx
  exact List.mem_singleton.mp hx

theorem isAccess_of_mem_atom {t x : Tree} (hshaped : t.isShaped = true) (h : t.isAtom = true)
    (hx : x ∈ t.preorder) : x.isAccess = false := by
  rw [eq_of_mem_preorder_of_isAtom hshaped h hx]
  exact isAccess_of_isAtom h

theorem eq_singleton_of_mem {α : Type} : ∀ {l : List α} {a : α}, l.length ≤ 1 → a ∈ l → l = [a]
  | [b], a, _, h => by rw [List.mem_singleton.mp h]
  | b :: b' :: l, _, h, _ => by simp at h

theorem unwrappedFirst_eq (ts : List Tree) :
    unwrappedFirst ts =
      (((ts.filter isNamed).filter fun c => c.kind != .comment).head?).bind unwrapped := by
  induction ts with
  | nil => rfl
  | cons t ts ih =>
    rw [unwrappedFirst, List.filter_filter, List.filter_cons]
    by_cases ht : (t.isNamed && t.kind != .comment) = true
    · rw [if_pos ht, Bool.and_comm, if_pos ht]
      rfl
    · rw [if_neg ht, Bool.and_comm, if_neg ht, ih, List.filter_filter]

theorem unwrapped_eq (t : Tree) :
    t.unwrapped =
      if t.kind = .parenthesized then
        ((t.namedChildren.filter fun c => c.kind != .comment).head?).bind unwrapped
      else some t := by
  obtain ⟨kind, role, start, stop, text, children⟩ := t
  rw [unwrapped, unwrappedFirst_eq, namedChildren]

theorem mem_preorder_self (t : Tree) : t ∈ t.preorder := mem_preorder.mpr (.inl rfl)

theorem unwrapped_mem_preorder {t u : Tree} (hu : t.unwrapped = some u) : u ∈ t.preorder := by
  induction t using induction_named with
  | step t ih =>
    rw [unwrapped_eq] at hu
    split at hu
    · obtain ⟨c, hc, hu⟩ := Option.bind_eq_some_iff.mp hu
      have hmem := (List.mem_filter.mp (List.mem_of_head? hc)).1
      exact mem_preorder.mpr (.inr ⟨c, hmem, ih c hmem hu⟩)
    · cases hu
      exact mem_preorder_self _

theorem mem_preorder_trans {t x y : Tree} (hx : x ∈ t.preorder) (hy : y ∈ x.preorder) :
    y ∈ t.preorder := by
  induction t using induction_named with
  | step t ih =>
    rcases mem_preorder.mp hx with rfl | ⟨c, hc, hx⟩
    · exact hy
    · exact mem_preorder.mpr (.inr ⟨c, hc, ih c hc hx⟩)

/-- On the way down to a property inside of parentheses there are parentheses, and then the
expression in them. -/
theorem kind_or_mem_preorder_of_unwrapped {t u x y : Tree} (hshaped : t.isShaped = true)
    (hu : t.unwrapped = some u) (hx : x ∈ t.preorder) (hy : y ∈ x.preorder)
    (haccess : y.isAccess = true) : x.kind = .parenthesized ∨ x ∈ u.preorder := by
  induction t using induction_named with
  | step t ih =>
    rw [unwrapped_eq] at hu
    split at hu
    · rename_i hkind
      rcases mem_preorder.mp hx with rfl | ⟨c, hc, hxc⟩
      · exact .inl hkind
      have hc' := isShaped_of_mem_namedChildren hshaped hc
      by_cases hcomment : c.kind = .comment
      · have hatom : c.isAtom = true := by simp [isAtom, hcomment]
        rw [isAccess_of_mem_atom hc' hatom (mem_preorder_trans hxc hy)] at haccess
        cases haccess
      · -- The expression in parentheses is the one node below them that is no comment.
        have hshape := (isShaped_iff.mp hshaped).1
        simp only [hasShape, hkind, decide_eq_true_eq] at hshape
        have hmem : c ∈ t.namedChildren.filter fun c => c.kind != .comment :=
          List.mem_filter.mpr ⟨hc, by simpa using hcomment⟩
        rw [eq_singleton_of_mem hshape hmem] at hu
        exact ih c hc hc' hu hxc
    · cases hu
      exact .inr hx

/-- The only properties inside of parentheses are those of the expression in them. -/
theorem mem_preorder_of_unwrapped {t u : Tree} (hshaped : t.isShaped = true)
    (hu : t.unwrapped = some u) {x : Tree} (hx : x ∈ t.preorder) (haccess : x.isAccess = true) :
    x ∈ u.preorder := by
  rcases kind_or_mem_preorder_of_unwrapped hshaped hu hx (mem_preorder_self x) haccess with
    hkind | hmem
  · simp [isAccess, hkind] at haccess
  · exact hmem

/-- Where a role is given at most once, the child in it is the one. -/
theorem child?_of_mem {t c : Tree} {roles : List Role} {role : Role} (h : t.hasOnly roles = true)
    (hroles : role ∈ roles) (hc : c ∈ t.children) (hrole : c.role = some role) :
    t.child? role = some c := by
  rw [hasOnly, Bool.and_eq_true, List.all_eq_true, List.all_eq_true] at h
  have hone := of_decide_eq_true (h.2 role hroles)
  have hmem : c ∈ t.children.filter fun c => c.role == some role :=
    List.mem_filter.mpr ⟨hc, by simp [hrole]⟩
  rw [child?, ← List.head?_filter, eq_singleton_of_mem hone hmem]
  rfl

/-- The named nodes right below a node are atoms or its parts in the given roles. -/
theorem isAtom_or_child? {t c : Tree} {roles : List Role} (h : t.hasOnly roles = true)
    (hc : c ∈ t.namedChildren) :
    c.isAtom = true ∨ ∃ role ∈ roles, c.role = some role ∧ t.child? role = some c := by
  obtain ⟨hmem, hnamed⟩ := mem_namedChildren.mp hc
  have hall := h
  rw [hasOnly, Bool.and_eq_true, List.all_eq_true] at hall
  have hc' := hall.1 c hmem
  split at hc'
  · rename_i hrole
    obtain ⟨role, hroles, hrole⟩ := List.any_eq_true.mp hrole
    have hrole : c.role = some role := by simpa using hrole
    exact .inr ⟨role, hroles, hrole, child?_of_mem h hroles hmem hrole⟩
  · rw [hnamed] at hc'
    exact .inl hc'

/-! ### Paths -/

/-- Nothing inside of the name in brackets is a property. -/
theorem isAccess_of_mem_index {index i x : Tree} {name : Text} (hshaped : index.isShaped = true)
    (hi : index.unwrapped = some i) (hname : i.indexName = .ok (some name))
    (hx : x ∈ index.preorder) : x.isAccess = false := by
  by_contra haccess
  rw [Bool.not_eq_false] at haccess
  have hishaped := isShaped_of_mem_preorder hshaped (unwrapped_mem_preorder hi)
  have hxi := mem_preorder_of_unwrapped hshaped hi hx haccess
  unfold indexName at hname
  split at hname
  · rename_i hstring
    rcases mem_preorder.mp hxi with rfl | ⟨c, hc, hxc⟩
    · simp [isAccess, hstring] at haccess
    · have hshape := (isShaped_iff.mp hishaped).1
      simp only [hasShape, hstring, List.all_eq_true] at hshape
      rw [isAccess_of_mem_atom (isShaped_of_mem_namedChildren hishaped hc) (hshape c hc) hxc]
        at haccess
      cases haccess
  · rename_i hnumber
    have hatom : i.isAtom = true := by simp [isAtom, hnumber]
    rw [isAccess_of_mem_atom hishaped hatom hxi] at haccess
    cases haccess
  · cases hname

theorem exists_index_of_propertyName {t : Tree} {name : Text} (hkind : t.kind ≠ .member)
    (hname : t.propertyName = .ok (some name)) {index : Tree}
    (hindex : t.child? .index = some index) :
    ∃ i, index.unwrapped = some i ∧ i.indexName = .ok (some name) := by
  rw [propertyName, if_neg hkind, hindex, Option.bind_some] at hname
  cases hi : index.unwrapped with
  | none => rw [hi] at hname; cases hname
  | some i => rw [hi] at hname; exact ⟨i, rfl, hname⟩

theorem isShaped_of_object? {t o : Tree} (hshaped : t.isShaped = true) (ho : t.object? = some o) :
    o.isShaped = true := by
  obtain ⟨c, hc, hu⟩ := Option.bind_eq_some_iff.mp ho
  have hcshaped := (isShaped_iff.mp hshaped).2 c (List.mem_of_find?_eq_some hc)
  exact isShaped_of_mem_preorder hcshaped (unwrapped_mem_preorder hu)

/-- A property inside of a property with a known name is inside of what that is a property
of. -/
theorem child?_of_mem_preorder {t c x : Tree} {name : Text} (hshaped : t.isShaped = true)
    (haccess : t.isAccess = true) (hname : t.propertyName = .ok (some name))
    (hc : c ∈ t.namedChildren) (hx : x ∈ c.preorder) (hxaccess : x.isAccess = true) :
    t.child? .object = some c := by
  have hshape := (isShaped_iff.mp hshaped).1
  have hcshaped := isShaped_of_mem_namedChildren hshaped hc
  have hatom : c.isAtom = false := by
    by_contra hatom
    rw [Bool.not_eq_false] at hatom
    rw [isAccess_of_mem_atom hcshaped hatom hx] at hxaccess
    cases hxaccess
  rcases isAccess_iff.mp haccess with hkind | hkind
  · simp only [hasShape, hkind, Bool.and_eq_true] at hshape
    rcases isAtom_or_child? hshape.1 hc with h | ⟨role, hrole, -, hchild⟩
    · rw [hatom] at h
      cases h
    · rwa [List.mem_singleton.mp hrole] at hchild
  · simp only [hasShape, hkind, Bool.and_eq_true] at hshape
    rcases isAtom_or_child? hshape.1 hc with h | ⟨role, hrole, -, hchild⟩
    · rw [hatom] at h
      cases h
    simp only [List.mem_cons, List.not_mem_nil, or_false] at hrole
    rcases hrole with rfl | rfl
    · exact hchild
    · obtain ⟨i, hi, hiname⟩ :=
        exists_index_of_propertyName (by rw [hkind]; decide) hname hchild
      rw [isAccess_of_mem_index hcshaped hi hiname hx] at hxaccess
      cases hxaccess

section

variable {t o c x : Tree} {name : Text} (hshaped : t.isShaped = true) (haccess : t.isAccess = true)
  (hname : t.propertyName = .ok (some name)) (ho : t.object? = some o) (hc : c ∈ t.namedChildren)
  (hx : x ∈ c.preorder)

include hshaped haccess hname ho hc hx

/-- On the way down from a property with a known name to one inside of it there are
parentheses, and then what it is a property of. -/
theorem kind_or_mem_preorder_of_object? {y : Tree} (hy : y ∈ x.preorder)
    (hyaccess : y.isAccess = true) : x.kind = .parenthesized ∨ x ∈ o.preorder := by
  have hchild := child?_of_mem_preorder hshaped haccess hname hc (mem_preorder_trans hx hy) hyaccess
  rw [object?, hchild] at ho
  exact kind_or_mem_preorder_of_unwrapped (isShaped_of_mem_namedChildren hshaped hc) ho hx hy
    hyaccess

/-- The only properties inside of a property with a known name are those of what it is a
property of. -/
theorem mem_preorder_of_object? (hxaccess : x.isAccess = true) : x ∈ o.preorder := by
  rcases kind_or_mem_preorder_of_object? hshaped haccess hname ho hc hx (mem_preorder_self x)
    hxaccess with hkind | hmem
  · simp [isAccess, hkind] at hxaccess
  · exact hmem

end

/-- A node that is `root.name` is a property of a variable. -/
theorem exists_of_isNamespace {t : Tree} {root name : Text}
    (h : t.isNamespace root name = .ok true) :
    t.isAccess = true ∧ t.propertyName = .ok (some name) ∧
      ∃ v, t.object? = some v ∧ v.kind = .identifier ∧ v.text = root := by
  unfold isNamespace at h
  split at h
  · rename_i hpath
    rw [Bool.and_eq_true, isPlainDotted, Bool.and_eq_true] at hpath
    obtain ⟨⟨hmember, -⟩, hobject⟩ := hpath
    have hname : t.propertyName = .ok (some name) := by
      cases hfound : t.propertyName with
      | error e => rw [hfound] at h; cases h
      | ok found =>
        rw [hfound, Except.map, Except.ok.injEq, beq_iff_eq] at h
        rw [h]
    refine ⟨by rw [isAccess, hmember, Bool.true_or], hname, ?_⟩
    cases hv : t.object? with
    | none => rw [hv] at hobject; cases hobject
    | some v =>
      rw [hv, Option.map_some, Option.getD_some, isIdentifier, Bool.and_eq_true,
        beq_iff_eq, beq_iff_eq] at hobject
      exact ⟨v, rfl, hobject⟩
  · cases h

/-- A node that names a key is a property of a namespace. -/
theorem exists_of_namespaceKey {t : Tree} {root name key : Text}
    (h : t.namespaceKey root name = .ok (some key)) :
    t.isAccess = true ∧ t.propertyName = .ok (some key) ∧
      ∃ head, t.object? = some head ∧ head.isNamespace root name = .ok true := by
  unfold namespaceKey at h
  split at h
  · rename_i hplain
    rw [isPlainMember, Bool.and_eq_true] at hplain
    split at h
    · rename_i head hhead
      obtain ⟨found, hfound, h⟩ := exists_of_bind_eq_ok h
      cases found with
      | true => exact ⟨hplain.1, h, head, hhead, hfound⟩
      | false => cases h
    · cases h
  · cases h

/-- Everything that a node which reads a table has. -/
theorem proxyAccess_cases {t : Tree} {scheme : Scheme} {table field : Text}
    (h : t.proxyAccess scheme = .ok (some (table, field))) :
    table ∈ scheme.encodedTables ∧ t.isAccess = true ∧ t.propertyName = .ok (some field) ∧
      ∃ o, t.object? = some o ∧
        o.namespaceKey scheme.root scheme.proxyNamespace = .ok (some table) := by
  unfold proxyAccess at h
  split at h
  · rename_i haccess
    split at h
    · rename_i o ho
      obtain ⟨found, hfound, h⟩ := exists_of_bind_eq_ok h
      cases found with
      | none => cases h
      | some found =>
        dsimp only at h
        split at h
        · rename_i hplain
          rw [Bool.and_eq_true] at hplain
          obtain ⟨name, hname, h⟩ := exists_of_bind_eq_ok h
          cases name with
          | none => cases h
          | some name =>
            cases h
            exact ⟨Entries.has_iff.mp hplain.1, haccess, hname, o, ho, hfound⟩
        · cases h
    · cases h
  · cases h

/-- A node that reads a table is a property of a key of the proxy namespace. -/
theorem exists_of_proxyAccess {t : Tree} {scheme : Scheme} {table field : Text}
    (h : t.proxyAccess scheme = .ok (some (table, field))) :
    t.isAccess = true ∧ t.propertyName = .ok (some field) ∧
      ∃ o, t.object? = some o ∧
        o.namespaceKey scheme.root scheme.proxyNamespace = .ok (some table) :=
  (proxyAccess_cases h).2

/-- A table that is read is one the scheme has a key for. -/
theorem mem_encodedTables_of_proxyAccess {t : Tree} {scheme : Scheme} {table field : Text}
    (h : t.proxyAccess scheme = .ok (some (table, field))) : table ∈ scheme.encodedTables :=
  (proxyAccess_cases h).1

/-! ### The parts of a path are no references -/

theorem isNamespace_of_not_isAccess {t : Tree} (h : t.isAccess = false) (root name : Text) :
    t.isNamespace root name = .ok false := by
  rw [isNamespace, isPlainDotted, not_isPlainMember h, Bool.and_false, Bool.false_and]
  rfl

theorem isIdentifier_of_isAccess {t : Tree} (h : t.isAccess = true) (name : Text) :
    t.isIdentifier name = false := by
  rcases isAccess_iff.mp h with hkind | hkind <;> rw [isIdentifier, hkind] <;> rfl

/-- What is a property of a property is no namespace. -/
theorem isNamespace_of_object? {t o : Tree} (ho : t.object? = some o) (haccess : o.isAccess = true)
    (root name : Text) : t.isNamespace root name = .ok false := by
  rw [isNamespace, ho, Option.map_some, Option.getD_some, isIdentifier_of_isAccess haccess,
    Bool.and_false]
  rfl

section

variable {t : Tree} {root name : Text}

theorem keyBy_of_isNamespace (h : t.isNamespace root name = .ok true)
    (naming : Tree → Except Access.Error (Option Text)) (root' name' : Text) :
    t.keyBy naming root' name' = .ok none := by
  obtain ⟨-, -, v, hv, hkind, -⟩ := exists_of_isNamespace h
  have hvariable : v.isAccess = false := by simp [isAccess, hkind]
  unfold keyBy
  rw [hv]
  dsimp only
  rw [isNamespace_of_not_isAccess hvariable]
  split <;> rfl

theorem namespaceKey_of_isNamespace (h : t.isNamespace root name = .ok true) (root' name' : Text) :
    t.namespaceKey root' name' = .ok none :=
  keyBy_of_isNamespace h propertyName root' name'

theorem accessBy_of_isNamespace (h : t.isNamespace root name = .ok true)
    (naming : Tree → Except Access.Error (Option Text)) (scheme : Scheme) :
    t.accessBy naming scheme = .ok none := by
  obtain ⟨-, -, v, hv, hkind, -⟩ := exists_of_isNamespace h
  have hvariable : v.isAccess = false := by simp [isAccess, hkind]
  unfold accessBy
  rw [hv]
  dsimp only
  rw [keyBy_of_not_isAccess hvariable]
  split <;> rfl

theorem accessBy_of_namespaceKey {key : Text} (h : t.namespaceKey root name = .ok (some key))
    (naming : Tree → Except Access.Error (Option Text)) (scheme : Scheme) :
    t.accessBy naming scheme = .ok none := by
  obtain ⟨-, -, head, hhead, hnamespace⟩ := exists_of_namespaceKey h
  unfold accessBy
  rw [hhead]
  dsimp only
  rw [keyBy_of_isNamespace hnamespace]
  split <;> rfl

/-- A node that reads a table is neither a namespace nor a key. -/
theorem isNamespace_of_proxyAccess {scheme : Scheme} {table field : Text}
    (h : t.proxyAccess scheme = .ok (some (table, field))) (root name : Text) :
    t.isNamespace root name = .ok false := by
  obtain ⟨-, -, o, ho, hkey⟩ := exists_of_proxyAccess h
  exact isNamespace_of_object? ho (exists_of_namespaceKey hkey).1 root name

theorem keyBy_of_proxyAccess {scheme : Scheme} {table field : Text}
    (h : t.proxyAccess scheme = .ok (some (table, field)))
    (naming : Tree → Except Access.Error (Option Text)) (root name : Text) :
    t.keyBy naming root name = .ok none := by
  obtain ⟨-, -, o, ho, hkey⟩ := exists_of_proxyAccess h
  obtain ⟨-, -, head, hhead, hnamespace⟩ := exists_of_namespaceKey hkey
  unfold keyBy
  rw [ho]
  dsimp only
  rw [isNamespace_of_object? hhead (exists_of_isNamespace hnamespace).1]
  split <;> rfl

/-! ### Below references -/

variable {c x : Tree} (hshaped : t.isShaped = true) (hc : c ∈ t.namedChildren)
  (hx : x ∈ c.preorder)

include hshaped hc hx

/-- Nothing below `root.name` is a property. -/
theorem isAccess_below_namespace (h : t.isNamespace root name = .ok true) :
    x.isAccess = false := by
  obtain ⟨haccess, hname, v, hv, hkind, -⟩ := exists_of_isNamespace h
  by_contra hxaccess
  rw [Bool.not_eq_false] at hxaccess
  have hmem := mem_preorder_of_object? hshaped haccess hname hv hc hx hxaccess
  have hatom : v.isAtom = true := by simp [isAtom, hkind]
  rw [isAccess_of_mem_atom (isShaped_of_object? hshaped hv) hatom hmem] at hxaccess
  cases hxaccess

/-- The only property below a key of a namespace is the namespace. -/
theorem isNamespace_below_key {key : Text} (h : t.namespaceKey root name = .ok (some key))
    (hxaccess : x.isAccess = true) : x.isNamespace root name = .ok true := by
  obtain ⟨haccess, hname, head, hhead, hnamespace⟩ := exists_of_namespaceKey h
  have hmem := mem_preorder_of_object? hshaped haccess hname hhead hc hx hxaccess
  rcases mem_preorder.mp hmem with rfl | ⟨c', hc', hx'⟩
  · exact hnamespace
  · rw [isAccess_below_namespace (isShaped_of_object? hshaped hhead) hc' hx' hnamespace]
      at hxaccess
    cases hxaccess

/-- No alias is named inside of a node that names one. -/
theorem aliasKey_below {scheme : Scheme} {key : Text} (h : t.aliasKey scheme = .ok (some key)) :
    x.aliasKey scheme = .ok none := by
  cases hxaccess : x.isAccess with
  | false => exact namespaceKey_of_not_isAccess hxaccess _ _
  | true => exact namespaceKey_of_isNamespace (isNamespace_below_key hshaped hc hx h hxaccess) _ _

/-- The only properties below a node that reads a table are the table and the namespace. -/
theorem namespaceKey_or_isNamespace_below {scheme : Scheme} {table field : Text}
    (h : t.proxyAccess scheme = .ok (some (table, field))) (hxaccess : x.isAccess = true) :
    x.namespaceKey scheme.root scheme.proxyNamespace = .ok (some table) ∨
      x.isNamespace scheme.root scheme.proxyNamespace = .ok true := by
  obtain ⟨haccess, hname, o, ho, hkey⟩ := exists_of_proxyAccess h
  have hmem := mem_preorder_of_object? hshaped haccess hname ho hc hx hxaccess
  rcases mem_preorder.mp hmem with rfl | ⟨c', hc', hx'⟩
  · exact .inl hkey
  · exact .inr (isNamespace_below_key (isShaped_of_object? hshaped ho) hc' hx' hkey hxaccess)

/-- No table is read inside of a node that reads one, whatever the names of properties are. -/
theorem accessBy_below {scheme : Scheme} {table field : Text}
    (h : t.proxyAccess scheme = .ok (some (table, field)))
    (naming : Tree → Except Access.Error (Option Text)) : x.accessBy naming scheme = .ok none := by
  cases hxaccess : x.isAccess with
  | false => exact accessBy_of_not_isAccess hxaccess naming scheme
  | true =>
    rcases namespaceKey_or_isNamespace_below hshaped hc hx h hxaccess with hkey | hspace
    · exact accessBy_of_namespaceKey hkey naming scheme
    · exact accessBy_of_isNamespace hspace naming scheme

theorem proxyAccess_below {scheme : Scheme} {table field : Text}
    (h : t.proxyAccess scheme = .ok (some (table, field))) : x.proxyAccess scheme = .ok none :=
  accessBy_below hshaped hc hx h propertyName

end

end Unproxy.Syntax.Tree
