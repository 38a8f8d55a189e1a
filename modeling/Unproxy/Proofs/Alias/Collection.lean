import Mathlib
import Unproxy.Alias
import Unproxy.Proofs.Access.Nesting
import Unproxy.Proofs.Value.Entries

/-!
# Unproxy.Proofs.Alias.Collection

Which expression an alias stands for, and which aliases an expression reads.

Main definitions:

* `Alias.Assigns`: a node assigns an expression to an alias;
* `Alias.Reads`: a node reads an alias;
* `Alias.Depends`: an expression assigned to one alias reads another.

Main statements:

* `Alias.exists_collect`: aliases are found wherever names can be read off;
* `Alias.exists_assigns_of_collect`, `Alias.mem_keys_of_assigns`: those found are those
  assigned.
-/

namespace Unproxy.Alias

open Log Syntax

/-- A node that assigns the expression `right` to an alias. -/
structure Assigns (scheme : Scheme) (c : Cursor) (key : Text) (right : Cursor) : Prop where
  kind : c.node.kind = .assignment
  target : ∃ left, c.child? .left = some left ∧ left.node.aliasKey scheme = .ok (some key)
  source : c.child? .right = some right

/-- A node that names an alias and is not written to. -/
structure Reads (scheme : Scheme) (c : Cursor) (key : Text) : Prop where
  name : c.node.aliasKey scheme = .ok (some key)
  unwritten : c.isWritten = false

instance (scheme : Scheme) (c : Cursor) (key : Text) : Decidable (Reads scheme c key) :=
  decidable_of_iff (c.node.aliasKey scheme = .ok (some key) ∧ c.isWritten = false)
    ⟨fun h => ⟨h.1, h.2⟩, fun h => ⟨h.name, h.unwritten⟩⟩

/-- Some expression assigned to the alias `key` reads the alias `other`. -/
def Depends (scheme : Scheme) (root : Tree) (key other : Text) : Prop :=
  ∃ c right d, c ∈ (Cursor.ofRoot root).walk ∧ Assigns scheme c key right ∧ d ∈ right.walk ∧
    Reads scheme d other

/-- A tree in which the names of properties can be read off, if they are known at all. -/
def Readable (scheme : Scheme) (root : Tree) : Prop :=
  ∀ t ∈ root.preorder, ∃ key, t.aliasKey scheme = .ok key

variable {scheme : Scheme}

/-- A node reads one alias. -/
theorem Reads.unique {c : Cursor} {key key' : Text} (h : Reads scheme c key)
    (h' : Reads scheme c key') : key = key' := by
  have heq := h.name.symm.trans h'.name
  cases heq
  rfl

/-! ### The parts of an assignment -/

theorem mem_below_of_child? {c d : Cursor} {roles : List Role} {role : Role}
    (h : c.node.hasOnly roles = true) (hroles : role ∈ roles) (hd : c.child? role = some d) :
    d ∈ c.below ∧ d.node.role = some role := by
  obtain ⟨t, ht, rfl⟩ := Option.map_eq_some_iff.mp hd
  have hmem := List.mem_of_find?_eq_some ht
  have hrole : t.role = some role := by simpa using List.find?_some ht
  rw [Tree.hasOnly, Bool.and_eq_true, List.all_eq_true] at h
  have hnamed := h.1 t hmem
  rw [if_pos (List.any_eq_true.mpr ⟨role, hroles, by simp [hrole]⟩)] at hnamed
  exact ⟨Cursor.mem_below.mpr ⟨hmem, hnamed, rfl⟩, hrole⟩

theorem hasOnly_of_assignment {c : Cursor} (hshaped : c.node.isShaped = true)
    (hkind : c.node.kind = .assignment) : c.node.hasOnly [.left, .right] = true := by
  have hshape := (Tree.isShaped_iff.mp hshaped).1
  simpa only [Tree.hasShape, hkind] using hshape

theorem Assigns.right_mem_below {c right : Cursor} {key : Text} (h : Assigns scheme c key right)
    (hshaped : c.node.isShaped = true) : right ∈ c.below :=
  (mem_below_of_child? (hasOnly_of_assignment hshaped h.kind) (by simp) h.source).1

theorem Assigns.right_mem_walk {c right : Cursor} {key : Text} (h : Assigns scheme c key right)
    (hshaped : c.node.isShaped = true) : right ∈ c.walk :=
  Cursor.mem_walk_of_below (h.right_mem_below hshaped) (Cursor.mem_walk_self right)

/-- A node assigns one expression to one alias. -/
theorem Assigns.unique {c right right' : Cursor} {key key' : Text} (h : Assigns scheme c key right)
    (h' : Assigns scheme c key' right') : key = key' ∧ right = right' := by
  obtain ⟨left, hleft, hkey⟩ := h.target
  obtain ⟨left', hleft', hkey'⟩ := h'.target
  obtain rfl := Option.some.inj (hleft.symm.trans hleft')
  rw [hkey] at hkey'
  cases hkey'
  exact ⟨rfl, Option.some.inj (h.source.symm.trans h'.source)⟩

/-! ### Collecting -/

/-- What a node adds to the aliases found before. -/
theorem collectOne_cases {c : Cursor} {found found' : Table}
    (h : (collectOne scheme found c).outcome = .ok found') :
    (∃ key right, Assigns scheme c key right ∧ found' = Entries.set key right found) ∨
      ((∀ key right, ¬Assigns scheme c key right) ∧ found' = found) := by
  unfold collectOne at h
  split at h
  · rename_i hkind
    split at h
    · rename_i left right hleft hright
      obtain ⟨name, hname, h⟩ := Logged.exists_of_outcome_bind h
      have hname : left.node.aliasKey scheme = .ok name := hname
      cases name with
      | none =>
        cases h
        refine .inr ⟨fun key right ha => ?_, rfl⟩
        obtain ⟨left', hleft', hkey⟩ := ha.target
        obtain rfl := Option.some.inj (hleft.symm.trans hleft')
        rw [hname] at hkey
        cases hkey
      | some key =>
        refine .inl ⟨key, right, ⟨hkind, ⟨left, hleft, hname⟩, hright⟩, ?_⟩
        dsimp only at h
        split at h
        · cases h
          rfl
        · cases h
          rfl
    · rename_i hmissing
      cases h
      refine .inr ⟨fun key right ha => ?_, rfl⟩
      obtain ⟨left, hleft, -⟩ := ha.target
      exact hmissing left right hleft ha.source
  · rename_i hkind
    cases h
    exact .inr ⟨fun _ _ ha => hkind ha.kind, rfl⟩

theorem exists_collectOne {c : Cursor} (found : Table)
    (h : c.node.kind = .assignment → ∀ left, c.child? .left = some left →
      ∃ key, left.node.aliasKey scheme = .ok key) :
    ∃ found', (collectOne scheme found c).outcome = .ok found' := by
  unfold collectOne
  split
  · rename_i hkind
    split
    · rename_i left right hleft hright
      obtain ⟨name, hname⟩ := h hkind left hleft
      rw [Logged.outcome_bind_of_ok (a := name) _ hname]
      cases name with
      | none => exact ⟨found, rfl⟩
      | some key => exact ⟨Entries.set key right found, by dsimp only; split <;> rfl⟩
    · exact ⟨found, rfl⟩
  · exact ⟨found, rfl⟩

/-- The expression of an alias is the one it had before or one assigned since. -/
theorem get?_collectFrom {cs : List Cursor} {found aliases : Table}
    (h : (collectFrom scheme cs found).outcome = .ok aliases) {key : Text} {right : Cursor}
    (hkey : aliases.get? key = some right) :
    found.get? key = some right ∨ ∃ c ∈ cs, Assigns scheme c key right := by
  induction cs generalizing found with
  | nil => cases h; exact .inl hkey
  | cons c cs ih =>
    obtain ⟨found', hone, h⟩ := Logged.exists_of_outcome_bind h
    rcases ih h with hfound | ⟨d, hd, ha⟩
    · rcases collectOne_cases hone with ⟨key', right', ha, rfl⟩ | ⟨-, rfl⟩
      · by_cases heq : key = key'
        · subst heq
          rw [Entries.get?_set_self] at hfound
          cases hfound
          exact .inr ⟨c, List.mem_cons_self, ha⟩
        · rw [Entries.get?_set_ne heq] at hfound
          exact .inl hfound
      · exact .inl hfound
    · exact .inr ⟨d, List.mem_cons_of_mem c hd, ha⟩

theorem mem_keys_collectFrom {cs : List Cursor} {found aliases : Table}
    (h : (collectFrom scheme cs found).outcome = .ok aliases) {key : Text} :
    key ∈ aliases.keys ↔ key ∈ found.keys ∨ ∃ c ∈ cs, ∃ right, Assigns scheme c key right := by
  induction cs generalizing found with
  | nil => cases h; simp
  | cons c cs ih =>
    obtain ⟨found', hone, h⟩ := Logged.exists_of_outcome_bind h
    rw [ih h, List.exists_mem_cons_iff, ← or_assoc]
    refine or_congr_left ?_
    rcases collectOne_cases hone with ⟨key', right', ha, rfl⟩ | ⟨hnone, rfl⟩
    · rw [Entries.mem_keys_set, or_comm]
      refine or_congr_right ⟨?_, fun ⟨_, hc⟩ => (ha.unique hc).1.symm⟩
      rintro rfl
      exact ⟨right', ha⟩
    · exact (or_iff_left fun ⟨right, ha⟩ => hnone key right ha).symm

theorem exists_collectFrom {cs : List Cursor} (found : Table)
    (h : ∀ c ∈ cs, c.node.kind = .assignment → ∀ left, c.child? .left = some left →
      ∃ key, left.node.aliasKey scheme = .ok key) :
    ∃ aliases, (collectFrom scheme cs found).outcome = .ok aliases := by
  induction cs generalizing found with
  | nil => exact ⟨found, rfl⟩
  | cons c cs ih =>
    obtain ⟨found', hone⟩ := exists_collectOne found (h c List.mem_cons_self)
    obtain ⟨aliases, hrest⟩ := ih found' fun d hd => h d (List.mem_cons_of_mem c hd)
    exact ⟨aliases, (Logged.outcome_bind_of_ok _ hone).trans hrest⟩

section

variable {root : Tree} {aliases : Table}

/-- The target of an assignment is part of the tree. -/
theorem Readable.exists_aliasKey (h : Readable scheme root) (hshaped : root.isShaped = true)
    {c left : Cursor} (hc : c ∈ (Cursor.ofRoot root).walk) (hkind : c.node.kind = .assignment)
    (hleft : c.child? .left = some left) : ∃ key, left.node.aliasKey scheme = .ok key := by
  have hcshaped := Cursor.isShaped_of_mem_walk (c := Cursor.ofRoot root) hshaped hc
  have hbelow := (mem_below_of_child? (hasOnly_of_assignment hcshaped hkind) (by simp) hleft).1
  have hmem := Cursor.mem_walk_of_below hbelow (Cursor.mem_walk_self left)
  exact h left.node (Cursor.node_mem_preorder (Cursor.mem_walk_trans hc hmem))

/-- Aliases are found wherever names can be read off. -/
theorem exists_collect (hshaped : root.isShaped = true) (h : Readable scheme root) :
    ∃ aliases, (collect root scheme).outcome = .ok aliases :=
  exists_collectFrom [] fun _ hc hkind _ hleft => h.exists_aliasKey hshaped hc hkind hleft

variable (h : (collect root scheme).outcome = .ok aliases)

include h

/-- The expression of an alias is assigned to it somewhere. -/
theorem exists_assigns_of_collect {key : Text} {right : Cursor}
    (hkey : aliases.get? key = some right) :
    ∃ c ∈ (Cursor.ofRoot root).walk, Assigns scheme c key right := by
  rcases get?_collectFrom h hkey with hfound | hassigned
  · cases hfound
  · exact hassigned

/-- The aliases found are those that are assigned to. -/
theorem mem_keys_collect {key : Text} :
    key ∈ aliases.keys ↔
      ∃ c ∈ (Cursor.ofRoot root).walk, ∃ right, Assigns scheme c key right := by
  rw [mem_keys_collectFrom h]
  exact or_iff_right List.not_mem_nil

end

end Unproxy.Alias
