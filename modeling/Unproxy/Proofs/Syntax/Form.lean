import Mathlib
import Unproxy.Access.Position
import Unproxy.Proofs.Access.Shape
import Unproxy.Proofs.Syntax.Scan

/-!
# Unproxy.Proofs.Syntax.Form

Trees without the places of their nodes in the source. What a node refers to and whether it is
written can be told from its form.

Main definitions:

* `Tree.form`, `Cursor.form`: a tree with all places taken out.

Main statements:

* `Tree.proxyAccess_form`, `Cursor.isWritten_form`: what does not depend on places;
* `Cursor.walk_form`: a walk goes the same way.
-/

namespace Unproxy.Syntax

namespace Tree

/-! ### Equal trees -/

mutual

/-- Whether two trees are the same. -/
def isSame : Tree → Tree → Bool
  | ⟨kind, role, start, stop, text, children⟩, t =>
    kind == t.kind && role == t.role && start == t.start && stop == t.stop && text == t.text &&
      areSame children t.children

/-- Whether two rows of trees are the same. -/
def areSame : List Tree → List Tree → Bool
  | [], [] => true
  | t :: ts, u :: us => isSame t u && areSame ts us
  | _, _ => false

end

mutual

theorem isSame_iff : ∀ t u : Tree, isSame t u = true ↔ t = u
  | ⟨kind, role, start, stop, text, children⟩, u => by
    obtain ⟨kind', role', start', stop', text', children'⟩ := u
    simp only [isSame, Bool.and_eq_true, beq_iff_eq, areSame_iff children children', mk.injEq,
      and_assoc]

theorem areSame_iff : ∀ ts us : List Tree, areSame ts us = true ↔ ts = us
  | [], [] => by simp [areSame]
  | [], _ :: _ => by simp [areSame]
  | _ :: _, [] => by simp [areSame]
  | t :: ts, u :: us => by
    rw [areSame, Bool.and_eq_true, isSame_iff t u, areSame_iff ts us, List.cons.injEq]

end

instance : DecidableEq Tree := fun t u => decidable_of_iff _ (isSame_iff t u)

/-! ### Forms -/

mutual

/-- A tree with the places of its nodes taken out. -/
def form : Tree → Tree
  | ⟨kind, role, _, _, text, children⟩ => ⟨kind, role, 0, 0, text, forms children⟩

/-- The forms of a row of trees. -/
def forms : List Tree → List Tree
  | [] => []
  | t :: ts => form t :: forms ts

end

theorem forms_eq (ts : List Tree) : forms ts = ts.map form := by
  induction ts with
  | nil => rfl
  | cons t ts ih => rw [forms, ih, List.map_cons]

theorem form_eq (t : Tree) : t.form = ⟨t.kind, t.role, 0, 0, t.text, t.children.map form⟩ := by
  obtain ⟨kind, role, start, stop, text, children⟩ := t
  rw [form, forms_eq]

@[simp] theorem kind_form (t : Tree) : t.form.kind = t.kind := by rw [form_eq]

@[simp] theorem role_form (t : Tree) : t.form.role = t.role := by rw [form_eq]

@[simp] theorem text_form (t : Tree) : t.form.text = t.text := by rw [form_eq]

@[simp] theorem children_form (t : Tree) : t.form.children = t.children.map form := by rw [form_eq]

@[simp] theorem isNamed_form (t : Tree) : t.form.isNamed = t.isNamed := by
  rw [isNamed, isNamed, kind_form]

theorem namedChildren_form (t : Tree) : t.form.namedChildren = t.namedChildren.map form := by
  rw [namedChildren, children_form, List.filter_map, namedChildren]
  congr 1
  exact List.filter_congr fun c _ => isNamed_form c

theorem child?_form (t : Tree) (role : Role) : t.form.child? role = (t.child? role).map form := by
  rw [child?, children_form, List.find?_map, child?]
  congr 2
  funext c
  simp

/-- A form differs from its tree in places only. -/
theorem regrouped_form (t : Tree) : Regrouped t t.form := by
  induction t using induction_children with
  | step t ih =>
    refine .intro (kind_form t) (text_form t) ?_
    rw [children_form]
    generalize t.isAccess = access
    revert ih
    generalize t.children = ts
    intro ih
    induction ts with
    | nil => exact .nil
    | cons c ts ihts =>
      obtain ⟨hc, hts⟩ := List.forall_mem_cons.mp ih
      exact .cons (role_form c) hc (ihts hts)

theorem proxyAccess_form (t : Tree) (scheme : Scheme) :
    t.form.proxyAccess scheme = t.proxyAccess scheme :=
  (regrouped_form t).proxyAccess_eq scheme

end Tree

namespace Cursor

/-- A node and its ancestors with all places taken out. -/
def form (c : Cursor) : Cursor := ⟨c.node.form, c.ancestors.map Tree.form⟩

theorem below_form (c : Cursor) : c.form.below = c.below.map form := by
  rw [below, below, form, Tree.namedChildren_form, List.map_map, List.map_map]
  rfl

theorem walk_form (c : Cursor) : c.form.walk = c.walk.map form := by
  induction c using induction_below with
  | step c ih =>
    rw [walk_eq, walk_eq, below_form, List.map_cons, List.map_flatMap, List.flatMap_map]
    congr 1
    exact List.flatMap_congr ih

theorem outermost_form (node : Tree) (ancestors : List Tree) :
    outermost node.form (ancestors.map Tree.form) =
      Prod.map Tree.form (List.map Tree.form) (outermost node ancestors) := by
  induction ancestors generalizing node with
  | nil => rfl
  | cons parent ancestors ih =>
    rw [List.map_cons, outermost, outermost, Tree.kind_form]
    split
    · exact ih parent
    · rfl

theorem isWritten_form (c : Cursor) : c.form.isWritten = c.isWritten := by
  rw [isWritten, isWritten, form, outermost_form]
  obtain ⟨slot, above⟩ := outermost c.node c.ancestors
  cases above with
  | nil => rfl
  | cons parent above =>
    simp only [Prod.map_apply, List.map_cons, Tree.kind_form, Tree.role_form, Tree.child?_form,
      Option.map_map, Function.comp_def, Tree.text_form]

end Cursor

end Unproxy.Syntax
