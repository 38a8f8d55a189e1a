import Mathlib
import Unproxy.Proofs.Access.Shape
import Unproxy.Proofs.Literal.Expression
import Unproxy.Proofs.Resolution.Representable

/-!
# Unproxy.Proofs.Resolution.Substitution

Trees with their reads of table entries replaced by the expressions that the literals are. A node
that stays refers to what it referred to before, except where one of its indices was replaced: such
an index then gives the name of the entry.

Main definitions:

* `Resolution.substituted`: a tree with its reads replaced;
* `Resolution.laterName`, `Resolution.laterAccess`: what a node that stays refers to afterwards,
  told from the tree before.

Main statements:

* `Resolution.proxyAccess_substituted`: nodes that stay refer to what they are said to;
* `Resolution.laterAccess_of_proxyAccess`: references stay what they are;
* `Resolution.isWritten_image`: nodes that stay are written where they were;
* `Resolution.forall_walk_image`: a walk over the tree afterwards sees nothing but such nodes.
-/

namespace Unproxy.Resolution

open Syntax

/-- The value that a node refers to, if it has a literal. -/
def referent? (scheme : Scheme) (tables : Table.Decoded) (t : Tree) : Option Value :=
  match t.proxyAccess scheme with
  | .ok (some (table, field)) =>
    (lookup? tables table field).filter fun value =>
      match value.literal with
      | .ok (some _) => true
      | _ => false
  | _ => none

/-- The name of a property once all reads are replaced. An index that is a read gives the name of
its entry. -/
def laterName (scheme : Scheme) (tables : Table.Decoded) (t : Tree) :
    Except Access.Error (Option Text) :=
  if t.kind = .subscript then
    match ((t.child? .index).bind Tree.unwrapped).bind (referent? scheme tables) with
    | some value => .ok value.asIndex?
    | none => t.propertyName
  else t.propertyName

/-- The table and the field that a node refers to once all reads are replaced. -/
def laterAccess (scheme : Scheme) (tables : Table.Decoded) (t : Tree) :
    Except Access.Error (Option (Text × Text)) :=
  t.accessBy (laterName scheme tables) scheme

mutual

/-- A subtree with its reads replaced by the expressions that are put in their places. -/
def substituted (scheme : Scheme) (tables : Table.Decoded) (ancestors : List Tree) : Tree → Tree
  | ⟨kind, role, start, stop, text, children⟩ =>
    let node : Tree := ⟨kind, role, start, stop, text, children⟩
    match replacement? scheme tables ⟨node, ancestors⟩ with
    | some edit => { (Literal.expression? edit.replacement).getD node with role := role }
    | none =>
      ⟨kind, role, start, stop, text, substitutedList scheme tables (node :: ancestors) children⟩

/-- A row of subtrees with their reads replaced. -/
def substitutedList (scheme : Scheme) (tables : Table.Decoded) (ancestors : List Tree) :
    List Tree → List Tree
  | [] => []
  | t :: ts => substituted scheme tables ancestors t :: substitutedList scheme tables ancestors ts

end

/-- The nodes around a node, with their reads replaced. -/
def images (scheme : Scheme) (tables : Table.Decoded) : List Tree → List Tree
  | [] => []
  | t :: ts => substituted scheme tables ts t :: images scheme tables ts

/-- A node and the nodes around it, with their reads replaced. -/
def image (scheme : Scheme) (tables : Table.Decoded) (c : Cursor) : Cursor :=
  ⟨substituted scheme tables c.ancestors c.node, images scheme tables c.ancestors⟩

/-- Whether a row of nodes, each one below the next, holds none that is replaced. -/
def areKept (scheme : Scheme) (tables : Table.Decoded) : List Tree → Prop
  | [] => True
  | t :: ts => replacement? scheme tables ⟨t, ts⟩ = none ∧ areKept scheme tables ts

section

variable {scheme : Scheme} {tables : Table.Decoded} {t : Tree} {ancestors : List Tree}

/-! ### What nodes refer to -/

theorem selected_of_lookup? {table field : Text} {value : Value}
    (h : lookup? tables table field = some value) :
    selected tables table field = .ok (some value) := by
  unfold lookup? at h
  split at h
  · cases h
  · cases h
  · rename_i entries hnull hentries
    split at h
    · rename_i entry hentry
      rw [selected, hentries]
      split
      · rename_i heq
        cases heq
      · rename_i heq
        exact absurd (Option.some.inj heq) hnull
      · rename_i heq
        rw [← Option.some.inj heq, hentry, h]
    · cases h

theorem referent?_eq_some_iff {value : Value} :
    referent? scheme tables t = some value ↔
      ∃ table field literal, t.proxyAccess scheme = .ok (some (table, field)) ∧
        lookup? tables table field = some value ∧ value.literal = .ok (some literal) := by
  unfold referent?
  constructor
  · intro h
    split at h
    · rename_i table field haccess
      obtain ⟨hvalue, hliteral⟩ := Option.filter_eq_some_iff.mp h
      split at hliteral
      · rename_i literal hsource
        exact ⟨table, field, literal, haccess, hvalue, hsource⟩
      · cases hliteral
    · cases h
  · rintro ⟨table, field, literal, haccess, hvalue, hliteral⟩
    simp only [haccess, hvalue]
    rw [Option.filter_some, hliteral, if_pos rfl]

theorem isAccess_of_referent? {value : Value} (h : referent? scheme tables t = some value) :
    t.isAccess = true := by
  obtain ⟨_, _, _, haccess, -⟩ := referent?_eq_some_iff.mp h
  exact (Tree.exists_of_proxyAccess haccess).1

theorem referent?_of_not_isAccess (h : t.isAccess = false) : referent? scheme tables t = none := by
  rw [referent?, Tree.proxyAccess_of_not_isAccess h]

/-- Exactly the reads of entries with a literal are replaced. -/
theorem replacement?_eq_none_iff :
    replacement? scheme tables ⟨t, ancestors⟩ = none ↔
      Cursor.isWritten ⟨t, ancestors⟩ = true ∨ referent? scheme tables t = none := by
  rw [← not_iff_not, ← ne_eq, Option.ne_none_iff_exists', exists_replacement?_iff, not_or,
    Bool.not_eq_true, ← ne_eq, Option.ne_none_iff_exists']
  refine and_congr_right fun _ => ?_
  constructor
  · rintro ⟨table, field, value, literal, haccess, hvalue, hliteral⟩
    exact ⟨value, referent?_eq_some_iff.mpr ⟨table, field, literal, haccess, hvalue, hliteral⟩⟩
  · rintro ⟨value, h⟩
    obtain ⟨table, field, literal, haccess, hvalue, hliteral⟩ := referent?_eq_some_iff.mp h
    exact ⟨table, field, value, literal, haccess, hvalue, hliteral⟩

theorem replacement?_of_not_isAccess (h : t.isAccess = false) :
    replacement? scheme tables ⟨t, ancestors⟩ = none :=
  replacement?_eq_none_iff.mpr (.inr (referent?_of_not_isAccess h))

/-! ### References afterwards -/

theorem laterName_of_propertyName {name : Text} (h : t.propertyName = .ok (some name)) :
    laterName scheme tables t = .ok (some name) := by
  unfold laterName
  split
  · rename_i hkind
    cases hindex : t.child? .index with
    | none => rw [Option.bind_none, Option.bind_none]; exact h
    | some index =>
      -- An index that gives a name is a literal, so it is no read.
      obtain ⟨i, hi, hname⟩ :=
        Tree.exists_index_of_propertyName (by rw [hkind]; decide) h hindex
      have hliteral : i.isAccess = false := by
        unfold Tree.indexName at hname
        split at hname
        · rename_i hstring
          rw [Tree.isAccess, hstring]
          rfl
        · rename_i hnumber
          rw [Tree.isAccess, hnumber]
          rfl
        · cases hname
      rw [Option.bind_some, hi, Option.bind_some, referent?_of_not_isAccess hliteral]
      exact h
  · exact h

/-- A node that refers to an entry refers to it afterwards as well. -/
theorem laterAccess_of_proxyAccess {access : Text × Text}
    (h : t.proxyAccess scheme = .ok (some access)) :
    laterAccess scheme tables t = .ok (some access) := by
  obtain ⟨table, field⟩ := access
  obtain ⟨haccess, hname, o, ho, hkey⟩ := Tree.exists_of_proxyAccess h
  obtain ⟨-, hkeyName, head, hhead, hspace⟩ := Tree.exists_of_namespaceKey hkey
  have hlaterKey :
      o.keyBy (laterName scheme tables) scheme.root scheme.proxyNamespace = .ok (some table) := by
    rw [← hkey, ← Tree.keyBy_propertyName, Tree.keyBy, Tree.keyBy, hhead,
      laterName_of_propertyName hkeyName, hkeyName]
  rw [← h, ← Tree.accessBy_propertyName, laterAccess, Tree.accessBy, Tree.accessBy, ho,
    laterName_of_propertyName hname, hname]
  dsimp only
  rw [hlaterKey, Tree.keyBy_propertyName, hkey]

/-! ### One node -/

theorem substitutedList_eq (ts : List Tree) :
    substitutedList scheme tables ancestors ts = ts.map (substituted scheme tables ancestors) := by
  induction ts with
  | nil => rfl
  | cons t ts ih => rw [substitutedList, ih, List.map_cons]

theorem substituted_of_none (h : replacement? scheme tables ⟨t, ancestors⟩ = none) :
    substituted scheme tables ancestors t =
      { t with children := t.children.map (substituted scheme tables (t :: ancestors)) } := by
  obtain ⟨kind, role, start, stop, text, children⟩ := t
  rw [substituted, h]
  dsimp only
  rw [substitutedList_eq]

theorem substituted_of_some {edit : Edit}
    (h : replacement? scheme tables ⟨t, ancestors⟩ = some edit) :
    substituted scheme tables ancestors t =
      { (Literal.expression? edit.replacement).getD t with role := t.role } := by
  obtain ⟨kind, role, start, stop, text, children⟩ := t
  rw [substituted, h]

/-- A node that stays is of the kind that it was of. -/
theorem kind_substituted (h : replacement? scheme tables ⟨t, ancestors⟩ = none) :
    (substituted scheme tables ancestors t).kind = t.kind := by
  rw [substituted_of_none h]

theorem role_substituted : (substituted scheme tables ancestors t).role = t.role := by
  cases h : replacement? scheme tables ⟨t, ancestors⟩ with
  | none => rw [substituted_of_none h]
  | some edit => rw [substituted_of_some h]

theorem child?_substituted (h : replacement? scheme tables ⟨t, ancestors⟩ = none) (role : Role) :
    (substituted scheme tables ancestors t).child? role =
      (t.child? role).map (substituted scheme tables (t :: ancestors)) := by
  rw [substituted_of_none h, Tree.child?, List.find?_map, Tree.child?]
  congr 2
  funext c
  rw [Function.comp, role_substituted]

theorem isPlainMember_substituted (h : replacement? scheme tables ⟨t, ancestors⟩ = none) :
    (substituted scheme tables ancestors t).isPlainMember = t.isPlainMember := by
  rw [Tree.isPlainMember, child?_substituted h, Option.isNone_map, Tree.isPlainMember,
    substituted_of_none h]

/-- How an object or an index of a property, without parentheses, looks afterwards. -/
inductive Becomes (scheme : Scheme) (tables : Table.Decoded) : Option Tree → Option Tree → Prop
  | absent : Becomes scheme tables none none
  | kept {u : Tree} {others : List Tree} (shaped : u.isShaped = true)
      (referent : referent? scheme tables u = none)
      (stays : replacement? scheme tables ⟨u, others⟩ = none) :
      Becomes scheme tables (some u) (some (substituted scheme tables others u))
  | replaced {u e : Tree} {value : Value} (referent : referent? scheme tables u = some value)
      (isAccess : e.isAccess = false) (isVariable : e.kind ≠ .identifier)
      (index : e.indexName = .ok value.asIndex?) :
      Becomes scheme tables (some u) (some e)

variable (json : ∀ table v, tables.get? table = some v → v.IsJson)

include json

/-- What is put in the place of a read was written for its entry. -/
theorem exists_fills {edit : Edit} (h : replacement? scheme tables ⟨t, ancestors⟩ = some edit) :
    ∃ value, referent? scheme tables t = some value ∧
      value.Fills (substituted scheme tables ancestors t) := by
  rw [substituted_of_some h]
  unfold replacement? at h
  split at h
  · rename_i table field haccess _
    split at h
    · rename_i text strength hliteral
      obtain ⟨value, hvalue, hliteral⟩ := Option.map_eq_some_iff.mp hliteral
      obtain ⟨e, he, hfills⟩ := Value.exists_expression
        (isJson_of_selected json (selected_of_lookup? hvalue)) hliteral
        (Cursor.needsParentheses ⟨t, ancestors⟩ strength)
      cases h
      refine ⟨value, referent?_eq_some_iff.mpr ⟨table, field, _, haccess, hvalue, hliteral⟩, ?_⟩
      dsimp only
      rw [he]
      exact hfills.inRole t.role
    · cases h
  · cases h

theorem isNamed_substituted : (substituted scheme tables ancestors t).isNamed = t.isNamed := by
  cases h : replacement? scheme tables ⟨t, ancestors⟩ with
  | none => rw [substituted_of_none h]; rfl
  | some edit =>
    obtain ⟨value, hvalue, hfills⟩ := exists_fills json h
    rw [hfills.isNamed, Tree.isNamed_of_isAccess (isAccess_of_referent? hvalue)]

theorem isAside_substituted : (substituted scheme tables ancestors t).isAside = t.isAside := by
  cases h : replacement? scheme tables ⟨t, ancestors⟩ with
  | none => rw [substituted_of_none h]; rfl
  | some edit =>
    obtain ⟨value, hvalue, hfills⟩ := exists_fills json h
    have haccess := isAccess_of_referent? hvalue
    have hcomment : t.kind ≠ .comment := fun hkind => by
      rw [Tree.isAccess, hkind] at haccess
      cases haccess
    rw [Tree.isAside, Tree.isAside, hfills.isNamed, Tree.isNamed_of_isAccess haccess,
      bne_iff_ne.mpr hfills.ne_comment, bne_iff_ne.mpr hcomment]

/-! ### Inside of parentheses -/

/-- Without parentheses a node looks like the expression in them does. -/
theorem unwrapped_substituted (scheme : Scheme) (t : Tree) (ancestors : List Tree) :
    (t.unwrapped = none ∧ (substituted scheme tables ancestors t).unwrapped = none) ∨
      ∃ u others, t.unwrapped = some u ∧ u.kind ≠ .parenthesized ∧
        Cursor.isWritten ⟨u, others⟩ = Cursor.isWritten ⟨t, ancestors⟩ ∧
        (substituted scheme tables ancestors t).unwrapped =
          (substituted scheme tables others u).unwrapped := by
  induction t using Tree.induction_named generalizing ancestors with
  | step t ih =>
    by_cases hkind : t.kind = .parenthesized
    · have hkept : replacement? scheme tables ⟨t, ancestors⟩ = none :=
        replacement?_of_not_isAccess (by rw [Tree.isAccess, hkind]; rfl)
      have hunwrapped : (substituted scheme tables ancestors t).unwrapped =
          ((t.children.filter fun c => !c.isAside).head?).bind fun c =>
            (substituted scheme tables (t :: ancestors) c).unwrapped := by
        rw [substituted_of_none hkept, Tree.unwrapped_eq, if_pos hkind, Tree.filter_namedChildren,
          List.filter_map, List.head?_map, Option.bind_map]
        congr 2
        refine List.filter_congr fun c _ => ?_
        rw [Function.comp, isAside_substituted json]
      rw [hunwrapped, Tree.unwrapped_eq, if_pos hkind, Tree.filter_namedChildren]
      cases hfirst : (t.children.filter fun c => !c.isAside).head? with
      | none => exact .inl ⟨rfl, rfl⟩
      | some c =>
        rw [← Tree.filter_namedChildren] at hfirst
        have hc : c ∈ t.namedChildren := (List.mem_filter.mp (List.mem_of_head? hfirst)).1
        have hwritten : Cursor.isWritten ⟨c, t :: ancestors⟩ =
            Cursor.isWritten ⟨t, ancestors⟩ := by
          rw [Cursor.isWritten, Cursor.outermost, if_pos hkind]
          rfl
        rw [← hwritten]
        exact ih c hc (t :: ancestors)
    · rw [Tree.unwrapped_eq, if_neg hkind]
      exact .inr ⟨t, ancestors, rfl, hkind, rfl, rfl⟩

theorem becomes_child? (hshaped : t.isShaped = true) (haccess : t.isAccess = true)
    (h : replacement? scheme tables ⟨t, ancestors⟩ = none) (role : Role) :
    Becomes scheme tables ((t.child? role).bind Tree.unwrapped)
      (((substituted scheme tables ancestors t).child? role).bind Tree.unwrapped) := by
  rw [child?_substituted h]
  cases hchild : t.child? role with
  | none => exact .absent
  | some c =>
    rw [Option.map_some, Option.bind_some, Option.bind_some]
    rcases unwrapped_substituted json scheme c (t :: ancestors) with
      ⟨hnone, hnone'⟩ | ⟨u, others, hu, hkind, hwritten, hunwrapped⟩
    · rw [hnone, hnone']
      exact .absent
    · rw [hu, hunwrapped]
      -- A part of a property is not written by what is around the property.
      have hread : Cursor.isWritten ⟨c, t :: ancestors⟩ = false := by
        rcases Tree.isAccess_iff.mp haccess with hkind | hkind <;>
          simp [Cursor.isWritten, Cursor.outermost, hkind]
      rw [hread] at hwritten
      have hushaped : u.isShaped = true :=
        Tree.isShaped_of_mem_preorder
          ((Tree.isShaped_iff.mp hshaped).2 c (List.mem_of_find?_eq_some hchild))
          (Tree.unwrapped_mem_preorder hu)
      cases hreplaced : replacement? scheme tables ⟨u, others⟩ with
      | none =>
        have hnone : referent? scheme tables u = none := by
          rcases replacement?_eq_none_iff.mp hreplaced with hwrite | hnone
          · rw [hwritten] at hwrite
            cases hwrite
          · exact hnone
        rw [Tree.unwrapped_eq, if_neg (by rwa [kind_substituted hreplaced])]
        exact .kept hushaped hnone hreplaced
      | some edit =>
        obtain ⟨value, hvalue, hfills⟩ := exists_fills json hreplaced
        obtain ⟨e, he, haccess, hvariable, hindex⟩ := hfills.inner
        rw [he]
        exact .replaced hvalue haccess hvariable hindex

theorem becomes_object? (hshaped : t.isShaped = true) (haccess : t.isAccess = true)
    (h : replacement? scheme tables ⟨t, ancestors⟩ = none) :
    Becomes scheme tables t.object? (substituted scheme tables ancestors t).object? :=
  becomes_child? json hshaped haccess h .object

/-! ### Names and references -/

/-- A dotted property has the name it had. -/
theorem propertyName_substituted_of_member (hkind : t.kind = .member)
    (h : replacement? scheme tables ⟨t, ancestors⟩ = none) :
    (substituted scheme tables ancestors t).propertyName = t.propertyName := by
  rw [Tree.propertyName, if_pos ((kind_substituted h).trans hkind), child?_substituted h,
    Tree.propertyName, if_pos hkind]
  cases t.child? .property with
  | none => rfl
  | some property =>
    rw [Option.map_some]
    dsimp only
    cases hproperty : replacement? scheme tables ⟨property, t :: ancestors⟩ with
    | none => rw [substituted_of_none hproperty]
    | some edit =>
      -- Neither a read nor what is put in its place is a name.
      obtain ⟨value, hvalue, hfills⟩ := exists_fills json hproperty
      have haccess := isAccess_of_referent? hvalue
      have hname : property.kind ≠ .propertyIdentifier := fun hkind => by
        rw [Tree.isAccess, hkind] at haccess
        cases haccess
      have hname' :
          (substituted scheme tables (t :: ancestors) property).kind ≠ .propertyIdentifier :=
        fun hkind => hfills.kind (by rw [hkind]; decide)
      rw [if_neg hname, if_neg hname']

theorem namedChildren_substituted (h : replacement? scheme tables ⟨t, ancestors⟩ = none) :
    (substituted scheme tables ancestors t).namedChildren =
      t.namedChildren.map (substituted scheme tables (t :: ancestors)) := by
  rw [substituted_of_none h, Tree.namedChildren, List.filter_map, Tree.namedChildren]
  congr 1
  refine List.filter_congr fun c _ => ?_
  rw [Function.comp, isNamed_substituted json]

/-- The parts of a string are atoms, so they stay. -/
theorem stringValue_substituted (hshaped : t.isShaped = true) (hkind : t.kind = .string)
    (h : replacement? scheme tables ⟨t, ancestors⟩ = none) :
    (substituted scheme tables ancestors t).stringValue = t.stringValue := by
  have hatoms := (Tree.isShaped_iff.mp hshaped).1
  simp only [Tree.hasShape, hkind, List.all_eq_true] at hatoms
  rw [Tree.stringValue, Tree.stringValue, namedChildren_substituted json h, List.mapM_map]
  congr 1
  revert hatoms
  generalize t.namedChildren = parts
  intro hatoms
  induction parts with
  | nil => rfl
  | cons part parts ih =>
    obtain ⟨hpart, hparts⟩ := List.forall_mem_cons.mp hatoms
    have hkept : replacement? scheme tables ⟨part, t :: ancestors⟩ = none :=
      replacement?_of_not_isAccess (Tree.isAccess_of_isAtom hpart)
    have hvalue : (Access.partValue ∘ substituted scheme tables (t :: ancestors)) part =
        Access.partValue part := by
      rw [Function.comp, substituted_of_none hkept]
      rfl
    rw [List.mapM_cons, List.mapM_cons, hvalue, ih hparts]

theorem indexName_substituted (hshaped : t.isShaped = true)
    (h : replacement? scheme tables ⟨t, ancestors⟩ = none) :
    (substituted scheme tables ancestors t).indexName = t.indexName := by
  have htext : (substituted scheme tables ancestors t).text = t.text := by
    rw [substituted_of_none h]
  unfold Tree.indexName
  rw [kind_substituted h, htext]
  split
  · rename_i hstring
    rw [stringValue_substituted json hshaped hstring h]
  · rfl
  · rfl

/-- A property that stays has the name that it is said to have afterwards. -/
theorem propertyName_substituted (hshaped : t.isShaped = true) (haccess : t.isAccess = true)
    (h : replacement? scheme tables ⟨t, ancestors⟩ = none) :
    (substituted scheme tables ancestors t).propertyName = laterName scheme tables t := by
  rcases Tree.isAccess_iff.mp haccess with hkind | hkind
  · rw [propertyName_substituted_of_member json hkind h, laterName,
      if_neg (by rw [hkind]; decide)]
  · have hmember : t.kind ≠ .member := by rw [hkind]; decide
    have hindex := becomes_child? json hshaped (by rw [Tree.isAccess, hkind]; rfl) h .index
    rw [laterName, if_pos hkind, Tree.propertyName, if_neg (by rwa [kind_substituted h]),
      Tree.propertyName, if_neg hmember]
    generalize (t.child? .index).bind Tree.unwrapped = index,
      ((substituted scheme tables ancestors t).child? .index).bind Tree.unwrapped = index'
      at hindex ⊢
    cases hindex with
    | absent => rfl
    | kept shaped referent stays =>
      rw [Option.bind_some, referent]
      exact indexName_substituted json shaped stays
    | replaced referent isAccess isVariable index =>
      rw [Option.bind_some, referent]
      exact index

theorem isNamespace_substituted (hshaped : t.isShaped = true)
    (h : replacement? scheme tables ⟨t, ancestors⟩ = none) (root name : Text) :
    (substituted scheme tables ancestors t).isNamespace root name = t.isNamespace root name := by
  have hdotted' : (substituted scheme tables ancestors t).isPlainDotted = t.isPlainDotted := by
    rw [Tree.isPlainDotted, isPlainMember_substituted h, Tree.isPlainDotted, kind_substituted h]
  rw [Tree.isNamespace, hdotted', Tree.isNamespace]
  cases hdotted : t.isPlainDotted with
  | false => rfl
  | true =>
    rw [Tree.isPlainDotted, Bool.and_eq_true, beq_iff_eq] at hdotted
    have hkind := hdotted.1
    have hobject := becomes_object? json hshaped (by rw [Tree.isAccess, hkind]; rfl) h
    have hvariable :
        ((substituted scheme tables ancestors t).object?.map (·.isIdentifier root)).getD false =
          (t.object?.map (·.isIdentifier root)).getD false := by
      generalize t.object? = o, (substituted scheme tables ancestors t).object? = o' at hobject ⊢
      cases hobject with
      | absent => rfl
      | kept shaped referent stays => rw [substituted_of_none stays]; rfl
      | replaced referent isAccess isVariable index =>
        rw [Option.map_some, Option.map_some,
          Tree.isIdentifier_of_isAccess (isAccess_of_referent? referent), Tree.isIdentifier,
          beq_eq_false_iff_ne.mpr isVariable, Bool.false_and]
    rw [hvariable, propertyName_substituted_of_member json hkind h]

/-- A node that stays names the key that it is said to name afterwards. -/
theorem namespaceKey_substituted (hshaped : t.isShaped = true)
    (h : replacement? scheme tables ⟨t, ancestors⟩ = none) (root space : Text) :
    (substituted scheme tables ancestors t).namespaceKey root space =
      t.keyBy (laterName scheme tables) root space := by
  rw [← Tree.keyBy_propertyName, Tree.keyBy, isPlainMember_substituted h, Tree.keyBy]
  cases hplain : t.isPlainMember with
  | false => rfl
  | true =>
    rw [Tree.isPlainMember, Bool.and_eq_true] at hplain
    have hobject := becomes_object? json hshaped hplain.1 h
    rw [propertyName_substituted json hshaped hplain.1 h]
    generalize t.object? = o, (substituted scheme tables ancestors t).object? = o' at hobject ⊢
    cases hobject with
    | absent => rfl
    | kept shaped referent stays =>
      dsimp only
      rw [isNamespace_substituted json shaped stays]
    | replaced referent isAccess isVariable index =>
      obtain ⟨_, _, _, haccess, -⟩ := referent?_eq_some_iff.mp referent
      dsimp only
      rw [Tree.isNamespace_of_not_isAccess isAccess, Tree.isNamespace_of_proxyAccess haccess]

/-- A node that stays refers to what it is said to refer to afterwards. -/
theorem proxyAccess_substituted (hshaped : t.isShaped = true)
    (h : replacement? scheme tables ⟨t, ancestors⟩ = none) :
    (substituted scheme tables ancestors t).proxyAccess scheme = laterAccess scheme tables t := by
  have hkind : (substituted scheme tables ancestors t).isAccess = t.isAccess := by
    rw [Tree.isAccess, Tree.isAccess, kind_substituted h]
  rw [← Tree.accessBy_propertyName, Tree.accessBy, hkind, isPlainMember_substituted h, laterAccess,
    Tree.accessBy]
  cases haccess : t.isAccess with
  | false => rfl
  | true =>
    have hobject := becomes_object? json hshaped haccess h
    rw [propertyName_substituted json hshaped haccess h]
    generalize t.object? = o, (substituted scheme tables ancestors t).object? = o' at hobject ⊢
    cases hobject with
    | absent => rfl
    | kept shaped referent stays =>
      dsimp only
      rw [Tree.keyBy_propertyName, namespaceKey_substituted json shaped stays]
    | replaced referent isAccess isVariable index =>
      obtain ⟨_, _, _, haccess, -⟩ := referent?_eq_some_iff.mp referent
      dsimp only
      rw [Tree.keyBy_of_not_isAccess isAccess, Tree.keyBy_of_proxyAccess haccess]

/-! ### Places -/

omit json in
theorem outermost_images (h : areKept scheme tables ancestors) :
    ∃ slot others, Cursor.outermost t ancestors = (slot, others) ∧
      areKept scheme tables others ∧
      Cursor.outermost (substituted scheme tables ancestors t) (images scheme tables ancestors) =
        (substituted scheme tables others slot, images scheme tables others) := by
  induction ancestors generalizing t with
  | nil => exact ⟨t, [], rfl, h, rfl⟩
  | cons parent ancestors ih =>
    rw [images, Cursor.outermost, Cursor.outermost, kind_substituted h.1]
    split
    · exact ih h.2
    · exact ⟨t, parent :: ancestors, rfl, h, rfl⟩

/-- A node below nodes that stay is written if it was. -/
theorem isWritten_image {c : Cursor} (h : areKept scheme tables c.ancestors) :
    (image scheme tables c).isWritten = c.isWritten := by
  obtain ⟨slot, others, hslot, hkept, himage⟩ := outermost_images (t := c.node) h
  rw [Cursor.isWritten, image]
  dsimp only
  rw [himage, Cursor.isWritten, hslot]
  cases others with
  | nil => rfl
  | cons parent others =>
    have hparent := hkept.1
    rw [images]
    dsimp only
    rw [kind_substituted hparent, role_substituted]
    split
    any_goals rfl
    · rename_i hunary
      rw [child?_substituted hparent, Option.map_map]
      cases hoperator : parent.child? .operator with
      | none => rfl
      | some operator =>
        rw [Option.map_some, Option.map_some, Option.getD_some, Option.getD_some,
          Function.comp]
        cases hreplaced : replacement? scheme tables ⟨operator, parent :: others⟩ with
        | none => rw [substituted_of_none hreplaced]
        | some edit =>
          -- What stands right below a deletion is written, so it would not be replaced.
          have hwritten : Cursor.isWritten ⟨operator, parent :: others⟩ =
              (operator.text == "delete".toText) := by
            rw [Cursor.isWritten, Cursor.outermost, if_neg (by rw [hunary]; decide)]
            dsimp only
            rw [hunary]
            dsimp only
            rw [hoperator, Option.map_some, Option.getD_some]
          have hread : Cursor.isWritten ⟨operator, parent :: others⟩ = false := by
            by_contra hwrite
            rw [Bool.not_eq_false] at hwrite
            rw [replacement?_eq_none_iff.mpr (.inl hwrite)] at hreplaced
            cases hreplaced
          obtain ⟨value, -, hfills⟩ := exists_fills json hreplaced
          rw [beq_eq_false_iff_ne.mpr hfills.text, ← hwritten, hread]

/-! ### Walks -/

variable {c : Cursor}

theorem below_image (h : replacement? scheme tables c = none) :
    (image scheme tables c).below = c.below.map (image scheme tables) := by
  rw [Cursor.below, image]
  dsimp only
  rw [namedChildren_substituted json h, Cursor.below, List.map_map, List.map_map]
  rfl

/-- A walk afterwards comes to nodes that stay, and to nodes that are no properties. -/
theorem mem_walk_image (hkept : areKept scheme tables c.ancestors) {d : Cursor}
    (hd : d ∈ (image scheme tables c).walk) :
    d.node.isAccess = false ∨
      ∃ e ∈ c.walk, areKept scheme tables (e.node :: e.ancestors) ∧ d = image scheme tables e := by
  induction c using Cursor.induction_below with
  | step c ih =>
    cases h : replacement? scheme tables c with
    | some edit =>
      obtain ⟨value, -, hfills⟩ := exists_fills json h
      exact .inl (Tree.isAccess_of_isPlain hfills.plain (Cursor.node_mem_preorder hd))
    | none =>
      rcases Cursor.mem_walk.mp hd with rfl | ⟨b', hb', hd⟩
      · exact .inr ⟨c, Cursor.mem_walk_self c, ⟨h, hkept⟩, rfl⟩
      · rw [below_image json h] at hb'
        obtain ⟨b, hb, rfl⟩ := List.mem_map.mp hb'
        have hbkept : areKept scheme tables b.ancestors := by
          rw [(Cursor.mem_below.mp hb).2.2]
          exact ⟨h, hkept⟩
        rcases ih b hb hbkept hd with hplain | ⟨e, he, h⟩
        · exact .inl hplain
        · exact .inr ⟨e, Cursor.mem_walk_of_below hb he, h⟩

/-- A walk afterwards comes to every node that stays, unless it is below a read. -/
theorem image_mem_walk (hkept : areKept scheme tables c.ancestors) {e : Cursor} (he : e ∈ c.walk) :
    (areKept scheme tables (e.node :: e.ancestors) ∧
        image scheme tables e ∈ (image scheme tables c).walk) ∨
      ∃ b ∈ c.walk, ∃ edit, replacement? scheme tables b = some edit ∧ e ∈ b.walk := by
  induction c using Cursor.induction_below with
  | step c ih =>
    cases h : replacement? scheme tables c with
    | some edit => exact .inr ⟨c, Cursor.mem_walk_self c, edit, h, he⟩
    | none =>
      rcases Cursor.mem_walk.mp he with rfl | ⟨b, hb, he⟩
      · exact .inl ⟨⟨h, hkept⟩, Cursor.mem_walk_self _⟩
      · have hbkept : areKept scheme tables b.ancestors := by
          rw [(Cursor.mem_below.mp hb).2.2]
          exact ⟨h, hkept⟩
        have hbimage : image scheme tables b ∈ (image scheme tables c).below := by
          rw [below_image json h]
          exact List.mem_map_of_mem hb
        rcases ih b hb hbkept he with ⟨hekept, himage⟩ | ⟨a, ha, hread⟩
        · exact .inl ⟨hekept, Cursor.mem_walk_of_below hbimage himage⟩
        · exact .inr ⟨a, Cursor.mem_walk_of_below hb ha, hread⟩

/-- What holds at all nodes afterwards, if it depends on what a node refers to and on whether it is
written, can be told from the nodes that are not replaced. -/
theorem forall_walk_image (hshaped : c.node.isShaped = true)
    (hkept : areKept scheme tables c.ancestors)
    {P : Except Access.Error (Option (Text × Text)) → Bool → Prop}
    (hnone : ∀ written, P (.ok none) written) :
    (∀ d ∈ (image scheme tables c).walk, P (d.node.proxyAccess scheme) d.isWritten) ↔
      ∀ e ∈ c.walk, replacement? scheme tables e = none →
        P (laterAccess scheme tables e.node) e.isWritten := by
  constructor
  · intro h e he hstays
    rcases image_mem_walk json hkept he with ⟨hekept, himage⟩ | ⟨b, hb, edit, hread, heb⟩
    · have hP := h _ himage
      rw [isWritten_image json hekept.2] at hP
      have heshaped := Cursor.isShaped_of_mem_walk hshaped he
      rwa [image, proxyAccess_substituted json heshaped hekept.1] at hP
    · rcases Cursor.mem_walk.mp heb with rfl | ⟨x, hx, hex⟩
      · rw [hstays] at hread
        cases hread
      · obtain ⟨⟨table, field, haccess⟩, -⟩ := exists_of_replacement? hread
        rw [laterAccess, Tree.accessBy_below (Cursor.isShaped_of_mem_walk hshaped hb)
          (Cursor.node_mem_namedChildren hx) (Cursor.node_mem_preorder hex) haccess]
        exact hnone _
  · intro h d hd
    rcases mem_walk_image json hkept hd with hplain | ⟨e, he, hekept, rfl⟩
    · rw [Tree.proxyAccess_of_not_isAccess hplain]
      exact hnone _
    · rw [isWritten_image json hekept.2, image,
        proxyAccess_substituted json (Cursor.isShaped_of_mem_walk hshaped he) hekept.1]
      exact h e he hekept.1

end

end Unproxy.Resolution
