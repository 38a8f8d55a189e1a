import Mathlib
import Unproxy.Proofs.Access.Nesting

/-!
# Unproxy.Proofs.Access.Shape

Which nodes are references through the namespaces of a scheme, said by their shape: a chain of links
from a variable, each with a name that the text tells. Parentheses and comments inside of them do
not matter around objects and indices.

Main definitions:

* `Tree.Encloses`, `Tree.Holds`: parentheses around an expression;
* `Tree.Spells`, `Tree.Dotted`, `Tree.Bracketed`, `Tree.Link`: a link of a chain and its name;
* `Tree.NamesKey`, `Tree.ReadsField`: chains of two and of three links;
* `Tree.indicesEvaluate`: nodes whose literals evaluate;
* `Tree.Regrouped`: trees that differ in parentheses around objects and indices.

Main statements:

* `Tree.namespaceKey_iff`, `Tree.proxyAccess_iff`: exactly the chains are references;
* `Tree.Regrouped.namespaceKey_eq`, `Tree.Regrouped.proxyAccess_eq`: parentheses do not matter.
-/

namespace Unproxy.Syntax.Tree

/-! ### Parentheses -/

/-- Punctuation or a comment: what does not count inside of parentheses. -/
def isAside (t : Tree) : Bool := !(t.isNamed && t.kind != .comment)

/-- A node that is another one in parentheses, with nothing but comments beside it. -/
inductive Encloses (p inner : Tree) : Prop
  | intro {before after : List Tree} (kind : p.kind = .parenthesized)
      (children : p.children = before ++ inner :: after)
      (aside : ∀ c ∈ before ++ after, c.isAside = true) (expression : inner.isAside = false)

/-- A node that is another one in any number of parentheses, be it none. -/
inductive Holds : Tree → Tree → Prop
  | bare {t : Tree} (kind : t.kind ≠ .parenthesized) : Holds t t
  | grouped {p inner u : Tree} (encloses : p.Encloses inner) (inside : Holds inner u) : Holds p u

theorem unwrappedFirst_append {before : List Tree} (h : ∀ c ∈ before, c.isAside = true)
    (ts : List Tree) : unwrappedFirst (before ++ ts) = unwrappedFirst ts := by
  induction before with
  | nil => rfl
  | cons c before ih =>
    obtain ⟨hc, hothers⟩ := List.forall_mem_cons.mp h
    rw [isAside, Bool.not_eq_true'] at hc
    rw [List.cons_append, unwrappedFirst, hc, if_neg Bool.false_ne_true, ih hothers]

theorem Encloses.unwrapped_eq {p inner : Tree} (h : p.Encloses inner) :
    p.unwrapped = inner.unwrapped := by
  obtain ⟨kind, children, aside, expression⟩ := h
  obtain ⟨_, role, start, stop, text, _⟩ := p
  dsimp only at kind children
  subst kind children
  rw [isAside, Bool.not_eq_false'] at expression
  rw [unwrapped, if_pos rfl, unwrappedFirst_append fun c hc => aside c (List.mem_append_left _ hc),
    unwrappedFirst, expression, if_pos rfl]

theorem filter_namedChildren (t : Tree) :
    (t.namedChildren.filter fun c => c.kind != .comment) =
      t.children.filter fun c => !c.isAside := by
  rw [namedChildren, List.filter_filter]
  refine List.filter_congr fun c _ => ?_
  rw [isAside, Bool.not_not, Bool.and_comm]

/-- Parentheses in a program have one expression in them. -/
theorem exists_encloses {p u : Tree} (hshaped : p.isShaped = true) (hkind : p.kind = .parenthesized)
    (hu : p.unwrapped = some u) :
    ∃ inner ∈ p.namedChildren, p.Encloses inner ∧ inner.unwrapped = some u := by
  have hshape := (isShaped_iff.mp hshaped).1
  simp only [hasShape, hkind, decide_eq_true_eq] at hshape
  rw [Tree.unwrapped_eq, if_pos hkind] at hu
  obtain ⟨inner, hinner, hu⟩ := Option.bind_eq_some_iff.mp hu
  have hmem := List.mem_of_head? hinner
  refine ⟨inner, (List.mem_filter.mp hmem).1, ?_, hu⟩
  rw [filter_namedChildren] at hmem hshape
  obtain ⟨hchild, hexpression⟩ := List.mem_filter.mp hmem
  obtain ⟨before, after, hchildren⟩ := List.append_of_mem hchild
  refine .intro hkind hchildren (fun c hc => ?_) (by simpa using hexpression)
  by_contra haside
  -- A second expression beside this one would be one too many.
  have hpositive : 0 < ((before ++ after).filter fun c => !c.isAside).length :=
    List.length_pos_of_mem (List.mem_filter.mpr ⟨hc, by simpa using haside⟩)
  rw [List.filter_append, List.length_append] at hpositive
  rw [hchildren, List.filter_append, List.length_append, List.filter_cons, if_pos hexpression,
    List.length_cons] at hshape
  omega

theorem holds_iff {t u : Tree} (hshaped : t.isShaped = true) :
    t.Holds u ↔ t.unwrapped = some u := by
  constructor
  · intro h
    clear hshaped
    induction h with
    | bare kind => rw [unwrapped_eq, if_neg kind]
    | grouped encloses _ ih => rw [encloses.unwrapped_eq, ih]
  · intro hu
    induction t using induction_named with
    | step t ih =>
      by_cases hkind : t.kind = .parenthesized
      · obtain ⟨inner, hmem, hencloses, hinner⟩ := exists_encloses hshaped hkind hu
        exact .grouped hencloses
          (ih inner hmem (isShaped_of_mem_namedChildren hshaped hmem) hinner)
      · rw [unwrapped_eq, if_neg hkind] at hu
        cases hu
        exact .bare hkind

/-! ### Links -/

/-- A literal and the name it gives as an index: a string its value, a number the way it is printed.
A number of any length, with `n` behind it, gives none. When these are the names in the language is
what `Tree.spells_iff_of_cooked` and `Tree.spells_iff_printed` say. -/
inductive Spells : Tree → Text → Prop
  | string {t : Tree} {name : Text} (kind : t.kind = .string) (value : t.stringValue = .ok name) :
      Spells t name
  | number {t : Tree} {name : Text} {n : Number} (kind : t.kind = .number)
      (value : Number.ofSpelling t.text = .ok (some n)) (spelling : n.spelling = .ok name) :
      Spells t name

/-- The link `object.name`, not optional. -/
structure Dotted (t object : Tree) (name : Text) : Prop where
  kind : t.kind = .member
  plain : t.child? .optionalChain = none
  object : ∃ o, t.child? .object = some o ∧ o.Holds object
  property : ∃ p, t.child? .property = some p ∧ p.kind = .propertyIdentifier ∧ p.text = name

/-- The link `object[name]`, not optional, with a literal for the name. -/
structure Bracketed (t object : Tree) (name : Text) : Prop where
  kind : t.kind = .subscript
  plain : t.child? .optionalChain = none
  object : ∃ o, t.child? .object = some o ∧ o.Holds object
  index : ∃ i literal, t.child? .index = some i ∧ i.Holds literal ∧ literal.Spells name

/-- A link with a name, in either spelling. -/
def Link (t object : Tree) (name : Text) : Prop := t.Dotted object name ∨ t.Bracketed object name

/-- The chain `root.space` with a link named `key` behind it. -/
def NamesKey (t : Tree) (root space key : Text) : Prop :=
  ∃ head v : Tree, t.Link head key ∧ head.Dotted v space ∧ v.kind = .identifier ∧ v.text = root

/-- The chain `root.proxy` with links behind it that are named for an encoded table and a field. -/
def ReadsField (t : Tree) (scheme : Scheme) (table field : Text) : Prop :=
  ∃ o : Tree, t.Link o field ∧ o.NamesKey scheme.root scheme.proxyNamespace table ∧
    table ∈ scheme.encodedTables

theorem spells_iff {t : Tree} {name : Text} : t.Spells name ↔ t.indexName = .ok (some name) := by
  constructor
  · intro h
    cases h with
    | string kind value => rw [indexName, kind]; simp only [value]; rfl
    | number kind value spelling =>
      rw [indexName, kind]
      simp only [value, spelling]
      rfl
  · intro h
    unfold indexName at h
    split at h
    · rename_i kind
      cases hvalue : t.stringValue with
      | error e => rw [hvalue] at h; cases h
      | ok value =>
        rw [hvalue] at h
        cases h
        exact .string kind hvalue
    · rename_i kind
      split at h
      · cases h
      · cases h
      · rename_i n hvalue
        cases hspelling : n.spelling with
        | error e => rw [hspelling] at h; cases h
        | ok spelling =>
          rw [hspelling] at h
          cases h
          exact .number kind hvalue hspelling
    · cases h

theorem isShaped_of_child? {t c : Tree} {role : Role} (hshaped : t.isShaped = true)
    (hc : t.child? role = some c) : c.isShaped = true :=
  (isShaped_iff.mp hshaped).2 c (List.mem_of_find?_eq_some hc)

theorem object?_eq_some_iff {t object : Tree} (hshaped : t.isShaped = true) :
    t.object? = some object ↔ ∃ o, t.child? .object = some o ∧ o.Holds object := by
  rw [object?, Option.bind_eq_some_iff]
  constructor
  · rintro ⟨o, ho, hu⟩
    exact ⟨o, ho, (holds_iff (isShaped_of_child? hshaped ho)).mpr hu⟩
  · rintro ⟨o, ho, hu⟩
    exact ⟨o, ho, (holds_iff (isShaped_of_child? hshaped ho)).mp hu⟩

theorem dotted_iff {t object : Tree} {name : Text} (hshaped : t.isShaped = true) :
    t.Dotted object name ↔
      t.isPlainDotted = true ∧ t.object? = some object ∧ t.propertyName = .ok (some name) := by
  rw [object?_eq_some_iff hshaped, isPlainDotted, isPlainMember]
  constructor
  · rintro ⟨kind, plain, object, p, hp, hkind, rfl⟩
    refine ⟨by rw [kind, plain]; rfl, object, ?_⟩
    rw [propertyName, if_pos kind, hp]
    simp only [hkind, if_true]
  · rintro ⟨hplain, object, hname⟩
    simp only [Bool.and_eq_true, beq_iff_eq, Option.isNone_iff_eq_none] at hplain
    obtain ⟨kind, -, plain⟩ := hplain
    rw [propertyName, if_pos kind] at hname
    refine ⟨kind, plain, object, ?_⟩
    cases hp : t.child? .property with
    | none => rw [hp] at hname; cases hname
    | some p =>
      rw [hp] at hname
      dsimp only at hname
      split at hname
      · rename_i hkind
        cases hname
        exact ⟨p, rfl, hkind, rfl⟩
      · cases hname

theorem bracketed_iff {t object : Tree} {name : Text} (hshaped : t.isShaped = true) :
    t.Bracketed object name ↔ (t.kind = .subscript ∧ t.isPlainMember = true) ∧
      t.object? = some object ∧ t.propertyName = .ok (some name) := by
  rw [object?_eq_some_iff hshaped, isPlainMember]
  constructor
  · rintro ⟨kind, plain, object, i, literal, hi, hholds, hspells⟩
    refine ⟨⟨kind, by rw [kind, plain]; rfl⟩, object, ?_⟩
    rw [propertyName, if_neg (by rw [kind]; decide), hi, Option.bind_some,
      (holds_iff (isShaped_of_child? hshaped hi)).mp hholds]
    exact spells_iff.mp hspells
  · rintro ⟨⟨kind, hplain⟩, object, hname⟩
    rw [Bool.and_eq_true, Option.isNone_iff_eq_none] at hplain
    refine ⟨kind, hplain.2, object, ?_⟩
    cases hi : t.child? .index with
    | none =>
      rw [propertyName, if_neg (by rw [kind]; decide), hi] at hname
      cases hname
    | some i =>
      obtain ⟨literal, hholds, hspells⟩ :=
        exists_index_of_propertyName (by rw [kind]; decide) hname hi
      exact ⟨i, literal, rfl, (holds_iff (isShaped_of_child? hshaped hi)).mpr hholds,
        spells_iff.mpr hspells⟩

theorem link_iff {t object : Tree} {name : Text} (hshaped : t.isShaped = true) :
    t.Link object name ↔
      t.isPlainMember = true ∧ t.object? = some object ∧ t.propertyName = .ok (some name) := by
  rw [Link, dotted_iff hshaped, bracketed_iff hshaped, ← or_and_right]
  refine and_congr_left fun _ => ?_
  rw [isPlainDotted]
  simp only [isPlainMember, Bool.and_eq_true, Bool.or_eq_true, beq_iff_eq]
  tauto

/-! ### Chains -/

theorem isNamespace_iff {t : Tree} {root name : Text} (hshaped : t.isShaped = true) :
    t.isNamespace root name = .ok true ↔
      ∃ v : Tree, t.Dotted v name ∧ v.kind = .identifier ∧ v.text = root := by
  constructor
  · intro h
    obtain ⟨-, hname, v, hv, hkind, htext⟩ := exists_of_isNamespace h
    refine ⟨v, (dotted_iff hshaped).mpr ⟨?_, hv, hname⟩, hkind, htext⟩
    unfold isNamespace at h
    split at h
    · rename_i hplain
      exact (Bool.and_eq_true _ _ ▸ hplain).1
    · cases h
  · rintro ⟨v, hdotted, hkind, htext⟩
    obtain ⟨hplain, hv, hname⟩ := (dotted_iff hshaped).mp hdotted
    have hroot : v.isIdentifier root = true := by rw [isIdentifier, hkind, htext]; simp
    rw [isNamespace, hplain, hv, Option.map_some, Option.getD_some, hroot, hname]
    simp [Except.map]

/-- A node names a key of a namespace exactly if it is a chain of two links, the first of them
dotted. -/
theorem namespaceKey_iff {t : Tree} {root space key : Text} (hshaped : t.isShaped = true) :
    t.namespaceKey root space = .ok (some key) ↔ t.NamesKey root space key := by
  constructor
  · intro h
    obtain ⟨-, hname, head, hhead, hspace⟩ := exists_of_namespaceKey h
    obtain ⟨v, hdotted, hroot⟩ := (isNamespace_iff (isShaped_of_object? hshaped hhead)).mp hspace
    refine ⟨head, v, (link_iff hshaped).mpr ⟨?_, hhead, hname⟩, hdotted, hroot⟩
    unfold namespaceKey at h
    split at h
    · assumption
    · cases h
  · rintro ⟨head, v, hlink, hdotted, hroot⟩
    obtain ⟨hplain, hhead, hname⟩ := (link_iff hshaped).mp hlink
    have hspace := (isNamespace_iff (isShaped_of_object? hshaped hhead)).mpr ⟨v, hdotted, hroot⟩
    rw [namespaceKey, hplain, hhead]
    simp only [if_true, hspace, bind, Except.bind, hname]

/-- A node reads a table exactly if it is a chain of three links, the first of them dotted and the
second named for an encoded table. -/
theorem proxyAccess_iff {t : Tree} {scheme : Scheme} {table field : Text}
    (hshaped : t.isShaped = true) :
    t.proxyAccess scheme = .ok (some (table, field)) ↔ t.ReadsField scheme table field := by
  constructor
  · intro h
    have htable := mem_encodedTables_of_proxyAccess h
    obtain ⟨-, hname, o, ho, hkey⟩ := exists_of_proxyAccess h
    refine ⟨o, (link_iff hshaped).mpr ⟨?_, ho, hname⟩,
      (namespaceKey_iff (isShaped_of_object? hshaped ho)).mp hkey, htable⟩
    unfold proxyAccess at h
    split at h
    · rw [ho] at h
      simp only [hkey, bind, Except.bind] at h
      split at h
      · rename_i hplain
        exact (Bool.and_eq_true _ _ ▸ hplain).2
      · cases h
    · cases h
  · rintro ⟨o, hlink, hkey, htable⟩
    obtain ⟨hplain, ho, hname⟩ := (link_iff hshaped).mp hlink
    have hkey := (namespaceKey_iff (isShaped_of_object? hshaped ho)).mpr hkey
    have haccess : (t.kind == .member || t.kind == .subscript) = true := by
      rw [isPlainMember, Bool.and_eq_true] at hplain
      exact hplain.1
    rw [proxyAccess, haccess, ho]
    simp only [if_true, hkey, bind, Except.bind, Entries.has_iff.mpr htable, hplain, Bool.and_self,
      hname]
    rfl

/-! ### Nodes whose literals evaluate -/

/-- Whether all literals that stand as indices in a subtree evaluate. -/
def indicesEvaluate (t : Tree) : Bool :=
  t.preorder.all fun x => ((x.child? .index).bind unwrapped).all fun i => i.indexName.isOk

theorem object?_mem_preorder {t o : Tree} (hshaped : t.isShaped = true)
    (haccess : t.isAccess = true) (ho : t.object? = some o) : o ∈ t.preorder := by
  obtain ⟨c, hc, hu⟩ := Option.bind_eq_some_iff.mp ho
  have hrole : c.role = some .object := by simpa using List.find?_some hc
  have hmem := List.mem_of_find?_eq_some hc
  have hroles : ∃ roles, t.hasOnly (.object :: roles) = true := by
    have hshape := (isShaped_iff.mp hshaped).1
    rcases isAccess_iff.mp haccess with hkind | hkind <;>
      · simp only [hasShape, hkind, Bool.and_eq_true] at hshape
        exact ⟨_, hshape.1⟩
  obtain ⟨roles, hroles⟩ := hroles
  rw [hasOnly, Bool.and_eq_true, List.all_eq_true] at hroles
  have hnamed : c.isNamed = true := by simpa [hrole] using hroles.1 c hmem
  exact mem_preorder.mpr
    (.inr ⟨c, mem_namedChildren.mpr ⟨hmem, hnamed⟩, unwrapped_mem_preorder hu⟩)

section

variable {t : Tree} (h : t.indicesEvaluate = true)

include h

theorem exists_propertyName : ∃ name, t.propertyName = .ok name := by
  unfold propertyName
  split
  · split <;> exact ⟨_, rfl⟩
  · split
    · rename_i i hi
      have hindex := List.all_eq_true.mp h t (mem_preorder_self t)
      rw [hi, Option.all_some] at hindex
      exact ⟨_, eq_ok_of_isOk hindex none⟩
    · exact ⟨_, rfl⟩

theorem indicesEvaluate_of_object? (hshaped : t.isShaped = true) (haccess : t.isAccess = true)
    {o : Tree} (ho : t.object? = some o) : o.indicesEvaluate = true := by
  rw [indicesEvaluate, List.all_eq_true]
  intro x hx
  have hmem := mem_preorder_trans (object?_mem_preorder hshaped haccess ho) hx
  exact List.all_eq_true.mp h x hmem

theorem exists_namespaceKey (hshaped : t.isShaped = true) (root space : Text) :
    ∃ key, t.namespaceKey root space = .ok key := by
  obtain ⟨name, hname⟩ := exists_propertyName h
  rw [namespaceKey]
  split
  · rename_i hplain
    rw [isPlainMember, Bool.and_eq_true] at hplain
    split
    · rename_i head hhead
      have hspace : ∃ b, head.isNamespace root space = .ok b := by
        obtain ⟨found, hfound⟩ :=
          exists_propertyName (indicesEvaluate_of_object? h hshaped hplain.1 hhead)
        rw [isNamespace, hfound]
        split <;> exact ⟨_, rfl⟩
      obtain ⟨b, hspace⟩ := hspace
      rw [hspace, hname]
      cases b <;> exact ⟨_, rfl⟩
    · exact ⟨_, rfl⟩
  · exact ⟨_, rfl⟩

theorem exists_proxyAccess (hshaped : t.isShaped = true) (scheme : Scheme) :
    ∃ access, t.proxyAccess scheme = .ok access := by
  obtain ⟨name, hname⟩ := exists_propertyName h
  rw [proxyAccess]
  split
  · rename_i haccess
    split
    · rename_i o ho
      obtain ⟨key, hkey⟩ := exists_namespaceKey (indicesEvaluate_of_object? h hshaped haccess ho)
        (isShaped_of_object? hshaped ho) scheme.root scheme.proxyNamespace
      rw [hkey, hname]
      cases key with
      | none => exact ⟨_, rfl⟩
      | some table =>
        simp only [bind, Except.bind]
        split <;> exact ⟨_, rfl⟩
    · exact ⟨_, rfl⟩
  · exact ⟨_, rfl⟩

end

/-! ### Parentheses do not matter -/

mutual

/-- Two trees that differ in parentheses around objects and indices only, wherever these stand, and
in the places of nodes in the source. -/
inductive Regrouped : Tree → Tree → Prop
  | intro {t t' : Tree} (kind : t'.kind = t.kind) (text : t'.text = t.text)
      (children : RegroupedRow t.isAccess t.children t'.children) : Regrouped t t'

/-- Two rows of trees that differ in parentheses only. Below a property there may be parentheses
around the object or the index in one row that are not there in the other. -/
inductive RegroupedRow : Bool → List Tree → List Tree → Prop
  | nil {access : Bool} : RegroupedRow access [] []
  | cons {access : Bool} {t t' : Tree} {ts ts' : List Tree} (role : t'.role = t.role)
      (first : Regrouped t t') (others : RegroupedRow access ts ts') :
      RegroupedRow access (t :: ts) (t' :: ts')
  | group {t p inner : Tree} {ts ts' : List Tree}
      (role : t.role = some .object ∨ t.role = some .index) (same : p.role = t.role)
      (encloses : p.Encloses inner) (first : Regrouped t inner)
      (others : RegroupedRow true ts ts') :
      RegroupedRow true (t :: ts) (p :: ts')
  | ungroup {t p inner : Tree} {ts ts' : List Tree}
      (role : p.role = some .object ∨ p.role = some .index) (same : t.role = p.role)
      (encloses : p.Encloses inner) (first : Regrouped inner t)
      (others : RegroupedRow true ts ts') :
      RegroupedRow true (p :: ts) (t :: ts')

end

/-- Two nodes that differ in parentheses around or inside of them. -/
def Alike (t t' : Tree) : Prop :=
  Regrouped t t' ∨ (∃ inner, t'.Encloses inner ∧ Regrouped t inner) ∨
    ∃ inner, t.Encloses inner ∧ Regrouped inner t'

namespace Regrouped

variable {t t' : Tree}

theorem kind_eq (h : Regrouped t t') : t'.kind = t.kind := by
  obtain ⟨kind, -, -⟩ := h
  exact kind

theorem text_eq (h : Regrouped t t') : t'.text = t.text := by
  obtain ⟨-, text, -⟩ := h
  exact text

theorem isAside_eq (h : Regrouped t t') : t'.isAside = t.isAside := by
  rw [isAside, isAside, isNamed, isNamed, h.kind_eq]

/-- Where no parentheses may come or go, the first expressions of two rows differ as the rows do. -/
theorem unwrappedFirst_rel {ts ts' : List Tree} (h : RegroupedRow false ts ts')
    (hts : ∀ c ∈ ts, c.isAside = false → ∀ c', Regrouped c c' →
      Option.Rel Regrouped c.unwrapped c'.unwrapped) :
    Option.Rel Regrouped (unwrappedFirst ts) (unwrappedFirst ts') := by
  induction ts generalizing ts' with
  | nil =>
    cases h
    exact .none
  | cons c ts ih =>
    cases h with
    | @cons _ _ c' _ ts' role first others =>
      obtain ⟨hc, hothers⟩ := List.forall_mem_cons.mp hts
      have haside := first.isAside_eq
      rw [unwrappedFirst, unwrappedFirst]
      cases hcase : c.isAside with
      | true =>
        rw [hcase] at haside
        rw [isAside, Bool.not_eq_true'] at hcase haside
        rw [hcase, haside]
        exact ih others hothers
      | false =>
        have hrel := hc hcase c' first
        rw [hcase] at haside
        rw [isAside, Bool.not_eq_false'] at hcase haside
        rw [hcase, haside]
        exact hrel

theorem unwrapped_rel (h : Regrouped t t') : Option.Rel Regrouped t.unwrapped t'.unwrapped := by
  induction t using induction_named generalizing t' with
  | step t ih =>
    have hparts := h
    obtain ⟨kind, -, children⟩ := hparts
    obtain ⟨k, role, start, stop, text, ts⟩ := t
    obtain ⟨k', role', start', stop', text', ts'⟩ := t'
    dsimp only at kind children
    subst kind
    rw [unwrapped, unwrapped]
    by_cases hkind : k' = .parenthesized
    · rw [if_pos hkind, if_pos hkind]
      have haccess : isAccess ⟨k', role, start, stop, text, ts⟩ = false := by
        simp [isAccess, hkind]
      rw [haccess] at children
      refine unwrappedFirst_rel children fun c hc hexpression c' => ih c ?_
      rw [isAside, Bool.not_eq_false', Bool.and_eq_true] at hexpression
      exact mem_namedChildren.mpr ⟨hc, hexpression.1⟩
    · rw [if_neg hkind, if_neg hkind]
      exact .some h

end Regrouped

theorem Alike.unwrapped_rel {t t' : Tree} (h : Alike t t') :
    Option.Rel Regrouped t.unwrapped t'.unwrapped := by
  rcases h with h | ⟨inner, hencloses, h⟩ | ⟨inner, hencloses, h⟩
  · exact h.unwrapped_rel
  · rw [hencloses.unwrapped_eq]
    exact h.unwrapped_rel
  · rw [hencloses.unwrapped_eq]
    exact h.unwrapped_rel

namespace RegroupedRow

/-- Children in the same role differ in parentheses, and only those that are objects or indices in
parentheses around them. -/
theorem find?_rel {access : Bool} {ts ts' : List Tree} (h : RegroupedRow access ts ts')
    (role : Role) :
    Option.Rel (fun c c' => Alike c c' ∧ (role ≠ .object → role ≠ .index → Regrouped c c'))
      (ts.find? (·.role == some role)) (ts'.find? (·.role == some role)) := by
  induction ts generalizing ts' with
  | nil =>
    cases h
    exact .none
  | cons c ts ih =>
    have hstep : ∀ {c' : Tree} {ts' : List Tree}, c'.role = c.role → Alike c c' →
        (role ≠ .object → role ≠ .index → c.role = some role → Regrouped c c') →
        RegroupedRow access ts ts' →
        Option.Rel (fun c c' => Alike c c' ∧ (role ≠ .object → role ≠ .index → Regrouped c c'))
          ((c :: ts).find? (·.role == some role)) ((c' :: ts').find? (·.role == some role)) := by
      intro c' ts' hrole halike hstrict hothers
      rw [List.find?_cons, List.find?_cons, hrole]
      cases hfound : c.role == some role with
      | true => exact .some ⟨halike, fun h₁ h₂ => hstrict h₁ h₂ (by simpa using hfound)⟩
      | false => exact ih hothers
    cases h with
    | cons same first others => exact hstep same (.inl first) (fun _ _ _ => first) others
    | @group _ p inner _ _ place same encloses first others =>
      refine hstep same (.inr (.inl ⟨inner, encloses, first⟩)) (fun h₁ h₂ hrole => ?_) others
      rw [hrole, Option.some.injEq, Option.some.injEq] at place
      exact absurd place (by simp [h₁, h₂])
    | @ungroup t' _ inner _ _ place same encloses first others =>
      refine hstep same (.inr (.inr ⟨inner, encloses, first⟩)) (fun h₁ h₂ hrole => ?_) others
      rw [hrole, Option.some.injEq, Option.some.injEq] at place
      exact absurd place (by simp [h₁, h₂])

theorem mapM_partValue {ts ts' : List Tree} (h : RegroupedRow false ts ts') :
    (ts'.filter isNamed).mapM Access.partValue = (ts.filter isNamed).mapM Access.partValue := by
  induction ts generalizing ts' with
  | nil =>
    cases h
    rfl
  | cons c ts ih =>
    cases h with
    | @cons _ _ c' _ ts' role first others =>
      have hnamed : c'.isNamed = c.isNamed := by rw [isNamed, isNamed, first.kind_eq]
      have hvalue : Access.partValue c' = Access.partValue c := by
        rw [Access.partValue, Access.partValue, first.kind_eq, first.text_eq]
      rw [List.filter_cons, List.filter_cons, hnamed]
      split
      · rw [List.mapM_cons, List.mapM_cons, hvalue, ih others]
      · exact ih others

end RegroupedRow

namespace Regrouped

variable {t t' : Tree}

theorem child?_rel (h : Regrouped t t') (role : Role) :
    Option.Rel (fun c c' => Alike c c' ∧ (role ≠ .object → role ≠ .index → Regrouped c c'))
      (t.child? role) (t'.child? role) := by
  obtain ⟨-, -, children⟩ := h
  exact children.find?_rel role

theorem bind_unwrapped_rel (h : Regrouped t t') (role : Role) :
    Option.Rel Regrouped ((t.child? role).bind unwrapped) ((t'.child? role).bind unwrapped) := by
  have hchild := h.child?_rel role
  revert hchild
  generalize t.child? role = c, t'.child? role = c'
  rintro (⟨halike, -⟩ | _)
  · exact halike.unwrapped_rel
  · exact .none

theorem object?_rel (h : Regrouped t t') : Option.Rel Regrouped t.object? t'.object? :=
  h.bind_unwrapped_rel .object

theorem isPlainMember_eq (h : Regrouped t t') : t'.isPlainMember = t.isPlainMember := by
  have hchain : (t'.child? .optionalChain).isNone = (t.child? .optionalChain).isNone := by
    have hchild := h.child?_rel .optionalChain
    revert hchild
    generalize t.child? .optionalChain = c, t'.child? .optionalChain = c'
    rintro (_ | _) <;> rfl
  rw [isPlainMember, isPlainMember, h.kind_eq, hchain]

theorem stringValue_eq (h : Regrouped t t') (hkind : t.kind = .string) :
    t'.stringValue = t.stringValue := by
  obtain ⟨-, -, children⟩ := h
  have haccess : t.isAccess = false := by simp [isAccess, hkind]
  rw [haccess] at children
  rw [stringValue, stringValue, namedChildren, namedChildren, children.mapM_partValue]

theorem indexName_eq (h : Regrouped t t') : t'.indexName = t.indexName := by
  unfold indexName
  rw [h.kind_eq, h.text_eq]
  split
  · rename_i hkind
    rw [h.stringValue_eq hkind]
  · rfl
  · rfl

theorem propertyName_eq (h : Regrouped t t') : t'.propertyName = t.propertyName := by
  unfold propertyName
  rw [h.kind_eq]
  split
  · have hproperty := h.child?_rel .property
    revert hproperty
    generalize t.child? .property = c, t'.child? .property = c'
    rintro (⟨-, hsame⟩ | _)
    · have hsame := hsame (by decide) (by decide)
      simp only [hsame.kind_eq, hsame.text_eq]
    · rfl
  · have hindex := h.bind_unwrapped_rel .index
    revert hindex
    generalize (t.child? .index).bind unwrapped = i, (t'.child? .index).bind unwrapped = i'
    rintro (hsame | _)
    · exact hsame.indexName_eq
    · rfl

theorem isNamespace_eq (h : Regrouped t t') (root space : Text) :
    t'.isNamespace root space = t.isNamespace root space := by
  have hroot : (t'.object?.map fun object => object.isIdentifier root) =
      t.object?.map fun object => object.isIdentifier root := by
    have hobject := h.object?_rel
    generalize t.object? = o, t'.object? = o' at hobject ⊢
    obtain hsame | _ := hobject
    · simp only [Option.map_some, isIdentifier, hsame.kind_eq, hsame.text_eq]
    · rfl
  rw [isNamespace, isNamespace, isPlainDotted, isPlainDotted, h.kind_eq, h.isPlainMember_eq, hroot,
    h.propertyName_eq]

theorem namespaceKey_eq (h : Regrouped t t') (root space : Text) :
    t'.namespaceKey root space = t.namespaceKey root space := by
  have hobject := h.object?_rel
  unfold namespaceKey
  rw [h.isPlainMember_eq, h.propertyName_eq]
  generalize t.object? = o, t'.object? = o' at hobject ⊢
  obtain hsame | _ := hobject
  · simp only [hsame.isNamespace_eq root space]
  · rfl

theorem proxyAccess_eq (h : Regrouped t t') (scheme : Scheme) :
    t'.proxyAccess scheme = t.proxyAccess scheme := by
  have hobject := h.object?_rel
  unfold proxyAccess
  rw [h.kind_eq, h.isPlainMember_eq, h.propertyName_eq]
  generalize t.object? = o, t'.object? = o' at hobject ⊢
  obtain hsame | _ := hobject
  · simp only [hsame.namespaceKey_eq scheme.root scheme.proxyNamespace]
  · rfl

end Regrouped

/-- References are matched by their shape, and by nothing else. A node with the parts that the grammar
asks for, whose indices evaluate, is looked at without a failure. It reads a field of a table exactly
if it is a chain of three links with these names, and it names a key of a namespace exactly if it is
a chain of two. Parentheses put around any object or index, or taken away, change nothing. -/
theorem references_iff_chains {t : Tree} (shaped : t.isShaped = true)
    (evaluates : t.indicesEvaluate = true) (scheme : Scheme) (root space : Text) :
    ((∃ access, t.proxyAccess scheme = .ok access) ∧
      ∀ table field, t.proxyAccess scheme = .ok (some (table, field)) ↔
        t.ReadsField scheme table field) ∧
    ((∃ key, t.namespaceKey root space = .ok key) ∧
      ∀ key, t.namespaceKey root space = .ok (some key) ↔ t.NamesKey root space key) ∧
    ∀ t', Relation.ReflTransGen Regrouped t t' →
      t'.proxyAccess scheme = t.proxyAccess scheme ∧
        t'.namespaceKey root space = t.namespaceKey root space := by
  refine ⟨⟨exists_proxyAccess evaluates shaped scheme, fun table field => proxyAccess_iff shaped⟩,
    ⟨exists_namespaceKey evaluates shaped root space, fun key => namespaceKey_iff shaped⟩,
    fun t' h => ?_⟩
  induction h with
  | refl => exact ⟨rfl, rfl⟩
  | tail _ hstep ih =>
    exact ⟨(hstep.proxyAccess_eq scheme).trans ih.1,
      (hstep.namespaceKey_eq root space).trans ih.2⟩

/-- The node of `a.H["z"].f`, and the same with parentheses, one of them with a comment, around the
namespace and the index. -/
theorem references_iff_chains_sample :
    let token := fun (start stop : Nat) (text : String) => leaf .token start stop text.toText
    let group := fun inside => node .parenthesized ([token 0 1 "("] ++ inside ++ [token 8 9 ")"])
    let space := node .member [(leaf .identifier 0 1 "a".toText).as .object, token 1 2 ".",
      (leaf .propertyIdentifier 2 3 "H".toText).as .property]
    let index := node .string [token 4 5 "\"", leaf .stringFragment 5 6 "z".toText, token 6 7 "\""]
    let table := fun (space index : Tree) => node .subscript [space.as .object, token 3 4 "[",
      index.as .index, token 7 8 "]"]
    let read := fun table : Tree => node .member [table.as .object, token 8 9 ".",
      (leaf .propertyIdentifier 9 10 "f".toText).as .property]
    let t := read (table space index)
    let t' := read (table (group [leaf .comment 1 5 "/**/".toText, space]) (group [index]))
    t.isShaped = true ∧ t.indicesEvaluate = true ∧
      t.ReadsField Scheme.standard "z".toText "f".toText ∧
      t'.proxyAccess Scheme.standard = .ok (some ("z".toText, "f".toText)) := by
  intro token group space index table read t t'
  have hshaped : t.isShaped = true := by decide +kernel
  have hevaluates : t.indicesEvaluate = true := by decide +kernel
  have haccess : t.proxyAccess Scheme.standard = .ok (some ("z".toText, "f".toText)) := by
    decide +kernel
  obtain ⟨⟨-, hreads⟩, -, hregrouped⟩ :=
    references_iff_chains hshaped hevaluates Scheme.standard [] []
  have hspace : Regrouped (space.as .object) space :=
    .intro rfl rfl (.cons rfl (.intro rfl rfl .nil) (.cons rfl (.intro rfl rfl .nil)
      (.cons rfl (.intro rfl rfl .nil) .nil)))
  have hindex : Regrouped (index.as .index) index :=
    .intro rfl rfl (.cons rfl (.intro rfl rfl .nil) (.cons rfl (.intro rfl rfl .nil)
      (.cons rfl (.intro rfl rfl .nil) .nil)))
  have haround : ((group [leaf .comment 1 5 "/**/".toText, space]).as .object).Encloses space :=
    @Encloses.intro _ _ [token 0 1 "(", leaf .comment 1 5 "/**/".toText] [token 8 9 ")"] rfl rfl
      (by decide +kernel) (by decide +kernel)
  have haround' : ((group [index]).as .index).Encloses index :=
    @Encloses.intro _ _ [token 0 1 "("] [token 8 9 ")"] rfl rfl (by decide +kernel)
      (by decide +kernel)
  have htable : RegroupedRow true (table space index).children
      (table (group [leaf .comment 1 5 "/**/".toText, space]) (group [index])).children :=
    .group (.inl rfl) rfl haround hspace (.cons rfl (.intro rfl rfl .nil)
      (.group (.inr rfl) rfl haround' hindex (.cons rfl (.intro rfl rfl .nil) .nil)))
  have hstep : Regrouped t t' :=
    .intro rfl rfl (.cons rfl (.intro rfl rfl htable) (.cons rfl (.intro rfl rfl .nil)
      (.cons rfl (.intro rfl rfl .nil) .nil)))
  exact ⟨hshaped, hevaluates, (hreads _ _).mp haccess,
    (hregrouped t' (.single hstep)).1.trans haccess⟩

end Unproxy.Syntax.Tree
