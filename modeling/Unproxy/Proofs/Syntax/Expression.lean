import Mathlib
import Unproxy.Syntax.Expression
import Unproxy.Proofs.Syntax.Definition

/-!
# Unproxy.Proofs.Syntax.Expression

The trees of expressions fit the source and are named nodes, provided that those one level
down are.

Main statements:

* `Parser.passed_memberTail`: properties have an object and a point or brackets;
* `Parser.reads_leftHandSide`, `Parser.reads_construct`, `Parser.reads_unary`,
  `Parser.reads_binary`, `Parser.reads_assignment`: the levels of the grammar.
-/

namespace Unproxy.Syntax

/-! ### Properties and assignments -/

namespace Tree

@[simp] theorem role_as (t : Tree) (role : Role) : (t.as role).role = some role := rfl

@[simp] theorem isNamed_as (t : Tree) (role : Role) : (t.as role).isNamed = t.isNamed := rfl

@[simp] theorem isAtom_as (t : Tree) (role : Role) : (t.as role).isAtom = t.isAtom := rfl

@[simp] theorem children_node (kind : Kind) (ts : List Tree) : (node kind ts).children = ts := rfl

/-- A point, a question mark with a point, or brackets. -/
structure IsMark (t : Tree) : Prop where
  role : t.role = none ∨ t.role = some .optionalChain
  atom : t.isNamed = true → t.isAtom = true
  lt : t.start < t.stop

theorem IsMark.role_ne {t : Tree} (h : t.IsMark) {role : Role} (hrole : role ≠ .optionalChain) :
    t.role ≠ some role := by
  rcases h.role with h | h
  · simp [h]
  · simp [h, hrole.symm]

theorem IsMark.isNamed_or {t : Tree} (h : t.IsMark) : t.isNamed = false ∨ t.isAtom = true := by
  cases hnamed : t.isNamed with
  | false => exact .inl rfl
  | true => exact .inr (h.atom hnamed)

theorem isMark_of_isLeaf {t : Tree} {lexeme : Text} (h : t.IsLeaf .token lexeme)
    (hlexeme : 0 < Scan.byteLength lexeme) : t.IsMark := by
  obtain ⟨start, rfl⟩ := h
  exact ⟨.inl rfl, fun hnamed => Bool.noConfusion hnamed, Nat.lt_add_of_pos_right hlexeme⟩

end Tree

namespace Scan.PassedFrom

variable {source : Text} {s s₁ : Scan} {ts : List Tree}

/-- A node with a part that takes up a byte takes up one. -/
theorem start_lt_stop (h : Passed source s ts s₁) (kind : Kind) {t : Tree} (ht : t ∈ ts)
    (hlt : t.start < t.stop) : (Tree.node kind ts).start < (Tree.node kind ts).stop := by
  obtain ⟨first, last, hfirst, hlast, -, -, -, -, hnested⟩ :=
    Spanned.ends_of_areNested h.nested (List.ne_nil_of_mem ht)
  obtain ⟨-, hstart, hstop⟩ := Tree.isNested_of_mem hnested ht
  simp only [Tree.node, hfirst, hlast, Option.map_some, Option.getD_some]
  omega

/-- A node is longer than what stands before or behind a mark in it. -/
theorem exceeds {before behind : List Tree} {mark : Tree}
    (h : Passed source s (before ++ mark :: behind) s₁) (hmark : mark.IsMark) (kind : Kind) :
    (Tree.node kind (before ++ mark :: behind)).Exceeds := by
  obtain ⟨first, last, hfirst, hlast, -, -, -, -, hnested⟩ :=
    Spanned.ends_of_areNested h.nested (by simp)
  obtain ⟨middle, hbefore, hrest⟩ := Tree.exists_areNested_append hnested
  obtain ⟨hstart, -, hbehind⟩ := Tree.areNested_cons.mp hrest
  have hlt := hmark.lt
  have hlow := Tree.le_of_areNested before hbefore
  have hhigh := Tree.le_of_areNested behind hbehind
  intro _ c hc hnamed hatom
  simp only [Tree.node, hfirst, hlast, Option.map_some, Option.getD_some]
  rcases List.mem_append.mp hc with hc | hc
  · have := (Tree.isNested_of_mem hbefore hc).2.2
    exact .inr (by omega)
  · rcases List.mem_cons.mp hc with rfl | hc
    · rw [hmark.atom hnamed] at hatom
      cases hatom
    · have := (Tree.isNested_of_mem hbehind hc).2.1
      exact .inl (by omega)

/-- A property by its name. -/
theorem member {object point property : Tree}
    (h : Passed source s [object.as .object, point, property.as .property] s₁)
    (hobject : object.isNamed = true) (hpoint : point.IsMark) (hproperty : property.isAtom = true) :
    Passed source s [Tree.node .member [object.as .object, point, property.as .property]] s₁ := by
  have hexceeds : (Tree.node .member ([object.as .object] ++ point :: [property.as .property])).Exceeds :=
    h.exceeds hpoint .member
  refine h.node (by simp) (Bool.and_eq_true_iff.mpr ⟨?_, ?_⟩) hexceeds
  · simp [Tree.hasOnly, hpoint.role_ne, hobject, hpoint.isNamed_or, hproperty]
  · exact decide_eq_true (h.start_lt_stop .member (by simp) hpoint.lt)

/-- A property by an index, with or without a question mark. -/
theorem subscript {object index opening closing : Tree} (chain : List Tree)
    (h : Passed source s (object.as .object :: chain ++ [opening, index.as .index, closing]) s₁)
    (hobject : object.isNamed = true) (hindex : index.isNamed = true)
    (hopening : opening.IsMark) (hclosing : closing.IsMark) (hchain : ∀ mark ∈ chain, mark.IsMark) :
    Passed source s
      [Tree.node .subscript (object.as .object :: chain ++ [opening, index.as .index, closing])]
      s₁ := by
  refine h.node (by simp) (Bool.and_eq_true_iff.mpr ⟨?_, ?_⟩) (h.exceeds hopening .subscript)
  · have hnone : ∀ role, role ≠ .optionalChain →
        chain.filter (fun c => c.role == some role) = [] := by
      intro role hrole
      rw [List.filter_eq_nil_iff]
      intro mark hmark
      simp [(hchain mark hmark).role_ne hrole]
    have hmarks : ∀ mark ∈ chain, if mark.role = some .object ∨ mark.role = some .index then
        mark.isNamed = true else mark.isNamed = false ∨ mark.isAtom = true := by
      intro mark hmark
      simp [(hchain mark hmark).role_ne, (hchain mark hmark).isNamed_or]
    simpa [Tree.hasOnly, hobject, hindex, List.filter_cons, hnone, hopening.role_ne,
      hclosing.role_ne, hopening.isNamed_or, hclosing.isNamed_or] using hmarks
  · exact decide_eq_true (h.start_lt_stop .subscript (t := opening) (by simp) hopening.lt)

/-- What is assigned to, an equals sign and a value. -/
theorem assignment {left equals right : Tree}
    (h : Passed source s [left.as .left, equals, right.as .right] s₁)
    (hleft : left.isNamed = true) (hequals : equals.IsMark) (hright : right.isNamed = true) :
    Passed source s [Tree.node .assignment [left.as .left, equals, right.as .right]] s₁ := by
  have honly : (Tree.node .assignment [left.as .left, equals, right.as .right]).hasOnly
      [.left, .right] = true := by
    simp [Tree.hasOnly, List.filter_cons, hleft, hequals.role_ne, hequals.isNamed_or, hright]
  exact h.node (by simp) honly (Tree.exceeds_node (by decide) _)

end Scan.PassedFrom

namespace Parser

open Scan

variable {source : Text} {r : Rules}

/-! ### Templates -/

theorem readsAll_templateRest (hr : r.Sound source) (n : Nat) :
    ReadsAllFrom source .template (fun _ => True) (templateRest r n) := by
  induction n with
  | zero =>
    intro s ts s' hs h
    cases h
  | succ n ih =>
    intro s ts s' hs h
    unfold templateRest at h
    simp only [bind_get] at h
    split at h
    · rename_i hquote
      have hread : Place.lexeme? .template .code s.rest = some "`".toText := if_pos hquote
      obtain ⟨closing, s₁, p, -, h⟩ := of_take (PassedFrom.refl hs) (by decide) hread h
      cases h
      exact ⟨p, trivial⟩
    · rename_i hquote
      split at h
      · rename_i hopening
        have hread : Place.lexeme? .template .code s.rest = some "$\x7b".toText :=
          (if_neg hquote).trans (if_pos (List.isPrefixOf_iff_prefix.mp hopening))
        obtain ⟨opening, s₁, p, -, h⟩ := of_take (PassedFrom.refl hs) (by decide) hread h
        obtain ⟨inner, s₂, p, -, h⟩ := (reads_expressions hr).bind p h
        simp only [bind_atSymbol] at h
        obtain ⟨hnext, h⟩ := of_require h
        have hread : Place.lexeme? .code .template s₂.rest = some "\x7d".toText := by
          have hbrace := ofText_of_next p.sound (beq_iff_eq.mp hnext) (by simp)
          exact (if_neg (by simp [hbrace])).trans (if_pos hbrace)
        obtain ⟨closing, s₃, p, -, -, h⟩ := of_takeInside p (by decide) (by simp) hread h
        have p : PassedFrom source .template s
            [Tree.node .templateSubstitution [opening, inner, closing]] .template s₃ :=
          p.free rfl (by simp)
        obtain ⟨others, s₄, p, -, h⟩ := ih.bind p h
        cases h
        exact ⟨p, trivial⟩
      · rename_i hopening
        rw [List.isPrefixOf_iff_prefix] at hopening
        cases hescape : Lexeme.escape? s.rest with
        | some escape =>
          simp only [hescape] at h
          have hread := Place.lexeme?_templateEscape hquote hopening hescape
          obtain ⟨first, s₁, p, -, -, h⟩ :=
            of_takeInside (PassedFrom.refl hs) (by decide) (by simp) hread h
          obtain ⟨others, s₂, p, -, h⟩ := ih.bind p h
          cases h
          exact ⟨p, trivial⟩
        | none =>
          simp only [hescape] at h
          obtain ⟨hne, h⟩ := of_require h
          have hread := Place.lexeme?_templateFragment hquote hopening hescape (by simpa using hne)
          obtain ⟨first, s₁, p, -, -, h⟩ :=
            of_takeInside (PassedFrom.refl hs) (by decide) (by simp) hread h
          obtain ⟨others, s₂, p, -, h⟩ := ih.bind p h
          cases h
          exact ⟨p, trivial⟩

theorem reads_template (hr : r.Sound source) : ReadsNamed source (template r) := by
  intro s t s' hs h
  unfold template at h
  simp only [bind_next] at h
  obtain ⟨hnext, h⟩ := of_require h
  obtain ⟨opening, s₁, p, -, -, h⟩ :=
    of_takeInside (PassedFrom.refl hs) (by decide) (by simp)
      (reads_of_next hs (beq_iff_eq.mp hnext)) h
  simp only [bind_budget] at h
  obtain ⟨inside, s₂, p, -, h⟩ := (readsAll_templateRest hr _).bind p h
  cases h
  exact ⟨p.free rfl (by simp), rfl⟩

/-! ### Primary expressions -/

/-- Something in parentheses goes on from the modifiers of an arrow function. Without an
arrow there are none. -/
theorem passed_parenthesizedOrArrow (hr : r.Sound source) {modifiers : List Tree}
    {s s₁ s' : Scan} {t : Tree} (p : Passed source s modifiers s₁)
    (h : parenthesizedOrArrow r modifiers s₁ = some (t, s')) :
    Passed source s [t] s' ∧ t.isNamed = true := by
  unfold parenthesizedOrArrow at h
  obtain ⟨opening, s₂, q, ⟨start, rfl⟩, h⟩ := (reads_symbol "(").bind (.refl p.sound) h
  simp only [bind_budget] at h
  obtain ⟨items, s₃, q', -, h⟩ :=
    (readsAll_commaList ")" false (reads_spreadable hr) _).bind (.refl q.sound) h
  obtain ⟨closing, s₄, q'', ⟨start', rfl⟩, h⟩ := (reads_symbol ")").bind (.refl q'.sound) h
  simp only [bind_atSymbol] at h
  split at h
  · obtain ⟨us, hlike, h⟩ := of_patterns h
    have q := (q.append (q'.like hlike)).append q''
    exact passed_arrowFrom hr (p.append (q.free rfl (by simp))) h
  · obtain ⟨hmodifiers, hrest⟩ := of_require h
    obtain rfl : modifiers = [] := by simpa using hmodifiers
    split at hrest
    · cases hrest
    · obtain ⟨-, hend⟩ := of_require hrest
      cases hend
      exact ⟨p.append (((q.append q').append q'').parenthesized rfl rfl), rfl⟩
    · rename_i hne hsingle
      obtain ⟨-, hend⟩ := of_require hrest
      obtain ⟨-, hend⟩ := of_require hend
      cases hend
      have q' : Passed source s₂ [Tree.node .sequence items] s₃ := q'.free rfl (by simpa using hne)
      exact ⟨p.append (((q.append q').append q'').parenthesized rfl rfl), rfl⟩

/-- A name goes on from the modifiers of an arrow function. -/
theorem passed_identifierOrArrow (hr : r.Sound source) {modifiers : List Tree}
    {s s₁ s' : Scan} {t : Tree} (p : Passed source s modifiers s₁)
    (h : identifierOrArrow r modifiers s₁ = some (t, s')) :
    Passed source s [t] s' ∧ t.isNamed = true := by
  unfold identifierOrArrow at h
  obtain ⟨name, s₂, p, hname, h⟩ := reads_identifier.bind p h
  simp only [bind_atSymbol] at h
  split at h
  · exact passed_arrowFrom hr p h
  · obtain ⟨hmodifiers, h⟩ := of_require h
    obtain rfl : modifiers = [] := by simpa using hmodifiers
    cases h
    exact ⟨p, hname⟩

theorem reads_asyncOrName (hr : r.Sound source) : ReadsNamed source (asyncOrName r) := by
  intro s t s' hs h
  have hname : identifierOrArrow r [] s = some (t, s') →
      Passed source s [t] s' ∧ t.isNamed = true := passed_identifierOrArrow hr (.refl hs)
  unfold asyncOrName at h
  obtain ⟨behind, h⟩ := of_second h
  split at h
  · obtain ⟨word, s₁, p, -, h⟩ := (reads_keyword "async").bind (.refl hs) h
    exact passed_functionFrom hr p h
  · split at h
    · rcases of_orElse h with h | h
      · obtain ⟨word, s₁, p, -, h⟩ := (reads_keyword "async").bind (.refl hs) h
        exact passed_identifierOrArrow hr p h
      · exact hname h
    · split at h
      · rcases of_orElse h with h | h
        · obtain ⟨word, s₁, p, -, h⟩ := (reads_keyword "async").bind (.refl hs) h
          exact passed_parenthesizedOrArrow hr p h
        · exact hname h
      · exact hname h

/-- A call of `import` is only asked for where that word comes next. -/
theorem passed_importExpression {s s' : Scan} {t : Tree} (hs : s.Sound source)
    (hnext : s.next = .name "import".toText) (h : importExpression s = some (t, s')) :
    Passed source s [t] s' ∧ t.isNamed = true := by
  unfold importExpression at h
  obtain ⟨behind, h⟩ := of_second h
  split at h
  · obtain ⟨word, s₁, p, -, h⟩ := (reads_keyword "import").bind (.refl hs) h
    obtain ⟨point, s₂, p, -, h⟩ := (reads_symbol ".").bind p h
    obtain ⟨property, s₃, p, -, h⟩ := (reads_keyword "meta").bind p h
    cases h
    exact ⟨p.free rfl (by simp), rfl⟩
  · obtain ⟨-, h⟩ := of_require h
    obtain ⟨p, start, rfl⟩ := reads_take hs (by decide) (reads_of_next hs hnext) h
    exact ⟨p, rfl⟩

theorem reads_propertyWord : Reads source (fun t => t.isAtom = true) propertyWord := by
  intro s t s' hs h
  unfold propertyWord at h
  simp only [bind_next] at h
  cases hnext : s.next with
  | name spelling | privateName spelling =>
    simp only [hnext] at h
    obtain ⟨p, start, rfl⟩ := reads_take hs (by decide) (reads_of_next hs hnext) h
    exact ⟨p, rfl⟩
  | _ =>
    simp only [hnext] at h
    cases h

/-- An index between brackets. -/
theorem readsAll_bracketed (hr : r.Sound source) :
    ReadsAll source (fun ts => ∃ opening index closing : Tree,
      ts = [opening, index.as .index, closing] ∧ opening.IsMark ∧ index.isNamed = true ∧
        closing.IsMark) (bracketed r) := by
  intro s ts s' hs h
  unfold bracketed at h
  obtain ⟨opening, s₁, p, hopening, h⟩ := (reads_symbol "[").bind (.refl hs) h
  obtain ⟨index, s₂, p, hindex, h⟩ := (reads_expressions hr).bind p h
  have p := p.like_last (Tree.like_as index .index)
  obtain ⟨closing, s₃, p, hclosing, h⟩ := (reads_symbol "]").bind p h
  cases h
  exact ⟨p, opening, index, closing, rfl, Tree.isMark_of_isLeaf hopening (by decide), hindex,
    Tree.isMark_of_isLeaf hclosing (by decide)⟩

theorem reads_callArguments (hr : r.Sound source) : ReadsNamed source (callArguments r) :=
  reads_enclosed rfl rfl fun n => readsAll_commaList ")" true (reads_spreadable hr) n

/-- Properties and calls go on from an expression. -/
theorem passed_memberTail (hr : r.Sound source) {calls : Bool} {n : Nat} {s s₁ s' : Scan}
    {t u : Tree} (p : Passed source s [t] s₁) (ht : t.isNamed = true)
    (h : memberTail r calls n t s₁ = some (u, s')) : Passed source s [u] s' ∧ u.isNamed = true := by
  induction n generalizing s₁ t with
  | zero => cases h
  | succ n ih =>
    have hobject : Passed source s [t.as .object] s₁ :=
      p.like (.cons (Tree.like_as t .object) .nil)
    unfold memberTail at h
    simp only [bind_next] at h
    cases hnext : s₁.next with
    | backtick =>
      simp only [hnext] at h
      obtain ⟨quasi, s₂, p, -, h⟩ := (reads_template hr).bind p h
      exact ih (p.free rfl (by simp)) rfl h
    | symbol spelling =>
      simp only [hnext] at h
      split at h
      · obtain ⟨point, s₂, q, hpoint, h⟩ := (reads_symbol ".").bind hobject h
        obtain ⟨property, s₃, q, hproperty, h⟩ := reads_propertyWord.bind q h
        have q := q.like_last (Tree.like_as property .property)
        exact ih (q.member ht (Tree.isMark_of_isLeaf hpoint (by decide)) hproperty) rfl h
      · split at h
        · -- The index stands right behind the object.
          obtain ⟨parts, s₂, q, hparts, h⟩ := (readsAll_bracketed hr).bind hobject h
          obtain ⟨opening, index, closing, rfl, hopening, hindex, hclosing⟩ := hparts
          exact ih (q.subscript [] ht hindex hopening hclosing (by simp)) rfl h
        · split at h
          · -- A question mark with a point comes before whatever it guards.
            rename_i hspelling
            have hbegins := reads_of_next p.sound hnext
            rw [hspelling] at hbegins
            obtain ⟨-, h⟩ := of_require h
            obtain ⟨chain, s₂, q, ⟨start, rfl⟩, h⟩ :=
              of_take (.refl p.sound) (by decide) hbegins h
            have q := q.like_last (Tree.like_as _ .optionalChain)
            have hchain : ((Tree.leaf .optionalChain start (start + byteLength "?.".toText)
                "?.".toText).as .optionalChain).IsMark :=
              ⟨.inr rfl, fun _ => rfl, Nat.lt_add_of_pos_right (by decide)⟩
            simp only [bind_atSymbol] at h
            split at h
            · obtain ⟨arguments, s₃, q, -, h⟩ := (reads_callArguments hr).bind (p.append q) h
              exact ih (q.free rfl (by simp)) rfl h
            · simp only [bind_atSymbol] at h
              split at h
              · obtain ⟨parts, s₃, q, hparts, h⟩ :=
                  (readsAll_bracketed hr).bind (hobject.append q) h
                obtain ⟨opening, index, closing, rfl, hopening, hindex, hclosing⟩ := hparts
                have q := q.subscript [_] ht hindex hopening hclosing (by simpa using hchain)
                exact ih q rfl h
              · obtain ⟨property, s₃, q, hproperty, h⟩ :=
                  reads_propertyWord.bind (hobject.append q) h
                have q := q.like_last (Tree.like_as property .property)
                exact ih (q.member ht hchain hproperty) rfl h
          · split at h
            · obtain ⟨arguments, s₂, p, -, h⟩ := (reads_callArguments hr).bind p h
              exact ih (p.free rfl (by simp)) rfl h
            · cases h
              exact ⟨p, ht⟩
    | _ =>
      simp only [hnext] at h
      cases h
      exact ⟨p, ht⟩

theorem reads_wordAs {kind : Kind} (hkind : kind ≠ .token ∧ kind ≠ .member ∧ kind ≠ .subscript)
    (spelling : String) : ReadsNamed source (wordAs kind spelling) := by
  intro s t s' hs h
  unfold wordAs at h
  simp only [bind_atWord] at h
  obtain ⟨hnext, h⟩ := of_require h
  obtain ⟨p, start, rfl⟩ := reads_take hs hkind.2 (reads_of_next hs (beq_iff_eq.mp hnext)) h
  exact ⟨p, by simpa [Tree.isNamed, Tree.leaf] using hkind.1⟩

theorem reads_wordExpression (hr : r.Sound source) {leftHandSide : Parser Tree}
    (hleft : ReadsNamed source leftHandSide) :
    ReadsNamed source (wordExpression r leftHandSide) := by
  intro s t s' hs h
  unfold wordExpression at h
  simp only [bind_next] at h
  split at h
  · exact reads_function hr false s t s' hs h
  split at h
  · exact reads_classFrom hr hleft false s t s' hs h
  split at h
  · exact reads_asyncOrName hr s t s' hs h
  split at h
  · rename_i himport
    exact passed_importExpression hs (beq_iff_eq.mp himport) h
  refine Reads.ite (reads_wordAs (by decide) "this") ?_ s t s' hs h
  refine .ite (reads_wordAs (by decide) "super") ?_
  refine .ite (reads_wordAs (by decide) "null") ?_
  refine .ite (reads_wordAs (by decide) "true") ?_
  refine .ite (reads_wordAs (by decide) "false") ?_
  exact fun _ _ _ hs h => passed_identifierOrArrow hr (.refl hs) h

theorem reads_primary (hr : r.Sound source) {leftHandSide : Parser Tree}
    (hleft : ReadsNamed source leftHandSide) : ReadsNamed source (primary r leftHandSide) := by
  intro s t s' hs h
  unfold primary at h
  simp only [bind_next] at h
  cases hnext : s.next with
  | number spelling =>
    simp only [hnext] at h
    obtain ⟨p, start, rfl⟩ := reads_take hs (by decide) (reads_of_next hs hnext) h
    exact ⟨p, rfl⟩
  | quote quote =>
    simp only [hnext] at h
    exact reads_string s t s' hs h
  | backtick =>
    simp only [hnext] at h
    exact reads_template hr s t s' hs h
  | name spelling =>
    simp only [hnext] at h
    exact reads_wordExpression hr hleft s t s' hs h
  | symbol spelling =>
    simp only [hnext] at h
    split at h
    · exact passed_parenthesizedOrArrow hr (.refl hs) h
    · split at h
      · exact reads_array hr s t s' hs h
      · split at h
        · exact reads_object hr s t s' hs h
        · exact reads_regex s t s' hs h
  | _ =>
    simp only [hnext] at h
    cases h

theorem reads_construct (hr : r.Sound source) : ReadsNamed source (construct r) := by
  intro s t s' hs h
  unfold construct at h
  obtain ⟨word, s₁, p, -, h⟩ := (reads_keyword "new").bind (.refl hs) h
  simp only [bind_atSymbol] at h
  split at h
  · obtain ⟨point, s₂, p, -, h⟩ := (reads_symbol ".").bind p h
    obtain ⟨target, s₃, p, -, h⟩ := (reads_keyword "target").bind p h
    cases h
    exact ⟨p.free rfl (by simp), rfl⟩
  · obtain ⟨constructor, s₂, hconstructor, h⟩ := exists_of_bind h
    have p : Passed source s [word, constructor] s₂ := by
      simp only [bind_atWord] at hconstructor
      split at hconstructor
      · exact p.append (hr.construct _ _ _ p.sound hconstructor).1
      · simp only [bind_budget] at hconstructor
        obtain ⟨first, s₃, q, hfirst, hconstructor⟩ :=
          (reads_primary hr hr.unary).bind (.refl p.sound) hconstructor
        exact p.append (passed_memberTail hr q hfirst hconstructor).1
    simp only [bind_atSymbol] at h
    split at h
    · obtain ⟨arguments, s₃, p, -, h⟩ := (reads_callArguments hr).bind p h
      cases h
      exact ⟨p.free rfl (by simp), rfl⟩
    · cases h
      exact ⟨p.free rfl (by simp), rfl⟩

theorem reads_leftHandSide (hr : r.Sound source) : ReadsNamed source (leftHandSide r) := by
  intro s t s' hs h
  unfold leftHandSide at h
  obtain ⟨first, s₁, hfirst, h⟩ := exists_of_bind h
  have p : Passed source s [first] s₁ ∧ first.isNamed = true := by
    simp only [bind_atWord] at hfirst
    split at hfirst
    · exact reads_construct hr s first s₁ hs hfirst
    · exact reads_primary hr hr.unary s first s₁ hs hfirst
  simp only [bind_budget] at h
  exact passed_memberTail hr p.1 p.2 h

/-! ### Operators -/

/-- An operator before its operand. -/
theorem passed_operator (hr : r.Sound source) {kind : Kind} {spelling : Text} {s s' : Scan}
    {t : Tree} (hs : s.Sound source) (hkind : Tree.isFree kind = true ∧ (kind != .token) = true)
    (hread : Place.lexeme? .code .code s.rest = some spelling)
    (h : (do
      let operator ← take .token spelling
      let operand ← r.unary
      return Tree.node kind [operator.as .operator, operand.as .argument] : Parser Tree) s =
        some (t, s')) : Passed source s [t] s' ∧ t.isNamed = true := by
  obtain ⟨operator, s₁, p, -, h⟩ := of_take (.refl hs) (by decide) hread h
  have p := p.like_last (Tree.like_as operator .operator)
  obtain ⟨operand, s₂, p, -, h⟩ := hr.unary.bind p h
  cases h
  exact ⟨(p.like_last (Tree.like_as operand .argument)).free hkind.1 (by simp), hkind.2⟩

theorem reads_unary (hr : r.Sound source) : ReadsNamed source (unary r) := by
  intro s t s' hs h
  unfold unary at h
  simp only [bind_next] at h
  split at h
  · cases hnext : s.next with
    | symbol spelling | name spelling =>
      simp only [hnext] at h
      exact passed_operator hr hs (by decide) (reads_of_next hs hnext) h
    | _ =>
      simp only [hnext] at h
      cases h
  · split at h
    · cases hnext : s.next with
      | symbol spelling =>
        simp only [hnext] at h
        exact passed_operator hr hs (by decide) (reads_of_next hs hnext) h
      | _ =>
        simp only [hnext] at h
        cases h
    · obtain ⟨behind, h⟩ := of_second h
      split at h
      · obtain ⟨word, s₁, p, -, h⟩ := (reads_keyword "await").bind (.refl hs) h
        obtain ⟨operand, s₂, p, -, h⟩ := hr.unary.bind p h
        cases h
        exact ⟨p.free rfl (by simp), rfl⟩
      · obtain ⟨operand, s₁, p, hoperand, h⟩ := (reads_leftHandSide hr).bind (.refl hs) h
        simp only [bind_next, bind_gap] at h
        split at h
        · simp only [bind_next] at h
          cases hnext : s₁.next with
          | symbol spelling =>
            simp only [hnext] at h
            have p := p.like_last (Tree.like_as operand .argument)
            obtain ⟨operator, s₂, p, -, h⟩ :=
              of_take p (by decide) (reads_of_next p.sound hnext) h
            cases h
            exact ⟨(p.like_last (Tree.like_as operator .operator)).free rfl (by simp), rfl⟩
          | _ =>
            simp only [hnext] at h
            cases h
        · cases h
          exact ⟨p, hoperand⟩

/-- The operator between two operands is what comes next. -/
theorem reads_binaryOperator? {token : Token} {spelling : Text} {precedence : Nat} {t : Text}
    (h : binaryOperator? token = some (spelling, precedence)) (hread : token.Reads t) :
    Place.lexeme? .code .code t = some spelling := by
  unfold binaryOperator? at h
  split at h
  · obtain ⟨found, -, hfound⟩ := Option.map_eq_some_iff.mp h
    cases hfound
    exact hread
  · split at h
    · cases h
      exact hread
    · cases h
  · cases h

/-- Further operands go on from one. -/
theorem passed_binaryTail (hr : r.Sound source) {tightness n : Nat} {s s₁ s' : Scan}
    {left t : Tree} (p : Passed source s [left] s₁) (hleft : left.isNamed = true)
    (h : binaryTail r tightness n left s₁ = some (t, s')) :
    Passed source s [t] s' ∧ t.isNamed = true := by
  induction n generalizing s₁ left with
  | zero => cases h
  | succ n ih =>
    unfold binaryTail at h
    simp only [bind_next] at h
    cases hoperator : binaryOperator? s₁.next with
    | none =>
      simp only [hoperator] at h
      cases h
      exact ⟨p, hleft⟩
    | some found =>
      obtain ⟨spelling, precedence⟩ := found
      simp only [hoperator] at h
      split at h
      · have p : Passed source s [left.as .left] s₁ :=
          p.like (.cons (Tree.like_as left .left) .nil)
        obtain ⟨operator, s₂, p, -, h⟩ :=
          of_take p (by decide) (reads_binaryOperator? hoperator (reads_of_next p.sound rfl)) h
        have p := p.like_last (Tree.like_as operator .operator)
        obtain ⟨right, s₃, p, -, h⟩ := (hr.binary _).bind p h
        exact ih ((p.like_last (Tree.like_as right .right)).free rfl (by simp)) rfl h
      · cases h
        exact ⟨p, hleft⟩

theorem reads_binary (hr : r.Sound source) (tightness : Nat) :
    ReadsNamed source (binary r tightness) := by
  intro s t s' hs h
  have hoperand : (do
      binaryTail r tightness (← budget) (← unary r) : Parser Tree) s = some (t, s') →
      Passed source s [t] s' ∧ t.isNamed = true := by
    intro h
    simp only [bind_budget] at h
    obtain ⟨operand, s₁, p, hoperand, h⟩ := (reads_unary hr).bind (.refl hs) h
    exact passed_binaryTail hr p hoperand h
  unfold binary at h
  simp only [bind_next] at h
  cases hnext : s.next with
  | privateName spelling =>
    simp only [hnext] at h
    obtain ⟨name, s₁, p, ⟨start, rfl⟩, h⟩ :=
      of_take (.refl hs) (by decide) (reads_of_next hs hnext) h
    simp only [bind_atWord] at h
    obtain ⟨-, h⟩ := of_require h
    simp only [bind_budget] at h
    exact passed_binaryTail hr p rfl h
  | _ =>
    simp only [hnext] at h
    exact hoperand h

theorem reads_conditional (hr : r.Sound source) : ReadsNamed source (conditional r) := by
  intro s t s' hs h
  unfold conditional at h
  obtain ⟨condition, s₁, p, hcondition, h⟩ := (reads_binary hr 0).bind (.refl hs) h
  simp only [bind_atSymbol] at h
  split at h
  · obtain ⟨mark, s₂, p, -, h⟩ := (reads_symbol "?").bind p h
    obtain ⟨consequence, s₃, p, -, h⟩ := hr.assignment.bind p h
    obtain ⟨colon, s₄, p, -, h⟩ := (reads_symbol ":").bind p h
    obtain ⟨alternative, s₅, p, -, h⟩ := hr.assignment.bind p h
    cases h
    exact ⟨p.free rfl (by simp), rfl⟩
  · cases h
    exact ⟨p, hcondition⟩

theorem reads_yieldExpression (hr : r.Sound source) : ReadsNamed source (yieldExpression r) := by
  intro s t s' hs h
  unfold yieldExpression at h
  obtain ⟨word, s₁, p, -, h⟩ := (reads_keyword "yield").bind (.refl hs) h
  simp only [bind_atSymbol] at h
  split at h
  · obtain ⟨star, s₂, p, -, h⟩ := (reads_symbol "*").bind p h
    obtain ⟨operand, s₃, p, -, h⟩ := hr.assignment.bind p h
    cases h
    exact ⟨p.free rfl (by simp), rfl⟩
  · simp only [bind_gap, bind_next] at h
    split at h
    · obtain ⟨operand, s₂, p, -, h⟩ := hr.assignment.bind p h
      cases h
      exact ⟨p.free rfl (by simp), rfl⟩
    · cases h
      exact ⟨p.free rfl (by simp), rfl⟩

theorem reads_assignment (hr : r.Sound source) : ReadsNamed source (assignment r) := by
  intro s t s' hs h
  unfold assignment at h
  simp only [bind_atWord] at h
  split at h
  · exact reads_yieldExpression hr s t s' hs h
  · obtain ⟨left, s₁, p, hleft, h⟩ := (reads_conditional hr).bind (.refl hs) h
    simp only [bind_next] at h
    cases hnext : s₁.next with
    | symbol spelling =>
      simp only [hnext] at h
      split at h
      · cases htarget : left.toTarget with
        | some target =>
          simp only [htarget] at h
          obtain ⟨hlike, htarget⟩ := Tree.like_toTarget htarget
          have p := (p.like_last hlike).like_last (Tree.like_as target .left)
          obtain ⟨equals, s₂, p, hequals, h⟩ := (reads_symbol "=").bind p h
          obtain ⟨right, s₃, p, hright, h⟩ := hr.assignment.bind p h
          have p := p.like_last (Tree.like_as right .right)
          cases h
          exact ⟨p.assignment htarget (Tree.isMark_of_isLeaf hequals (by decide)) hright, rfl⟩
        | none =>
          simp only [htarget] at h
          cases h
      · split at h
        · obtain ⟨-, h⟩ := of_require h
          have p := p.like_last (Tree.like_as left .left)
          obtain ⟨operator, s₂, p, -, h⟩ := of_take p (by decide) (reads_of_next p.sound hnext) h
          have p := p.like_last (Tree.like_as operator .operator)
          obtain ⟨right, s₃, p, -, h⟩ := hr.assignment.bind p h
          cases h
          exact ⟨(p.like_last (Tree.like_as right .right)).free rfl (by simp), rfl⟩
        · cases h
          exact ⟨p, hleft⟩
    | _ =>
      simp only [hnext] at h
      cases h
      exact ⟨p, hleft⟩

end Parser

end Unproxy.Syntax
