import Mathlib
import Unproxy.Syntax.Definition
import Unproxy.Proofs.Syntax.Reading

/-!
# Unproxy.Proofs.Syntax.Definition

The trees of functions, classes, and array and object literals fit the source, provided
that those one level down do.

Main definitions:

* `Rules.Sound`: readers one level down whose trees fit the source.

Main statements:

* `Parser.reads_expressions`, `Parser.reads_block`, `Parser.reads_parenthesized`;
* `Parser.passed_functionFrom`, `Parser.passed_arrowFrom`, `Parser.reads_classFrom`;
* `Parser.reads_array`, `Parser.reads_object`.
-/

namespace Unproxy.Syntax

/-- Readers one level down whose trees fit the source. Expressions are named nodes. -/
structure Rules.Sound (source : Text) (r : Rules) : Prop where
  assignment : Parser.ReadsNamed source r.assignment
  binary : ∀ tightness, Parser.ReadsNamed source (r.binary tightness)
  unary : Parser.ReadsNamed source r.unary
  construct : Parser.ReadsNamed source r.construct
  statement : Parser.Reads source (fun _ => True) r.statement

namespace Parser

open Scan

variable {source : Text} {r : Rules}

theorem reads_identifier : ReadsNamed source identifier := by
  intro s t s' hs h
  unfold identifier at h
  simp only [bind_next] at h
  cases hnext : s.next with
  | name spelling =>
    simp only [hnext] at h
    obtain ⟨-, h⟩ := of_require h
    split at h
    · obtain ⟨p, start, rfl⟩ := reads_take hs (by decide) (reads_of_next hs hnext) h
      exact ⟨p, rfl⟩
    · obtain ⟨p, start, rfl⟩ := reads_take hs (by decide) (reads_of_next hs hnext) h
      exact ⟨p, rfl⟩
  | _ =>
    simp only [hnext] at h
    cases h

/-- One expression, or several with commas between them, is a named node. -/
theorem reads_expressions (hr : r.Sound source) :
    ReadsNamed source (expressions r) := by
  intro s t s' hs h
  unfold expressions at h
  simp only [bind_budget] at h
  obtain ⟨parts, s₁, p, ⟨hne, hsingle⟩, h⟩ :=
    (readsAll_commaSeparated hr.assignment _).bind (.refl hs) h
  split at h
  · cases h
    exact ⟨p, hsingle _ rfl⟩
  · cases h
    exact ⟨p.free rfl hne, rfl⟩

theorem reads_spreadable (hr : r.Sound source) :
    ReadsNamed source (spreadable r) := by
  intro s t s' hs h
  unfold spreadable at h
  simp only [bind_atSymbol] at h
  split at h
  · obtain ⟨points, s₁, p, -, h⟩ := (reads_symbol "...").bind (.refl hs) h
    obtain ⟨inner, s₂, p, -, h⟩ := hr.assignment.bind p h
    cases h
    exact ⟨p.free rfl (by simp), rfl⟩
  · exact hr.assignment s t s' hs h

theorem reads_block (hr : r.Sound source) : ReadsNamed source (block r) :=
  reads_enclosed rfl rfl fun n => readsAll_many (fun _ _ _ h => by cases h; rfl) hr.statement n

theorem reads_parenthesized (hr : r.Sound source) :
    ReadsNamed source (parenthesized r) := by
  intro s t s' hs h
  unfold parenthesized at h
  obtain ⟨opening, s₁, p, ⟨start, rfl⟩, h⟩ := (reads_symbol "(").bind (.refl hs) h
  obtain ⟨inner, s₂, p, -, h⟩ := (reads_expressions hr).bind p h
  obtain ⟨closing, s₃, p, ⟨start', rfl⟩, h⟩ := (reads_symbol ")").bind p h
  cases h
  exact ⟨p.parenthesized rfl rfl, rfl⟩

/-! ### Functions -/

/-- A pattern stands for the tree that was read last. -/
theorem passed_pattern {s s₁ s' : Scan} {t u : Tree} (p : Passed source s [t] s₁)
    (h : pattern t s₁ = some (u, s')) : Passed source s [u] s' := by
  unfold pattern at h
  cases hpattern : t.toPattern with
  | some found =>
    simp only [hpattern] at h
    cases h
    exact p.like (.cons (Tree.like_toPattern hpattern) .nil)
  | none =>
    simp only [hpattern] at h
    cases h

theorem of_patterns {β : Type} {ts : List Tree} {f : List Tree → Parser β} {s s' : Scan} {b : β}
    (h : (patterns ts >>= f) s = some (b, s')) :
    ∃ us, List.Forall₂ Tree.Like ts us ∧ f us s = some (b, s') := by
  unfold patterns at h
  cases hpatterns : Tree.toPatterns ts with
  | some us =>
    rw [hpatterns] at h
    exact ⟨us, Tree.like_toPatterns hpatterns fun _ _ _ => Tree.like_toPattern, h⟩
  | none =>
    rw [hpatterns] at h
    cases h

theorem reads_parameters (hr : r.Sound source) : ReadsNamed source (parameters r) := by
  intro s t s' hs h
  unfold parameters at h
  obtain ⟨opening, s₁, p, -, h⟩ := (reads_symbol "(").bind (.refl hs) h
  simp only [bind_budget] at h
  obtain ⟨items, s₂, p, -, h⟩ :=
    (readsAll_commaList ")" false (reads_spreadable hr) _).bind p h
  obtain ⟨closing, s₃, p, -, h⟩ := (reads_symbol ")").bind p h
  obtain ⟨us, hlike, h⟩ := of_patterns h
  cases h
  exact ⟨(p.like_middle hlike).free rfl (by simp), rfl⟩

theorem readsAll_signatureAndBody (hr : r.Sound source) :
    ReadsAll source (fun _ => True) (signatureAndBody r) := by
  intro s ts s' hs h
  unfold signatureAndBody at h
  obtain ⟨parameters, s₁, p, -, h⟩ := (reads_parameters hr).bind (.refl hs) h
  obtain ⟨body, s₂, p, -, h⟩ := (reads_block hr).bind p h
  cases h
  exact ⟨p.like_last (Tree.like_as body .body), trivial⟩

/-- A function goes on from its modifiers. -/
theorem passed_functionFrom (hr : r.Sound source) {modifiers : List Tree} {declaration : Bool}
    {s s₁ s' : Scan} {t : Tree} (p : Passed source s modifiers s₁)
    (h : functionFrom r modifiers declaration s₁ = some (t, s')) :
    Passed source s [t] s' ∧ t.isNamed = true := by
  unfold functionFrom at h
  obtain ⟨word, s₂, p, -, h⟩ := (reads_keyword "function").bind p h
  obtain ⟨star, s₃, p, -, h⟩ := (readsAll_symbol? "*").bind p h
  obtain ⟨name, s₄, hname, h⟩ := exists_of_bind h
  have p : Passed source s (modifiers ++ [word] ++ star ++ name) s₄ := by
    simp only [bind_next, bind_atWord] at hname
    split at hname
    · simp only [bind_next] at hname
      cases hnext : s₃.next with
      | name spelling =>
        simp only [hnext] at hname
        obtain ⟨leaf, s₅, p, -, hname⟩ :=
          of_take p (by decide) (reads_of_next p.sound hnext) hname
        cases hname
        exact p.like_last (Tree.like_as leaf .name)
      | _ =>
        simp only [hnext] at hname
        cases hname
    · obtain ⟨-, hname⟩ := of_require hname
      cases hname
      rwa [List.append_nil]
  obtain ⟨rest, s₅, p, -, h⟩ := (readsAll_signatureAndBody hr).bind p h
  cases h
  have hne : modifiers ++ [word] ++ star ++ name ++ rest ≠ [] := by simp
  have hlist : modifiers ++ word :: star ++ name ++ rest =
      modifiers ++ [word] ++ star ++ name ++ rest := by simp
  rw [hlist]
  split <;> exact ⟨p.free rfl hne, rfl⟩

theorem reads_function (hr : r.Sound source) (declaration : Bool) :
    ReadsNamed source (functionFrom r [] declaration) :=
  fun _ _ _ hs h => passed_functionFrom hr (.refl hs) h

/-- An arrow function goes on from what stands before the arrow. -/
theorem passed_arrowFrom (hr : r.Sound source) {head : List Tree} {s s₁ s' : Scan} {t : Tree}
    (p : Passed source s head s₁) (h : arrowFrom r head s₁ = some (t, s')) :
    Passed source s [t] s' ∧ t.isNamed = true := by
  unfold arrowFrom at h
  obtain ⟨arrow, s₂, p, -, h⟩ := (reads_symbol "=>").bind p h
  obtain ⟨body, s₃, hbody, h⟩ := exists_of_bind h
  have p : Passed source s (head ++ [arrow] ++ [body]) s₃ := by
    simp only [bind_atSymbol] at hbody
    split at hbody
    · exact p.append (reads_block hr _ _ _ p.sound hbody).1
    · exact p.append (hr.assignment _ _ _ p.sound hbody).1
  have p := p.like_last (Tree.like_as body .body)
  rw [List.append_assoc] at p
  cases h
  exact ⟨p.free rfl (by simp), rfl⟩

/-! ### Literals -/

theorem reads_array (hr : r.Sound source) : ReadsNamed source (array r) :=
  reads_enclosed rfl rfl fun n => readsAll_commaList "]" true (reads_spreadable hr) n

theorem reads_propertyName (hr : r.Sound source) : ReadsNamed source (propertyName r) := by
  intro s t s' hs h
  unfold propertyName at h
  simp only [bind_next] at h
  have hcomputed : (do
      let opening ← symbol "["
      let inner ← r.assignment
      let closing ← symbol "]"
      return Tree.node .computedName [opening, inner, closing] : Parser Tree) s = some (t, s') →
      Passed source s [t] s' ∧ t.isNamed = true := by
    intro h
    obtain ⟨opening, s₁, p, -, h⟩ := (reads_symbol "[").bind (.refl hs) h
    obtain ⟨inner, s₂, p, -, h⟩ := hr.assignment.bind p h
    obtain ⟨closing, s₃, p, -, h⟩ := (reads_symbol "]").bind p h
    cases h
    exact ⟨p.free rfl (by simp), rfl⟩
  cases hnext : s.next with
  | name spelling | privateName spelling | number spelling =>
    simp only [hnext] at h
    obtain ⟨p, start, rfl⟩ := reads_take hs (by decide) (reads_of_next hs hnext) h
    exact ⟨p, rfl⟩
  | quote quote =>
    simp only [hnext] at h
    exact reads_string s t s' hs h
  | _ =>
    simp only [hnext] at h
    exact hcomputed h

theorem of_isWholeName {β : Type} {f : Bool → Parser β} {s s' : Scan} {b : β}
    (h : (isWholeName >>= f) s = some (b, s')) : ∃ whole, f whole s = some (b, s') := by
  unfold isWholeName at h
  simp only [bind_assoc, pure_bind] at h
  obtain ⟨behind, h⟩ := of_second h
  exact ⟨_, h⟩

theorem readsAll_methodModifiers : ReadsAll source (fun _ => True) methodModifiers := by
  intro s ts s' hs h
  have hword : ∀ spelling, (do return [← keyword spelling] : Parser (List Tree)) s = some (ts, s') →
      Passed source s ts s' ∧ True := by
    intro spelling h
    obtain ⟨word, s₁, p, -, h⟩ := (reads_keyword spelling).bind (.refl hs) h
    cases h
    exact ⟨p, trivial⟩
  unfold methodModifiers at h
  simp only [bind_next] at h
  split at h
  · obtain ⟨whole, h⟩ := of_isWholeName h
    split at h
    · cases h
      exact ⟨.refl hs, trivial⟩
    · simp only [bind_atWord] at h
      split at h
      · obtain ⟨word, s₁, p, -, h⟩ := (reads_keyword "async").bind (.refl hs) h
        obtain ⟨star, s₂, p, -, h⟩ := (readsAll_symbol? "*").bind p h
        cases h
        exact ⟨p, trivial⟩
      · simp only [bind_atWord] at h
        split at h
        · exact hword "get" h
        · exact hword "set" h
  · exact readsAll_symbol? "*" s ts s' hs h

/-- A method goes on from its modifiers and its name. -/
theorem passed_methodFrom (hr : r.Sound source) {head : List Tree} {name : Tree}
    {s s₁ s' : Scan} {t : Tree} (p : Passed source s (head ++ [name]) s₁)
    (h : methodFrom r head name s₁ = some (t, s')) : Passed source s [t] s' ∧ t.isNamed = true := by
  unfold methodFrom at h
  have p := p.like_last (Tree.like_as name .name)
  obtain ⟨rest, s₂, p, -, h⟩ := (readsAll_signatureAndBody hr).bind p h
  rw [List.append_assoc] at p
  cases h
  exact ⟨p.free rfl (by simp), rfl⟩

theorem reads_objectMember (hr : r.Sound source) : ReadsNamed source (objectMember r) := by
  intro s t s' hs h
  unfold objectMember at h
  simp only [bind_atSymbol] at h
  split at h
  · exact reads_spreadable hr s t s' hs h
  · obtain ⟨modifiers, s₁, p, -, h⟩ := readsAll_methodModifiers.bind (.refl hs) h
    split at h
    · obtain ⟨name, s₂, p, -, h⟩ := (reads_propertyName hr).bind p h
      exact passed_methodFrom hr p h
    · rename_i hmodifiers
      obtain rfl : modifiers = [] := by simpa using hmodifiers
      simp only [bind_next] at h
      obtain ⟨name, s₂, p, -, h⟩ := (reads_propertyName hr).bind p h
      simp only [bind_atSymbol] at h
      split at h
      · exact passed_methodFrom hr p h
      · simp only [bind_atSymbol] at h
        split at h
        · have p := p.like_last (Tree.like_as name .key)
          obtain ⟨colon, s₃, p, -, h⟩ := (reads_symbol ":").bind p h
          obtain ⟨value, s₄, p, -, h⟩ := hr.assignment.bind p h
          cases h
          exact ⟨(p.like_last (Tree.like_as value .value)).free rfl (by simp), rfl⟩
        · obtain ⟨-, h⟩ := of_require h
          simp only [bind_atSymbol] at h
          split at h
          · have p := p.like_last (Tree.like_ofKind name .shorthandPattern rfl)
            have p := p.like_last (Tree.like_as _ .left)
            obtain ⟨equals, s₃, p, -, h⟩ := (reads_symbol "=").bind p h
            obtain ⟨value, s₄, p, -, h⟩ := hr.assignment.bind p h
            cases h
            exact ⟨(p.like_last (Tree.like_as value .right)).free rfl (by simp), rfl⟩
          · cases h
            exact ⟨p.like_last (Tree.like_ofKind name .shorthandProperty rfl), rfl⟩

theorem reads_object (hr : r.Sound source) : ReadsNamed source (object r) :=
  reads_enclosed rfl rfl fun n => readsAll_commaList "\x7d" true (reads_objectMember hr) n

/-! ### Classes -/

/-- A field goes on from its modifiers and its name. -/
theorem passed_fieldFrom (hr : r.Sound source) {head : List Tree} {name : Tree}
    {s s₁ s' : Scan} {t : Tree} (p : Passed source s (head ++ [name]) s₁)
    (h : fieldFrom r head name s₁ = some (t, s')) : Passed source s [t] s' := by
  unfold fieldFrom at h
  have p := p.like_last (Tree.like_as name .property)
  simp only [bind_atSymbol] at h
  split at h
  · obtain ⟨equals, s₂, p, -, h⟩ := (reads_symbol "=").bind p h
    obtain ⟨value, s₃, p, -, h⟩ := hr.assignment.bind p h
    simp only [bind_atEnd] at h
    obtain ⟨-, h⟩ := of_require h
    have p := p.like_last (Tree.like_as value .value)
    rw [List.append_assoc, List.append_assoc] at p
    cases h
    exact p.free rfl (by simp)
  · simp only [bind_atEnd] at h
    obtain ⟨-, h⟩ := of_require h
    cases h
    exact p.free rfl (by simp)

/-- A method or a field goes on from `static`. -/
theorem passed_classMemberFrom (hr : r.Sound source) {head : List Tree} {s s₁ s' : Scan}
    {t : Tree} (p : Passed source s head s₁) (h : classMemberFrom r head s₁ = some (t, s')) :
    Passed source s [t] s' := by
  unfold classMemberFrom at h
  obtain ⟨modifiers, s₂, p, -, h⟩ := readsAll_methodModifiers.bind p h
  obtain ⟨name, s₃, p, -, h⟩ := (reads_propertyName hr).bind p h
  simp only [bind_atSymbol] at h
  split at h
  · exact (passed_methodFrom hr p h).1
  · obtain ⟨hmodifiers, h⟩ := of_require h
    obtain rfl : modifiers = [] := by simpa using hmodifiers
    rw [List.append_nil] at p
    exact passed_fieldFrom hr p h

theorem reads_classMember (hr : r.Sound source) :
    Reads source (fun _ => True) (classMember r) := by
  intro s t s' hs h
  unfold classMember at h
  simp only [bind_atSymbol] at h
  split at h
  · exact ⟨(reads_symbol ";" s t s' hs h).1, trivial⟩
  · simp only [bind_atWord] at h
    obtain ⟨whole, h⟩ := of_isWholeName h
    split at h
    · obtain ⟨word, s₁, p, -, h⟩ := (reads_keyword "static").bind (.refl hs) h
      simp only [bind_atSymbol] at h
      split at h
      · obtain ⟨body, s₂, p, -, h⟩ := (reads_block hr).bind p h
        cases h
        exact ⟨(p.like_last (Tree.like_as body .body)).free rfl (by simp), trivial⟩
      · exact ⟨passed_classMemberFrom hr p h, trivial⟩
    · exact ⟨passed_classMemberFrom hr (.refl hs) h, trivial⟩

theorem reads_classBody (hr : r.Sound source) : ReadsNamed source (classBody r) :=
  reads_enclosed rfl rfl fun n =>
    readsAll_many (fun _ _ _ h => by cases h; rfl) (reads_classMember hr) n

theorem reads_classFrom (hr : r.Sound source) {ancestor : Parser Tree}
    (hancestor : ReadsNamed source ancestor) (declaration : Bool) :
    ReadsNamed source (classFrom r ancestor declaration) := by
  intro s t s' hs h
  unfold classFrom at h
  obtain ⟨word, s₁, p, -, h⟩ := (reads_keyword "class").bind (.refl hs) h
  obtain ⟨name, s₂, hname, h⟩ := exists_of_bind h
  have p : Passed source s ([word] ++ name) s₂ := by
    simp only [bind_next] at hname
    split at hname
    · obtain ⟨leaf, s₃, p, -, hname⟩ := reads_identifier.bind p hname
      cases hname
      exact p.like_last (Tree.like_as leaf .name)
    · obtain ⟨-, hname⟩ := of_require hname
      cases hname
      exact p
  obtain ⟨heritage, s₃, hheritage, h⟩ := exists_of_bind h
  have p : Passed source s ([word] ++ name ++ heritage) s₃ := by
    simp only [bind_atWord] at hheritage
    split at hheritage
    · obtain ⟨extending, s₄, p', -, hheritage⟩ :=
        (reads_keyword "extends").bind (.refl p.sound) hheritage
      obtain ⟨parent, s₅, p', -, hheritage⟩ := hancestor.bind p' hheritage
      cases hheritage
      exact p.append (p'.free rfl (by simp))
    · cases hheritage
      rwa [List.append_nil]
  obtain ⟨body, s₄, p, -, h⟩ := (reads_classBody hr).bind p h
  have p := p.like_last (Tree.like_as body .body)
  cases h
  split <;> exact ⟨p.free rfl (by simp), rfl⟩

end Parser

end Unproxy.Syntax
