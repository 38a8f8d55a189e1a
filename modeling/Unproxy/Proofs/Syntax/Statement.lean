import Mathlib
import Unproxy.Syntax.Statement
import Unproxy.Proofs.Syntax.Expression

/-!
# Unproxy.Proofs.Syntax.Statement

The trees of statements fit the source, provided that those one level down do.

Main statements:

* `Parser.reads_importStatement`, `Parser.reads_exportStatement`: modules;
* `Parser.reads_declaration`, `Parser.reads_forStatement`, `Parser.reads_tryStatement`;
* `Parser.reads_statement`: all statements.
-/

namespace Unproxy.Syntax.Parser

open Scan

variable {source : Text} {r : Rules}

/-! ### Modules -/

theorem reads_exportName : ReadsNamed source exportName := by
  intro s t s' hs h
  unfold exportName at h
  simp only [bind_next] at h
  cases hnext : s.next with
  | name spelling =>
    simp only [hnext] at h
    obtain ⟨p, start, rfl⟩ := reads_take hs (by decide) (reads_of_next hs hnext) h
    exact ⟨p, rfl⟩
  | _ =>
    simp only [hnext] at h
    exact reads_string s t s' hs h

theorem reads_specifier {kind : Kind} (hkind : Tree.isFree kind = true) :
    Reads source (fun _ => True) (specifier kind) := by
  intro s t s' hs h
  unfold specifier at h
  obtain ⟨name, s₁, p, -, h⟩ := reads_exportName.bind (.refl hs) h
  have p := p.like_last (Tree.like_as name .name)
  simp only [bind_atWord] at h
  split at h
  · obtain ⟨word, s₂, p, -, h⟩ := (reads_keyword "as").bind p h
    obtain ⟨other, s₃, p, -, h⟩ := reads_exportName.bind p h
    cases h
    exact ⟨p.free hkind (by simp), trivial⟩
  · cases h
    exact ⟨p.free hkind (by simp), trivial⟩

theorem reads_specifiers {list item : Kind} (hlist : Tree.isFree list = true)
    (hnamed : (list != .token) = true) (hitem : Tree.isFree item = true) :
    ReadsNamed source (specifiers list item) :=
  reads_enclosed hlist hnamed fun n => readsAll_commaList "\x7d" false (reads_specifier hitem) n

theorem readsAll_fromClause : ReadsAll source (fun _ => True) fromClause := by
  intro s ts s' hs h
  unfold fromClause at h
  obtain ⟨word, s₁, p, -, h⟩ := (reads_keyword "from").bind (.refl hs) h
  obtain ⟨quoted, s₂, p, -, h⟩ := reads_string.bind p h
  cases h
  exact ⟨p, trivial⟩

theorem readsAll_attributes (hr : r.Sound source) :
    ReadsAll source (fun _ => True) (attributes r) := by
  intro s ts s' hs h
  unfold attributes at h
  simp only [bind_atWord] at h
  split at h
  · obtain ⟨word, s₁, p, -, h⟩ := (reads_keyword "with").bind (.refl hs) h
    obtain ⟨values, s₂, p, -, h⟩ := (reads_object hr).bind p h
    cases h
    exact ⟨p.free rfl (by simp), trivial⟩
  · cases h
    exact ⟨.refl hs, trivial⟩

theorem reads_namespaceImport : Reads source (fun _ => True) namespaceImport := by
  intro s t s' hs h
  unfold namespaceImport at h
  obtain ⟨star, s₁, p, -, h⟩ := (reads_symbol "*").bind (.refl hs) h
  obtain ⟨word, s₂, p, -, h⟩ := (reads_keyword "as").bind p h
  obtain ⟨name, s₃, p, -, h⟩ := reads_identifier.bind p h
  cases h
  exact ⟨p.free rfl (by simp), trivial⟩

theorem reads_importedNames : Reads source (fun _ => True) importedNames := by
  intro s t s' hs h
  unfold importedNames at h
  simp only [bind_atSymbol] at h
  split at h
  · exact reads_namespaceImport s t s' hs h
  · exact ⟨(reads_specifiers rfl rfl rfl s t s' hs h).1, trivial⟩

theorem reads_importClause : Reads source (fun _ => True) importClause := by
  intro s t s' hs h
  unfold importClause at h
  simp only [bind_next] at h
  split at h
  · obtain ⟨name, s₁, p, -, h⟩ := reads_identifier.bind (.refl hs) h
    simp only [bind_atSymbol] at h
    split at h
    · obtain ⟨comma, s₂, p, -, h⟩ := (reads_symbol ",").bind p h
      obtain ⟨names, s₃, p, -, h⟩ := reads_importedNames.bind p h
      cases h
      exact ⟨p.free rfl (by simp), trivial⟩
    · cases h
      exact ⟨p.free rfl (by simp), trivial⟩
  · obtain ⟨names, s₁, p, -, h⟩ := reads_importedNames.bind (.refl hs) h
    cases h
    exact ⟨p.free rfl (by simp), trivial⟩

theorem reads_importStatement (hr : r.Sound source) :
    Reads source (fun _ => True) (importStatement r) := by
  intro s t s' hs h
  unfold importStatement at h
  obtain ⟨word, s₁, p, -, h⟩ := (reads_keyword "import").bind (.refl hs) h
  obtain ⟨body, s₂, hbody, h⟩ := exists_of_bind h
  have p : Passed source s ([word] ++ body) s₂ := by
    have hclause : (do
        let clause ← importClause
        return clause :: (← fromClause) : Parser (List Tree)) s₁ = some (body, s₂) →
        Passed source s ([word] ++ body) s₂ := by
      intro hbody
      obtain ⟨clause, s₃, p, -, hbody⟩ := reads_importClause.bind p hbody
      obtain ⟨tail, s₄, p, -, hbody⟩ := readsAll_fromClause.bind p hbody
      cases hbody
      exact p
    simp only [bind_next] at hbody
    cases hnext : s₁.next with
    | quote quote =>
      simp only [hnext] at hbody
      obtain ⟨quoted, s₃, p, -, hbody⟩ := reads_string.bind p hbody
      cases hbody
      exact p
    | _ =>
      simp only [hnext] at hbody
      exact hclause hbody
  obtain ⟨values, s₃, p, -, h⟩ := (readsAll_attributes hr).bind p h
  obtain ⟨ending, s₄, p, -, h⟩ := (readsAll_terminator true).bind p h
  cases h
  exact ⟨p.free rfl (by simp), trivial⟩

/-- An export goes on from the names it exports. -/
theorem passed_exportTail (hr : r.Sound source) {head : List Tree} (hne : head ≠ [])
    {s s₁ s' : Scan} {t : Tree} (p : Passed source s head s₁)
    (h : exportTail r head s₁ = some (t, s')) : Passed source s [t] s' := by
  unfold exportTail at h
  obtain ⟨origin, s₂, horigin, h⟩ := exists_of_bind h
  have p : Passed source s (head ++ origin) s₂ := by
    simp only [bind_atWord] at horigin
    split at horigin
    · exact p.append (readsAll_fromClause _ _ _ p.sound horigin).1
    · cases horigin
      rwa [List.append_nil]
  obtain ⟨values, s₃, p, -, h⟩ := (readsAll_attributes hr).bind p h
  obtain ⟨ending, s₄, p, -, h⟩ := (readsAll_terminator true).bind p h
  cases h
  exact p.free rfl (by simp [hne])

/-- A default export goes on from the words before it. -/
theorem passed_exportDefault (hr : r.Sound source) {head : List Tree} {s s₁ s' : Scan} {t : Tree}
    (p : Passed source s head s₁) (h : exportDefault r head s₁ = some (t, s')) :
    Passed source s [t] s' := by
  unfold exportDefault at h
  simp only [bind_next] at h
  split at h
  · obtain ⟨function, s₂, p, -, h⟩ := (reads_function hr false).bind p h
    cases h
    exact p.free rfl (by simp)
  · split at h
    · obtain ⟨definition, s₂, p, -, h⟩ := (reads_classFrom hr hr.unary false).bind p h
      cases h
      exact p.free rfl (by simp)
    · obtain ⟨value, s₂, p, -, h⟩ := hr.assignment.bind p h
      have p := p.like_last (Tree.like_as value .value)
      obtain ⟨ending, s₃, p, -, h⟩ := (readsAll_terminator false).bind p h
      rw [List.append_assoc] at p
      cases h
      exact p.free rfl (by simp)

theorem reads_exportStatement (hr : r.Sound source) :
    Reads source (fun _ => True) (exportStatement r) := by
  intro s t s' hs h
  unfold exportStatement at h
  obtain ⟨word, s₁, p, -, h⟩ := (reads_keyword "export").bind (.refl hs) h
  simp only [bind_atSymbol] at h
  split at h
  · obtain ⟨star, s₂, q, -, h⟩ := (reads_symbol "*").bind (.refl p.sound) h
    simp only [bind_atWord] at h
    split at h
    · obtain ⟨asWord, s₃, q, -, h⟩ := (reads_keyword "as").bind q h
      obtain ⟨name, s₄, q, -, h⟩ := reads_exportName.bind q h
      have q : Passed source s₁ [Tree.node .namespaceExport [star, asWord, name]] s₄ :=
        q.free rfl (by simp)
      obtain ⟨tail, s₅, p, -, h⟩ := readsAll_fromClause.bind (p.append q) h
      exact ⟨passed_exportTail hr (by simp) p h, trivial⟩
    · obtain ⟨tail, s₃, p, -, h⟩ := readsAll_fromClause.bind (p.append q) h
      exact ⟨passed_exportTail hr (by simp) p h, trivial⟩
  · simp only [bind_atSymbol] at h
    split at h
    · obtain ⟨names, s₂, p, -, h⟩ := (reads_specifiers rfl rfl rfl).bind p h
      exact ⟨passed_exportTail hr (by simp) p h, trivial⟩
    · simp only [bind_atWord] at h
      split at h
      · obtain ⟨default, s₂, p, -, h⟩ := (reads_keyword "default").bind p h
        exact ⟨passed_exportDefault hr p h, trivial⟩
      · simp only [bind_next] at h
        obtain ⟨-, h⟩ := of_require h
        obtain ⟨declaration, s₂, p, -, h⟩ := hr.statement.bind p h
        cases h
        exact ⟨p.free rfl (by simp), trivial⟩

/-! ### Declarations -/

theorem reads_binding (hr : r.Sound source) : Reads source (fun _ => True) (binding r) := by
  intro s t s' hs h
  unfold binding at h
  simp only [bind_atSymbol] at h
  split at h
  · obtain ⟨literal, s₁, p, -, h⟩ := (reads_object hr).bind (.refl hs) h
    exact ⟨passed_pattern p h, trivial⟩
  · simp only [bind_atSymbol] at h
    split at h
    · obtain ⟨literal, s₁, p, -, h⟩ := (reads_array hr).bind (.refl hs) h
      exact ⟨passed_pattern p h, trivial⟩
    · exact ⟨(reads_identifier s t s' hs h).1, trivial⟩

theorem reads_declarator (hr : r.Sound source) : Reads source (fun _ => True) (declarator r) := by
  intro s t s' hs h
  unfold declarator at h
  obtain ⟨target, s₁, p, -, h⟩ := (reads_binding hr).bind (.refl hs) h
  have p := p.like_last (Tree.like_as target .name)
  simp only [bind_atSymbol] at h
  split at h
  · obtain ⟨equals, s₂, p, -, h⟩ := (reads_symbol "=").bind p h
    obtain ⟨value, s₃, p, -, h⟩ := hr.assignment.bind p h
    cases h
    exact ⟨(p.like_last (Tree.like_as value .value)).free rfl (by simp), trivial⟩
  · cases h
    exact ⟨p.free rfl (by simp), trivial⟩

theorem reads_declarationWord : Reads source (fun _ => True) declarationWord := by
  intro s t s' hs h
  unfold declarationWord at h
  simp only [bind_atWord] at h
  split at h
  · exact ⟨(reads_keyword "var" s t s' hs h).1, trivial⟩
  · simp only [bind_atWord] at h
    split at h
    · exact ⟨(reads_keyword "const" s t s' hs h).1, trivial⟩
    · exact ⟨(reads_keyword "let" s t s' hs h).1, trivial⟩

theorem isFree_declarationKind (word : Tree) : Tree.isFree (declarationKind word) = true := by
  unfold declarationKind
  split <;> rfl

theorem reads_declaration (hr : r.Sound source) :
    Reads source (fun _ => True) (declaration r) := by
  intro s t s' hs h
  unfold declaration at h
  obtain ⟨word, s₁, p, -, h⟩ := reads_declarationWord.bind (.refl hs) h
  simp only [bind_budget] at h
  obtain ⟨declarators, s₂, p, -, h⟩ := (readsAll_commaSeparated (reads_declarator hr) _).bind p h
  obtain ⟨ending, s₃, p, -, h⟩ := (readsAll_terminator false).bind p h
  cases h
  exact ⟨p.free (isFree_declarationKind word) (by simp), trivial⟩

/-- Asking for a declaration reads nothing. -/
theorem of_atDeclaration {β : Type} {f : Bool → Parser β} {s s' : Scan} {b : β}
    (h : (atDeclaration >>= f) s = some (b, s')) : ∃ found, f found s = some (b, s') := by
  unfold atDeclaration at h
  simp only [bind_assoc, bind_next, bind_ite, pure_bind] at h
  split at h
  · exact ⟨true, h⟩
  · split at h
    · obtain ⟨behind, h⟩ := of_second h
      exact ⟨_, h⟩
    · exact ⟨false, h⟩

/-! ### Branches and loops -/

theorem reads_expressionStatement (hr : r.Sound source) :
    Reads source (fun _ => True) (expressionStatement r) := by
  intro s t s' hs h
  unfold expressionStatement at h
  obtain ⟨expression, s₁, p, -, h⟩ := (reads_expressions hr).bind (.refl hs) h
  obtain ⟨ending, s₂, p, -, h⟩ := (readsAll_terminator false).bind p h
  cases h
  exact ⟨p.free rfl (by simp), trivial⟩

theorem reads_ifStatement (hr : r.Sound source) :
    Reads source (fun _ => True) (ifStatement r) := by
  intro s t s' hs h
  unfold ifStatement at h
  obtain ⟨word, s₁, p, -, h⟩ := (reads_keyword "if").bind (.refl hs) h
  obtain ⟨condition, s₂, p, -, h⟩ := (reads_parenthesized hr).bind p h
  obtain ⟨consequence, s₃, p, -, h⟩ := hr.statement.bind p h
  simp only [bind_atWord] at h
  split at h
  · obtain ⟨other, s₄, q, -, h⟩ := (reads_keyword "else").bind (.refl p.sound) h
    obtain ⟨alternative, s₅, q, -, h⟩ := hr.statement.bind q h
    have q : Passed source s₃ [Tree.node .elseClause [other, alternative]] s₅ :=
      q.free rfl (by simp)
    cases h
    exact ⟨(p.append q).free rfl (by simp), trivial⟩
  · cases h
    exact ⟨p.free rfl (by simp), trivial⟩

theorem readsAll_caseStatements (hr : r.Sound source) :
    ReadsAll source (fun _ => True) (caseStatements r) := by
  intro s ts s' hs h
  unfold caseStatements at h
  simp only [bind_budget] at h
  exact readsAll_many (fun _ _ _ h => by cases h; rfl) hr.statement _ s ts s' hs h

theorem reads_switchPart (hr : r.Sound source) : Reads source (fun _ => True) (switchPart r) := by
  intro s t s' hs h
  unfold switchPart at h
  simp only [bind_atWord] at h
  split at h
  · obtain ⟨word, s₁, p, -, h⟩ := (reads_keyword "default").bind (.refl hs) h
    obtain ⟨colon, s₂, p, -, h⟩ := (reads_symbol ":").bind p h
    obtain ⟨statements, s₃, p, -, h⟩ := (readsAll_caseStatements hr).bind p h
    cases h
    exact ⟨p.free rfl (by simp), trivial⟩
  · obtain ⟨word, s₁, p, -, h⟩ := (reads_keyword "case").bind (.refl hs) h
    obtain ⟨value, s₂, p, -, h⟩ := (reads_expressions hr).bind p h
    obtain ⟨colon, s₃, p, -, h⟩ := (reads_symbol ":").bind p h
    obtain ⟨statements, s₄, p, -, h⟩ := (readsAll_caseStatements hr).bind p h
    cases h
    exact ⟨p.free rfl (by simp), trivial⟩

theorem reads_switchStatement (hr : r.Sound source) :
    Reads source (fun _ => True) (switchStatement r) := by
  intro s t s' hs h
  unfold switchStatement at h
  obtain ⟨word, s₁, p, -, h⟩ := (reads_keyword "switch").bind (.refl hs) h
  obtain ⟨value, s₂, p, -, h⟩ := (reads_parenthesized hr).bind p h
  -- The body is a node of its own, so its parts are read apart from what stands before it.
  obtain ⟨opening, s₃, q, -, h⟩ := (reads_symbol "\x7b").bind (.refl p.sound) h
  simp only [bind_budget] at h
  obtain ⟨parts, s₄, q, -, h⟩ :=
    (readsAll_many (fun _ _ _ h => by cases h; rfl) (reads_switchPart hr) _).bind q h
  obtain ⟨closing, s₅, q, -, h⟩ := (reads_symbol "\x7d").bind q h
  have q : Passed source s₂ [Tree.node .switchBody (opening :: parts ++ [closing])] s₅ :=
    q.free rfl (by simp)
  have p := (p.append q).like_last (Tree.like_as _ .body)
  cases h
  exact ⟨p.free rfl (by simp), trivial⟩

theorem readsAll_forTarget (hr : r.Sound source) :
    ReadsAll source (fun _ => True) (forTarget r) := by
  intro s ts s' hs h
  unfold forTarget at h
  obtain ⟨found, h⟩ := of_atDeclaration h
  split at h
  · obtain ⟨word, s₁, p, -, h⟩ := reads_declarationWord.bind (.refl hs) h
    obtain ⟨target, s₂, p, -, h⟩ := (reads_binding hr).bind p h
    cases h
    exact ⟨p.like_last (Tree.like_as target .left), trivial⟩
  · obtain ⟨left, s₁, p, -, h⟩ := (reads_leftHandSide hr).bind (.refl hs) h
    cases htarget : left.toTarget with
    | some target =>
      simp only [htarget] at h
      cases h
      have p := p.like_last (Tree.like_toTarget htarget).1
      exact ⟨p.like_last (Tree.like_as target .left), trivial⟩
    | none =>
      simp only [htarget] at h
      cases h

theorem readsAll_forInHead (hr : r.Sound source) :
    ReadsAll source (fun ts => ts ≠ []) (forInHead r) := by
  intro s ts s' hs h
  unfold forInHead at h
  obtain ⟨opening, s₁, p, -, h⟩ := (reads_symbol "(").bind (.refl hs) h
  obtain ⟨target, s₂, p, -, h⟩ := (readsAll_forTarget hr).bind p h
  simp only [bind_next] at h
  obtain ⟨-, h⟩ := of_require h
  obtain ⟨operator, s₃, hoperator, h⟩ := exists_of_bind h
  have p : Passed source s ([opening] ++ target ++ [operator]) s₃ := by
    simp only [bind_atWord] at hoperator
    split at hoperator
    · exact p.append (reads_keyword "in" _ _ _ p.sound hoperator).1
    · exact p.append (reads_keyword "of" _ _ _ p.sound hoperator).1
  have p := p.like_last (Tree.like_as operator .operator)
  obtain ⟨right, s₄, p, -, h⟩ := (reads_expressions hr).bind p h
  have p := p.like_last (Tree.like_as right .right)
  obtain ⟨closing, s₅, p, -, h⟩ := (reads_symbol ")").bind p h
  rw [List.append_assoc, List.append_assoc] at p
  cases h
  exact ⟨p, by simp⟩

theorem readsAll_forPart (hr : r.Sound source) :
    ReadsAll source (fun _ => True) (forPart r) := by
  intro s ts s' hs h
  unfold forPart at h
  simp only [bind_atSymbol] at h
  split at h
  · obtain ⟨ending, s₁, p, -, h⟩ := (reads_symbol ";").bind (.refl hs) h
    cases h
    exact ⟨p.free rfl (by simp), trivial⟩
  · obtain ⟨expression, s₁, p, -, h⟩ := (reads_expressions hr).bind (.refl hs) h
    obtain ⟨ending, s₂, p, -, h⟩ := (reads_symbol ";").bind p h
    cases h
    exact ⟨p, trivial⟩

theorem readsAll_forStart (hr : r.Sound source) :
    ReadsAll source (fun _ => True) (forStart r) := by
  intro s ts s' hs h
  unfold forStart at h
  obtain ⟨found, h⟩ := of_atDeclaration h
  split at h
  · obtain ⟨word, s₁, p, -, h⟩ := reads_declarationWord.bind (.refl hs) h
    simp only [bind_budget] at h
    obtain ⟨declarators, s₂, p, -, h⟩ := (readsAll_commaSeparated (reads_declarator hr) _).bind p h
    obtain ⟨ending, s₃, p, -, h⟩ := (reads_symbol ";").bind p h
    cases h
    exact ⟨p.free (isFree_declarationKind word) (by simp), trivial⟩
  · exact readsAll_forPart hr s ts s' hs h

theorem readsAll_forHead (hr : r.Sound source) :
    ReadsAll source (fun ts => ts ≠ []) (forHead r) := by
  intro s ts s' hs h
  unfold forHead at h
  obtain ⟨opening, s₁, p, -, h⟩ := (reads_symbol "(").bind (.refl hs) h
  obtain ⟨start, s₂, p, -, h⟩ := (readsAll_forStart hr).bind p h
  obtain ⟨condition, s₃, p, -, h⟩ := (readsAll_forPart hr).bind p h
  obtain ⟨step, s₄, hstep, h⟩ := exists_of_bind h
  have p : Passed source s ([opening] ++ start ++ condition ++ step) s₄ := by
    simp only [bind_atSymbol] at hstep
    split at hstep
    · cases hstep
      rwa [List.append_nil]
    · obtain ⟨expression, s₅, p, -, hstep⟩ := (reads_expressions hr).bind p hstep
      cases hstep
      exact p
  obtain ⟨closing, s₅, p, -, h⟩ := (reads_symbol ")").bind p h
  cases h
  exact ⟨p, by simp⟩

theorem reads_forStatement (hr : r.Sound source) :
    Reads source (fun _ => True) (forStatement r) := by
  intro s t s' hs h
  unfold forStatement at h
  obtain ⟨word, s₁, p, -, h⟩ := (reads_keyword "for").bind (.refl hs) h
  obtain ⟨await, s₂, p, -, h⟩ := (readsAll_keyword? "await").bind p h
  obtain ⟨⟨kind, head⟩, s₃, hhead, h⟩ := exists_of_bind h
  have p : Passed source s ([word] ++ await ++ head) s₃ ∧ Tree.isFree kind = true := by
    rcases of_orElse hhead with hhead | hhead
    · obtain ⟨head', s₄, p, -, hhead⟩ := (readsAll_forInHead hr).bind p hhead
      cases hhead
      exact ⟨p, rfl⟩
    · obtain ⟨head', s₄, p, -, hhead⟩ := (readsAll_forHead hr).bind p hhead
      cases hhead
      exact ⟨p, rfl⟩
  obtain ⟨p, hkind⟩ := p
  obtain ⟨body, s₄, p, -, h⟩ := hr.statement.bind p h
  cases h
  exact ⟨(p.like_last (Tree.like_as body .body)).free hkind (by simp), trivial⟩

theorem reads_headedStatement (hr : r.Sound source) {kind : Kind} (hkind : Tree.isFree kind = true)
    (spelling : String) : Reads source (fun _ => True) (headedStatement r kind spelling) := by
  intro s t s' hs h
  unfold headedStatement at h
  obtain ⟨word, s₁, p, -, h⟩ := (reads_keyword spelling).bind (.refl hs) h
  obtain ⟨head, s₂, p, -, h⟩ := (reads_parenthesized hr).bind p h
  obtain ⟨body, s₃, p, -, h⟩ := hr.statement.bind p h
  cases h
  exact ⟨(p.like_last (Tree.like_as body .body)).free hkind (by simp), trivial⟩

theorem reads_doStatement (hr : r.Sound source) :
    Reads source (fun _ => True) (doStatement r) := by
  intro s t s' hs h
  unfold doStatement at h
  obtain ⟨word, s₁, p, -, h⟩ := (reads_keyword "do").bind (.refl hs) h
  obtain ⟨body, s₂, p, -, h⟩ := hr.statement.bind p h
  have p := p.like_last (Tree.like_as body .body)
  obtain ⟨again, s₃, p, -, h⟩ := (reads_keyword "while").bind p h
  obtain ⟨condition, s₄, p, -, h⟩ := (reads_parenthesized hr).bind p h
  obtain ⟨ending, s₅, p, -, h⟩ := (readsAll_symbol? ";").bind p h
  cases h
  exact ⟨p.free rfl (by simp), trivial⟩

/-! ### Jumps -/

theorem reads_returnStatement (hr : r.Sound source) :
    Reads source (fun _ => True) (returnStatement r) := by
  intro s t s' hs h
  unfold returnStatement at h
  obtain ⟨word, s₁, p, -, h⟩ := (reads_keyword "return").bind (.refl hs) h
  simp only [bind_atEnd] at h
  split at h
  · obtain ⟨ending, s₂, p, -, h⟩ := (readsAll_terminator true).bind p h
    cases h
    exact ⟨p.free rfl (by simp), trivial⟩
  · obtain ⟨value, s₂, p, -, h⟩ := (reads_expressions hr).bind p h
    obtain ⟨ending, s₃, p, -, h⟩ := (readsAll_terminator false).bind p h
    cases h
    exact ⟨p.free rfl (by simp), trivial⟩

theorem reads_throwStatement (hr : r.Sound source) :
    Reads source (fun _ => True) (throwStatement r) := by
  intro s t s' hs h
  unfold throwStatement at h
  obtain ⟨word, s₁, p, -, h⟩ := (reads_keyword "throw").bind (.refl hs) h
  obtain ⟨value, s₂, p, -, h⟩ := (reads_expressions hr).bind p h
  obtain ⟨ending, s₃, p, -, h⟩ := (readsAll_terminator false).bind p h
  cases h
  exact ⟨p.free rfl (by simp), trivial⟩

theorem reads_jumpStatement {kind : Kind} (hkind : Tree.isFree kind = true) (spelling : String) :
    Reads source (fun _ => True) (jumpStatement kind spelling) := by
  intro s t s' hs h
  unfold jumpStatement at h
  obtain ⟨word, s₁, p, -, h⟩ := (reads_keyword spelling).bind (.refl hs) h
  simp only [bind_atEnd] at h
  split at h
  · obtain ⟨ending, s₂, p, -, h⟩ := (readsAll_terminator true).bind p h
    cases h
    exact ⟨p.free hkind (by simp), trivial⟩
  · obtain ⟨-, h⟩ := of_require h
    obtain ⟨label, s₂, p, -, h⟩ := reads_identifier.bind p h
    have p := p.like_last (Tree.like_ofKind label .label rfl)
    obtain ⟨ending, s₃, p, -, h⟩ := (readsAll_terminator true).bind p h
    cases h
    exact ⟨p.free hkind (by simp), trivial⟩

theorem reads_catchClause (hr : r.Sound source) :
    Reads source (fun _ => True) (catchClause r) := by
  intro s t s' hs h
  unfold catchClause at h
  obtain ⟨word, s₁, p, -, h⟩ := (reads_keyword "catch").bind (.refl hs) h
  obtain ⟨parameter, s₂, hparameter, h⟩ := exists_of_bind h
  have p : Passed source s ([word] ++ parameter) s₂ := by
    simp only [bind_atSymbol] at hparameter
    split at hparameter
    · obtain ⟨opening, s₃, p, -, hparameter⟩ := (reads_symbol "(").bind p hparameter
      obtain ⟨target, s₄, p, -, hparameter⟩ := (reads_binding hr).bind p hparameter
      obtain ⟨closing, s₅, p, -, hparameter⟩ := (reads_symbol ")").bind p hparameter
      cases hparameter
      exact p
    · cases hparameter
      exact p
  obtain ⟨body, s₃, p, -, h⟩ := (reads_block hr).bind p h
  cases h
  exact ⟨(p.like_last (Tree.like_as body .body)).free rfl (by simp), trivial⟩

theorem reads_tryStatement (hr : r.Sound source) :
    Reads source (fun _ => True) (tryStatement r) := by
  intro s t s' hs h
  unfold tryStatement at h
  obtain ⟨word, s₁, p, -, h⟩ := (reads_keyword "try").bind (.refl hs) h
  obtain ⟨body, s₂, p, -, h⟩ := (reads_block hr).bind p h
  have p := p.like_last (Tree.like_as body .body)
  obtain ⟨handler, s₃, hhandler, h⟩ := exists_of_bind h
  have p : Passed source s ([word, body.as .body] ++ handler) s₃ := by
    simp only [bind_atWord] at hhandler
    split at hhandler
    · obtain ⟨clause, s₄, p, -, hhandler⟩ := (reads_catchClause hr).bind p hhandler
      cases hhandler
      exact p
    · cases hhandler
      exact p
  obtain ⟨finalizer, s₄, hfinalizer, h⟩ := exists_of_bind h
  have p : Passed source s ([word, body.as .body] ++ handler ++ finalizer) s₄ := by
    simp only [bind_atWord] at hfinalizer
    split at hfinalizer
    · obtain ⟨again, s₅, q, -, hfinalizer⟩ :=
        (reads_keyword "finally").bind (.refl p.sound) hfinalizer
      obtain ⟨inner, s₆, q, -, hfinalizer⟩ := (reads_block hr).bind q hfinalizer
      have q := q.like_last (Tree.like_as inner .body)
      cases hfinalizer
      exact p.append (q.free rfl (by simp))
    · cases hfinalizer
      rwa [List.append_nil]
  cases h
  exact ⟨p.free rfl (by simp), trivial⟩

theorem reads_labeledStatement (hr : r.Sound source) :
    Reads source (fun _ => True) (labeledStatement r) := by
  intro s t s' hs h
  unfold labeledStatement at h
  obtain ⟨label, s₁, p, -, h⟩ := reads_identifier.bind (.refl hs) h
  have p := p.like_last (Tree.like_ofKind label .label rfl)
  obtain ⟨colon, s₂, p, -, h⟩ := (reads_symbol ":").bind p h
  obtain ⟨body, s₃, p, -, h⟩ := hr.statement.bind p h
  cases h
  exact ⟨(p.like_last (Tree.like_as body .body)).free rfl (by simp), trivial⟩

/-! ### All statements -/

theorem reads_wordStatement (hr : r.Sound source) :
    Reads source (fun _ => True) (wordStatement r) := by
  intro s t s' hs h
  unfold wordStatement at h
  rw [bind_next] at h
  obtain ⟨behind, h⟩ := of_second h
  obtain ⟨found, h⟩ := of_atDeclaration h
  have hasync : Reads source (fun _ => True) (do
      let word ← keyword "async"
      if namesFunction (← second) then functionFrom r [word] true else reject) := by
    intro s t s' hs h
    obtain ⟨word, s₁, p, -, h⟩ := (reads_keyword "async").bind (.refl hs) h
    obtain ⟨behind, h⟩ := of_second h
    split at h
    · exact ⟨(passed_functionFrom hr p h).1, trivial⟩
    · cases h
  refine Reads.ite (reads_declaration hr) ?_ s t s' hs h
  refine .ite ((reads_function hr true).mono fun _ _ => trivial) ?_
  refine .ite hasync ?_
  refine .ite ((reads_classFrom hr hr.unary true).mono fun _ _ => trivial) ?_
  refine .ite (reads_ifStatement hr) ?_
  refine .ite (reads_forStatement hr) ?_
  refine .ite (reads_headedStatement hr rfl "while") ?_
  refine .ite (reads_headedStatement hr rfl "with") ?_
  refine .ite (reads_doStatement hr) ?_
  refine .ite (reads_switchStatement hr) ?_
  refine .ite (reads_returnStatement hr) ?_
  refine .ite (reads_throwStatement hr) ?_
  refine .ite (reads_jumpStatement rfl "break") ?_
  refine .ite (reads_jumpStatement rfl "continue") ?_
  refine .ite (reads_jumpStatement rfl "debugger") ?_
  refine .ite (reads_tryStatement hr) ?_
  refine .ite (reads_importStatement hr) ?_
  refine .ite (reads_exportStatement hr) ?_
  exact .ite (reads_labeledStatement hr) (reads_expressionStatement hr)

theorem reads_statement (hr : r.Sound source) : Reads source (fun _ => True) (statement r) := by
  intro s t s' hs h
  have hempty : Reads source (fun _ => True) (do
      return Tree.node .emptyStatement [← symbol ";"]) := by
    intro s t s' hs h
    obtain ⟨semicolon, s₁, p, -, h⟩ := (reads_symbol ";").bind (.refl hs) h
    cases h
    exact ⟨p.free rfl (by simp), trivial⟩
  have hother : ∀ token : Token, Reads source (fun _ => True) (do
      if token.isSymbol "\x7b" then block r
      else if token.isSymbol ";" then return Tree.node .emptyStatement [← symbol ";"]
      else expressionStatement r) := fun token =>
    .ite ((reads_block hr).mono fun _ _ => trivial) (.ite hempty (reads_expressionStatement hr))
  unfold statement at h
  simp only [bind_next] at h
  cases hnext : s.next with
  | name spelling =>
    simp only [hnext] at h
    exact reads_wordStatement hr s t s' hs h
  | _ =>
    simp only [hnext] at h
    exact hother _ s t s' hs h

end Unproxy.Syntax.Parser
