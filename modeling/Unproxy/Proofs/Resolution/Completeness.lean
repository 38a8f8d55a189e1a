import Mathlib
import Unproxy.Proofs.Resolution.Substitution
import Unproxy.Proofs.Syntax.Form

/-!
# Unproxy.Proofs.Resolution.Completeness

What resolution leaves to be resolved. A scan looks at every node once, before anything is replaced,
so a property whose index is a read is no reference yet when the scan comes to it. With its index
replaced it may be one. Nothing else is left: where no index is a read, resolving a second time
changes nothing.

Main definitions:

* `Resolution.literalFor`: what is put in the place of a node, told from what it refers to;
* `Resolution.emergent`: what would be put in the place of a node that becomes a reference.

Main statements:

* `Resolution.edits_eq_nil_iff`: when a scan finds nothing to replace;
* `Resolution.emergent_of_indices`: only nodes with a read for an index become references;
* `Resolution.edits_of_resolved`: a second scan finds exactly the nodes that became references.
-/

namespace Unproxy.Resolution

open Syntax

/-- The literal that is put in the place of a node, told from what the node refers to and from
whether it is written. -/
def literalFor (tables : Table.Decoded) (access : Except Access.Error (Option (Text × Text)))
    (isWritten : Bool) : Except Error (Option (Text × Strength)) :=
  match access with
  | .error error => .error (.access error)
  | .ok none => .ok none
  | .ok (some (table, field)) =>
    if isWritten then .ok none
    else
      match selected tables table field with
      | .error error => .error (.number error)
      | .ok none => .ok none
      | .ok (some value) => value.literal.mapError .number

/-- The literal that would be put in the place of a node that refers to nothing now and becomes a
reference once all reads are replaced. -/
def emergent (scheme : Scheme) (tables : Table.Decoded) (c : Cursor) :
    Except Error (Option (Text × Strength)) :=
  match c.node.proxyAccess scheme with
  | .ok none => literalFor tables (laterAccess scheme tables c.node) c.isWritten
  | _ => .ok none

/-- Whether the index of a node is a read of an entry that has a literal. -/
def hasReadIndex (scheme : Scheme) (tables : Table.Decoded) (t : Tree) : Bool :=
  (((t.child? .index).bind Tree.unwrapped).bind (referent? scheme tables)).isSome

section

variable {scheme : Scheme} {tables : Table.Decoded}

/-! ### One visit -/

/-- What a visit gives does not depend on the tally. -/
theorem visit_eq (c : Cursor) (tally : Tally) :
    ((visit scheme tables c).tallied tally).1 =
      (literalFor tables (c.node.proxyAccess scheme) c.isWritten).map fun literal =>
        literal.map fun (text, strength) => [c.replaceBy text strength] := by
  unfold visit literalFor
  cases c.node.proxyAccess scheme with
  | error error => rfl
  | ok access =>
    rw [Counting.ofExcept_ok_bind]
    cases access with
    | none => rfl
    | some access =>
      obtain ⟨table, field⟩ := access
      cases c.isWritten with
      | true => rfl
      | false =>
        dsimp only
        cases selected tables table field with
        | error error => rfl
        | ok entry =>
          cases entry with
          | none => rfl
          | some value =>
            rw [Counting.ofExcept_ok_bind]
            dsimp only
            cases value.literal with
            | error error => rfl
            | ok literal => cases literal <;> rfl

theorem replacement?_of_literalFor {c : Cursor} {literal : Option (Text × Strength)}
    (h : literalFor tables (c.node.proxyAccess scheme) c.isWritten = .ok literal) :
    replacement? scheme tables c =
      literal.map fun (text, strength) => c.replaceBy text strength := by
  have hvisit : (visit scheme tables c).tallied {} =
      (.ok (literal.map fun (text, strength) => [c.replaceBy text strength]),
        ((visit scheme tables c).tallied {}).2) :=
    Prod.ext (by rw [visit_eq, h]; rfl) rfl
  have hreplacement := eq_replacement?_of_visit hvisit
  cases literal with
  | none => exact Option.map_eq_none_iff.mp hreplacement.symm
  | some literal =>
    obtain ⟨edit, hedit, hsame⟩ := Option.map_eq_some_iff.mp hreplacement.symm
    rw [hedit, Option.map_some, List.singleton_inj.mp hsame]

theorem replacement?_eq_none_iff_literalFor {c : Cursor} :
    replacement? scheme tables c = none ↔
      ∀ literal,
        literalFor tables (c.node.proxyAccess scheme) c.isWritten ≠ .ok (some literal) := by
  constructor
  · intro h literal hliteral
    rw [replacement?_of_literalFor hliteral] at h
    cases h
  · intro h
    by_contra hreplaced
    obtain ⟨edit, hedit⟩ := Option.ne_none_iff_exists'.mp hreplaced
    obtain ⟨hread, table, field, value, literal, haccess, hvalue, hliteral⟩ :=
      exists_replacement?_iff.mp ⟨edit, hedit⟩
    refine h literal ?_
    rw [haccess, hread, literalFor, if_neg Bool.false_ne_true, selected_of_lookup? hvalue]
    dsimp only
    rw [hliteral]
    rfl

/-! ### Whole scans -/

/-- A scan that succeeds fails at no node, not even at those that it does not come to. -/
theorem exists_literalFor_of_collect {c : Cursor} (hshaped : c.node.isShaped = true)
    {found : List Edit} {tally tally' : Tally}
    (hrun : Counting.tallied (c.collect (visit scheme tables)) tally = (.ok found, tally'))
    {d : Cursor} (hd : d ∈ c.walk) :
    ∃ literal, literalFor tables (d.node.proxyAccess scheme) d.isWritten = .ok literal := by
  induction c using Cursor.induction_below generalizing found tally tally' with
  | step c ih =>
    obtain ⟨r, middle, hvisit, -⟩ := Cursor.exists_of_mem_collect hrun
    rcases Cursor.mem_walk.mp hd with rfl | ⟨b, hb, hd⟩
    · have hresult := congrArg Prod.fst hvisit
      rw [visit_eq] at hresult
      cases hliteral : literalFor tables (d.node.proxyAccess scheme) d.isWritten with
      | error error => rw [hliteral] at hresult; cases hresult
      | ok literal => exact ⟨literal, rfl⟩
    · cases r with
      | none =>
        obtain ⟨part, first, last, hpart, -⟩ := Cursor.exists_part_of_collect hrun hvisit hb
        have hbshaped := Cursor.isShaped_of_mem_walk hshaped
          (Cursor.mem_walk_of_below hb (Cursor.mem_walk_self b))
        exact ih b hb hbshaped hpart hd
      | some edits =>
        -- The scan does not come here, but below a read there is no reference.
        obtain ⟨edit, hedit, -⟩ :=
          Option.map_eq_some_iff.mp (eq_replacement?_of_visit hvisit).symm
        obtain ⟨⟨table, field, haccess⟩, -⟩ := exists_of_replacement? hedit
        rw [Tree.proxyAccess_below hshaped (Cursor.node_mem_namedChildren hb)
          (Cursor.node_mem_preorder hd) haccess]
        exact ⟨none, rfl⟩

/-- A scan finds nothing to replace exactly if no node has a literal and none makes the scan
fail. -/
theorem edits_eq_nil_iff {root : Tree} (hshaped : root.isShaped = true) :
    (edits scheme tables root).1 = .ok [] ↔
      ∀ d ∈ (Cursor.ofRoot root).walk,
        literalFor tables (d.node.proxyAccess scheme) d.isWritten = .ok none := by
  constructor
  · intro h d hd
    obtain ⟨literal, hliteral⟩ :=
      exists_literalFor_of_collect (c := Cursor.ofRoot root) hshaped (Prod.ext h rfl) hd
    have hnone : replacement? scheme tables d = none :=
      List.filterMap_eq_nil_iff.mp (edits_eq hshaped h).symm d hd
    rw [replacement?_of_literalFor hliteral, Option.map_eq_none_iff] at hnone
    rw [hliteral, hnone]
  · intro h
    have hvisit : ∀ d ∈ (Cursor.ofRoot root).walk,
        Counting.Gives (fun _ => ()) (visit scheme tables d) none := fun d hd tally =>
      ⟨((visit scheme tables d).tallied tally).2, Prod.ext (by rw [visit_eq, h d hd]; rfl) rfl, rfl⟩
    obtain ⟨tally, hrun, -⟩ := Cursor.gives_collect hvisit {}
    have hnil : (Cursor.ofRoot root).gathered (fun _ => none) = ([] : List Edit) := by
      rw [Cursor.gathered_eq_filterMap (f := fun _ => none) (by simp) (by simp)]
      simp
    rw [hnil] at hrun
    exact congrArg Prod.fst hrun

/-! ### What becomes a reference -/

theorem laterAccess_of_indices {t : Tree} (hshaped : t.isShaped = true)
    (h : ∀ x ∈ t.preorder, hasReadIndex scheme tables x = false) :
    laterAccess scheme tables t = t.proxyAccess scheme := by
  have hname : ∀ x ∈ t.preorder, laterName scheme tables x = x.propertyName := by
    intro x hx
    have hindex := h x hx
    rw [hasReadIndex, Option.isSome_eq_false_iff, Option.isNone_iff_eq_none] at hindex
    rw [laterName, hindex]
    exact ite_self _
  rw [← Tree.accessBy_propertyName, laterAccess, Tree.accessBy, Tree.accessBy,
    hname t (Tree.mem_preorder_self t)]
  cases haccess : t.isAccess with
  | false => rfl
  | true =>
    cases ho : t.object? with
    | none => rfl
    | some o =>
      have hmem := Tree.object?_mem_preorder hshaped haccess ho
      dsimp only
      rw [Tree.keyBy, Tree.keyBy, hname o hmem]

/-- A node becomes a reference only if an index at it or below it is a read. -/
theorem emergent_of_indices {c : Cursor} (hshaped : c.node.isShaped = true)
    (h : ∀ x ∈ c.node.preorder, hasReadIndex scheme tables x = false) :
    emergent scheme tables c = .ok none := by
  rw [emergent, laterAccess_of_indices hshaped h]
  split
  · rename_i haccess
    rw [haccess]
    rfl
  · rfl

/-! ### A second scan -/

theorem outcome_of_mapError {ε δ α : Type} {f : ε → δ} {x : Log.Logged ε α} {a : α}
    (h : (x.mapError f).outcome = .ok a) : x.outcome = .ok a := by
  rw [Log.Logged.mapError] at h
  cases hx : x.outcome with
  | error error => rw [hx] at h; cases h
  | ok b => rw [hx] at h; cases h; rfl

theorem exists_of_resolve {p p' : Program} {tally : Tally}
    (h : (resolve scheme tables p).outcome = .ok (p', tally)) :
    ∃ found, edits scheme tables p.root = (.ok found, tally) ∧
      (p.revise found).outcome = .ok p' := by
  unfold resolve at h
  split at h
  · cases h
  · rename_i found tally' hfound
    rw [Log.Logged.outcome_bind_of_ok _ rfl] at h
    obtain ⟨q, hrevised, h⟩ := Log.Logged.exists_of_outcome_bind h
    cases h
    exact ⟨found, hfound, outcome_of_mapError hrevised⟩

/-- A program after edits fits its source again, as it was read anew. -/
theorem wellFormed_of_revise {p p' : Program} (h : p.WellFormed) {found : List Edit}
    (hrevise : (p.revise found).outcome = .ok p') : p'.WellFormed := by
  unfold Program.revise at hrevise
  split at hrevise
  · cases hrevise
    exact h
  · split at hrevise
    · cases hrevise
    · obtain ⟨q, hparse, hload⟩ :=
        Log.Logged.exists_of_outcome_bind (outcome_of_mapError hrevise)
      cases hload
      exact Program.wellFormed_of_parse hparse

/-- Without edits a program stays as it is. -/
theorem resolve_of_edits_nil {p : Program} (h : (edits scheme tables p.root).1 = .ok []) :
    (resolve scheme tables p).outcome = .ok (p, (edits scheme tables p.root).2) := by
  have hedits : edits scheme tables p.root = (.ok [], (edits scheme tables p.root).2) :=
    Prod.ext h rfl
  rw [resolve, hedits]
  rfl

/-- What holds at all nodes of a tree, if it depends on what a node refers to and on whether it is
written, can be told from the form of the tree. -/
theorem forall_walk_form {c : Cursor}
    {P : Except Access.Error (Option (Text × Text)) → Bool → Prop} :
    (∀ d ∈ c.form.walk, P (d.node.proxyAccess scheme) d.isWritten) ↔
      ∀ d ∈ c.walk, P (d.node.proxyAccess scheme) d.isWritten := by
  rw [Cursor.walk_form, List.forall_mem_map]
  refine forall₂_congr fun d _ => ?_
  rw [Cursor.isWritten_form, Cursor.form, Tree.proxyAccess_form]

/-- What holds at all nodes after a scan, if it holds at references that are not replaced, holds
exactly if it does at the nodes that become references. -/
theorem forall_walk_resolved (json : ∀ table v, tables.get? table = some v → v.IsJson)
    {root root' : Tree} (hshaped : root.isShaped = true) {found : List Edit}
    (hscan : (edits scheme tables root).1 = .ok found)
    (faithful : root'.form = (substituted scheme tables [] root).form)
    {P : Except Error (Option (Text × Strength)) → Prop} (hnone : P (.ok none)) :
    (∀ d ∈ (Cursor.ofRoot root').walk,
        P (literalFor tables (d.node.proxyAccess scheme) d.isWritten)) ↔
      ∀ e ∈ (Cursor.ofRoot root).walk, P (emergent scheme tables e) := by
  have hform : (Cursor.ofRoot root').form =
      (image scheme tables (Cursor.ofRoot root)).form := by
    rw [Cursor.form, Cursor.form]
    exact congrArg (Cursor.mk · []) faithful
  rw [← forall_walk_form (P := fun access isWritten => P (literalFor tables access isWritten)),
    hform, forall_walk_form (P := fun access isWritten => P (literalFor tables access isWritten)),
    forall_walk_image json (c := Cursor.ofRoot root) hshaped trivial
      (P := fun access isWritten => P (literalFor tables access isWritten)) fun _ => hnone]
  refine forall₂_congr fun e he => ?_
  obtain ⟨literal, hliteral⟩ :=
    exists_literalFor_of_collect (c := Cursor.ofRoot root) hshaped (Prod.ext hscan rfl) he
  have hreplacement := replacement?_of_literalFor hliteral
  cases haccess : e.node.proxyAccess scheme with
  | error error =>
    rw [haccess] at hliteral
    cases hliteral
  | ok access =>
    cases access with
    | none =>
      rw [haccess] at hliteral
      cases hliteral
      rw [emergent, haccess]
      exact ⟨fun h => h hreplacement, fun h _ => h⟩
    | some access =>
      -- A reference that is not replaced is looked at again, with the same result.
      rw [emergent, haccess]
      refine ⟨fun _ => hnone, fun _ hkept => ?_⟩
      rw [hreplacement, Option.map_eq_none_iff] at hkept
      rw [laterAccess_of_proxyAccess haccess, ← haccess, hliteral, hkept]
      exact hnone

end

/-- What resolution leaves to be resolved. If the text after resolution is read as the program with
its reads replaced, then a read of an entry with a literal is left in it exactly if a node that was
no reference has become one. A second scan makes no edit exactly if no node has become a reference
with a literal or one at which the scan fails, and the program then stays as it is. So it does
wherever no index is a read. The program may be any that was read, by
`Program.wellFormed_of_parse`. -/
theorem edits_of_resolved {p p' : Program} (wellFormed : p.WellFormed) {scheme : Scheme}
    {tables : Table.Decoded} (json : ∀ table v, tables.get? table = some v → v.IsJson)
    {tally : Tally} (resolved : (resolve scheme tables p).outcome = .ok (p', tally))
    (faithful : p'.root.form = (substituted scheme tables [] p.root).form) :
    ((∀ d ∈ (Cursor.ofRoot p'.root).walk, replacement? scheme tables d = none) ↔
        ∀ e ∈ (Cursor.ofRoot p.root).walk, ∀ literal,
          emergent scheme tables e ≠ .ok (some literal)) ∧
      ((edits scheme tables p'.root).1 = .ok [] ↔
        ∀ e ∈ (Cursor.ofRoot p.root).walk, emergent scheme tables e = .ok none) ∧
      ((edits scheme tables p'.root).1 = .ok [] →
        ∃ tally', (resolve scheme tables p').outcome = .ok (p', tally')) ∧
      ((∀ x ∈ p.root.preorder, hasReadIndex scheme tables x = false) →
        (edits scheme tables p'.root).1 = .ok []) := by
  obtain ⟨found, hscan, hrevise⟩ := exists_of_resolve resolved
  have hscan := congrArg Prod.fst hscan
  have hshaped' := (wellFormed_of_revise wellFormed hrevise).shaped
  have hagain : (edits scheme tables p'.root).1 = .ok [] ↔
      ∀ e ∈ (Cursor.ofRoot p.root).walk, emergent scheme tables e = .ok none := by
    rw [edits_eq_nil_iff hshaped']
    exact forall_walk_resolved json wellFormed.shaped hscan faithful (P := (· = .ok none)) rfl
  refine ⟨?_, hagain, fun h => ⟨_, resolve_of_edits_nil h⟩, fun h => hagain.mpr fun e he => ?_⟩
  · rw [← forall_walk_resolved json wellFormed.shaped hscan faithful
      (P := fun x => ∀ literal, x ≠ .ok (some literal)) (by simp)]
    exact forall₂_congr fun d _ => replacement?_eq_none_iff_literalFor
  · have hmem := Cursor.node_mem_preorder he
    exact emergent_of_indices (Cursor.isShaped_of_mem_walk wellFormed.shaped he) fun x hx =>
      h x (Tree.mem_preorder_trans hmem hx)

/-- A read that is the index of what becomes another one, which a second scan finds, and a read
that is the index of a variable. -/
theorem edits_of_resolved_sample :
    let tables : Table.Decoded :=
      [("z".toText, .object [(.text "f".toText, .number (.int 42))]),
        ("u".toText, .array [.text "f".toText])]
    (∃ p p' tally, Program.parse "f(a.H.z[a.H.u[0]]);".toText = .ok p ∧
      (resolve Scheme.standard tables p).outcome = .ok (p', tally) ∧
      p'.source = "f(a.H.z[\"f\"]);".toText ∧
      ¬(∀ d ∈ (Cursor.ofRoot p'.root).walk, replacement? Scheme.standard tables d = none) ∧
      (edits Scheme.standard tables p'.root).1 ≠ .ok []) ∧
    ∃ p p' tally tally', Program.parse "f(b[a.H.u[0]]);".toText = .ok p ∧
      (resolve Scheme.standard tables p).outcome = .ok (p', tally) ∧
      p'.source = "f(b[\"f\"]);".toText ∧
      (resolve Scheme.standard tables p').outcome = .ok (p', tally') := by
  intro tables
  have json : ∀ table v, tables.get? table = some v → v.IsJson := by
    intro table v h
    have hmem := Entries.mem_of_get? h
    simp only [tables, List.mem_cons, Prod.mk.injEq, List.not_mem_nil, or_false] at hmem
    rcases hmem with ⟨-, rfl⟩ | ⟨-, rfl⟩
    · exact .object (by simp) (by simp) (by simpa using .int 42)
    · exact .array (by simpa using .text _)
  obtain ⟨p, hparse, ⟨e, he, hemergent⟩, ⟨p', tally⟩, hresolved, hsource, hfaithful⟩ :
      ∃ p, Program.parse "f(a.H.z[a.H.u[0]]);".toText = .ok p ∧
        (∃ e ∈ (Cursor.ofRoot p.root).walk,
          emergent Scheme.standard tables e = .ok (some ("42".toText, .number))) ∧
        ∃ r, (resolve Scheme.standard tables p).outcome = .ok r ∧
          r.1.source = "f(a.H.z[\"f\"]);".toText ∧
          r.1.root.form = (substituted Scheme.standard tables [] p.root).form := by
    decide +kernel
  obtain ⟨q, hparse', hnone, ⟨q', others⟩, hresolved', hsource', hfaithful'⟩ :
      ∃ q, Program.parse "f(b[a.H.u[0]]);".toText = .ok q ∧
        (∀ e ∈ (Cursor.ofRoot q.root).walk, emergent Scheme.standard tables e = .ok none) ∧
        ∃ r, (resolve Scheme.standard tables q).outcome = .ok r ∧
          r.1.source = "f(b[\"f\"]);".toText ∧
          r.1.root.form = (substituted Scheme.standard tables [] q.root).form := by
    decide +kernel
  obtain ⟨hleft, hscan, -⟩ :=
    edits_of_resolved (Program.wellFormed_of_parse hparse) json hresolved hfaithful
  obtain ⟨-, hscan', hsame, -⟩ :=
    edits_of_resolved (Program.wellFormed_of_parse hparse') json hresolved' hfaithful'
  obtain ⟨tally', hagain⟩ := hsame (hscan'.mpr hnone)
  refine ⟨⟨p, p', tally, hparse, hresolved, hsource, fun h => hleft.mp h e he _ hemergent,
    fun h => ?_⟩, q, q', others, tally', hparse', hresolved', hsource', hagain⟩
  rw [hscan.mp h e he] at hemergent
  cases hemergent

end Unproxy.Resolution
