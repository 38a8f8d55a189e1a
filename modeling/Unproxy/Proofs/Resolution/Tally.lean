import Mathlib
import Unproxy.Proofs.Resolution

/-!
# Unproxy.Proofs.Resolution.Tally

The tallies of resolution. Every reference to a table entry is counted exactly once, although the
scan stops at the nodes that it replaces: no reference lies inside of another.

Main definitions:

* `Resolution.Counted`: what a visit that succeeds does and counts;
* `Resolution.Tally.total`: all that was counted;
* `Resolution.isReference`: the nodes that are counted.

Main statements:

* `Resolution.counted_of_visit`: what one visit counts;
* `Resolution.measure_of_edits`: what a whole run counts;
* `Resolution.tally_of_edits`: the tallies of a run add up.
-/

namespace Unproxy.Resolution

open Syntax

/-- All that was counted. -/
def Tally.total (tally : Tally) : Nat :=
  tally.resolved + tally.misses + tally.skippedWrites + tally.unrepresentable

/-- Whether a node is a reference to an entry of a table, be it read or written. -/
def isReference (scheme : Scheme) (c : Cursor) : Bool :=
  match c.node.proxyAccess scheme with
  | .ok (some _) => true
  | _ => false

section

variable {scheme : Scheme} {tables : Table.Decoded}

/-- What a visit that succeeds does and counts. A node is replaced exactly if it is counted as
resolved. -/
inductive Counted (scheme : Scheme) (tables : Table.Decoded) (c : Cursor) (tally : Tally) :
    Option (List Edit) → Tally → Prop
  | elsewhere (reference : isReference scheme c = false) :
      Counted scheme tables c tally none tally
  | written (reference : isReference scheme c = true) (isWritten : c.isWritten = true) :
      Counted scheme tables c tally none { tally with skippedWrites := tally.skippedWrites + 1 }
  | missing (reference : isReference scheme c = true) (isRead : c.isWritten = false)
      (record : Log.Record) :
      Counted scheme tables c tally none
        { tally with misses := tally.misses + 1, records := tally.records ++ [record] }
  | unrepresentable (reference : isReference scheme c = true) (isRead : c.isWritten = false) :
      Counted scheme tables c tally none
        { tally with unrepresentable := tally.unrepresentable + 1 }
  | resolved (reference : isReference scheme c = true) (isRead : c.isWritten = false)
      (edit : Edit) :
      Counted scheme tables c tally (some [edit]) { tally with resolved := tally.resolved + 1 }

theorem isReference_of_proxyAccess {c : Cursor} {access : Text × Text}
    (h : c.node.proxyAccess scheme = .ok (some access)) : isReference scheme c = true := by
  rw [isReference, h]

theorem counted_of_visit {c : Cursor} {r : Option (List Edit)} {tally tally' : Tally}
    (h : (visit scheme tables c).tallied tally = (.ok r, tally')) :
    Counted scheme tables c tally r tally' := by
  unfold visit at h
  obtain ⟨access, first, haccess, h⟩ := Counting.exists_of_tallied_bind h
  have hnode := Counting.eq_ok_of_tallied_ofExcept haccess
  rw [hnode] at haccess
  cases haccess
  cases access with
  | none =>
    cases h
    exact .elsewhere (by rw [isReference, hnode])
  | some access =>
    have hreference := isReference_of_proxyAccess hnode
    dsimp only at h
    cases hwritten : c.isWritten with
    | true =>
      rw [hwritten] at h
      cases h
      exact .written hreference hwritten
    | false =>
      rw [hwritten] at h
      obtain ⟨entry, second, hentry, h⟩ := Counting.exists_of_tallied_bind h
      rw [Counting.eq_ok_of_tallied_ofExcept hentry] at hentry
      cases hentry
      cases entry with
      | none =>
        cases h
        exact .missing hreference hwritten _
      | some value =>
        obtain ⟨literal, third, hliteral, h⟩ := Counting.exists_of_tallied_bind h
        rw [Counting.eq_ok_of_tallied_ofExcept hliteral] at hliteral
        cases hliteral
        cases literal with
        | none =>
          cases h
          exact .unrepresentable hreference hwritten
        | some literal =>
          cases h
          exact .resolved hreference hwritten _

theorem isSome_replacement? (c : Cursor) (h : isReference scheme c = false) :
    (replacement? scheme tables c).isSome = false := by
  rw [Option.isSome_eq_false_iff, Option.isNone_iff_eq_none]
  by_contra hedit
  obtain ⟨edit, hedit⟩ := Option.ne_none_iff_exists'.mp hedit
  obtain ⟨⟨table, field, haccess⟩, -⟩ := exists_of_replacement? hedit
  rw [isReference_of_proxyAccess haccess] at h
  cases h

/-- Nothing below a node that is replaced is a reference. -/
theorem isReference_below {c e x : Cursor} {edit : Edit} (hshaped : c.node.isShaped = true)
    (hedit : replacement? scheme tables c = some edit) (he : e ∈ c.below) (hx : x ∈ e.walk) :
    isReference scheme x = false := by
  obtain ⟨⟨table, field, haccess⟩, -⟩ := exists_of_replacement? hedit
  have hnone : x.node.proxyAccess scheme = .ok none :=
    Tree.proxyAccess_below hshaped (Cursor.node_mem_namedChildren he) (Cursor.node_mem_preorder hx)
      haccess
  rw [isReference, hnone]

/-- If every visit that succeeds adds one at the nodes that count, and nothing else, a run that
succeeds adds up all of them. Only references may count: the scan does not come to what is below a
node that is replaced. -/
theorem measure_of_edits (measure : Tally → Nat) (counts : Cursor → Bool) (hzero : measure {} = 0)
    (hreference : ∀ c, isReference scheme c = false → counts c = false)
    (hvisit : ∀ (c : Cursor) (r : Option (List Edit)) (tally tally' : Tally),
      (visit scheme tables c).tallied tally = (.ok r, tally') →
        measure tally' = measure tally + if counts c then 1 else 0)
    {root : Tree} (shaped : root.isShaped = true) {found : List Edit} {tally : Tally}
    (h : edits scheme tables root = (.ok found, tally)) :
    measure tally = (Cursor.ofRoot root).walk.countP counts := by
  have hcount := Cursor.measure_of_collect (fun d hd r tally tally' hrun =>
    ⟨hvisit d r tally tally' hrun, fun hsome e he x hx => ?_⟩) h
  · rw [hcount, hzero, Nat.zero_add]
  · rw [eq_replacement?_of_visit hrun, Option.isSome_map] at hsome
    obtain ⟨edit, hedit⟩ := Option.isSome_iff_exists.mp hsome
    exact hreference x
      (isReference_below (Cursor.isShaped_of_mem_walk shaped hd) hedit he hx)

section

variable {c : Cursor} {r : Option (List Edit)} {tally tally' : Tally}
  (h : (visit scheme tables c).tallied tally = (.ok r, tally'))

include h

theorem total_of_visit :
    tally'.total = tally.total + if isReference scheme c then 1 else 0 := by
  cases counted_of_visit h with
  | elsewhere reference => simp [reference]
  | written reference | missing reference | unrepresentable reference | resolved reference =>
    simp only [Tally.total, reference, if_true]
    omega

theorem skippedWrites_of_visit :
    tally'.skippedWrites =
      tally.skippedWrites + if isReference scheme c && c.isWritten then 1 else 0 := by
  cases counted_of_visit h with
  | elsewhere reference => simp [reference]
  | written reference isWritten => simp [reference, isWritten]
  | missing _ isRead | unrepresentable _ isRead | resolved _ isRead => simp [isRead]

theorem resolved_of_visit :
    tally'.resolved =
      tally.resolved + if (replacement? scheme tables c).isSome then 1 else 0 := by
  have hresult := congrArg Option.isSome (eq_replacement?_of_visit h)
  rw [Option.isSome_map] at hresult
  rw [← hresult]
  cases counted_of_visit h with
  | elsewhere | written | missing | unrepresentable => rfl
  | resolved => rfl

end

end

/-- Every reference is accounted for once. In a run that succeeds the four tallies add up to the
number of references in the program, those that were resolved are as many as the edits, and those
that were passed over are the ones that are written. -/
theorem tally_of_edits {scheme : Scheme} {tables : Table.Decoded} {root : Tree}
    (shaped : root.isShaped = true) {found : List Edit} {tally : Tally}
    (scanned : edits scheme tables root = (.ok found, tally)) :
    tally.resolved + tally.misses + tally.skippedWrites + tally.unrepresentable =
        (Cursor.ofRoot root).walk.countP (isReference scheme) ∧
      tally.resolved = found.length ∧
      tally.skippedWrites =
        (Cursor.ofRoot root).walk.countP fun c => isReference scheme c && c.isWritten := by
  refine ⟨?_, ?_, ?_⟩
  · exact measure_of_edits Tally.total (isReference scheme) rfl (fun c h => h)
      (fun _ _ _ _ => total_of_visit) shaped scanned
  · have hresolved := measure_of_edits Tally.resolved
      (fun c => (replacement? scheme tables c).isSome) rfl isSome_replacement?
      (fun _ _ _ _ => resolved_of_visit) shaped scanned
    rw [hresolved, edits_eq shaped (congrArg Prod.fst scanned), List.length_filterMap_eq_countP]
  · exact measure_of_edits Tally.skippedWrites (fun c => isReference scheme c && c.isWritten) rfl
      (fun c h => by rw [h, Bool.false_and]) (fun _ _ _ _ => skippedWrites_of_visit) shaped scanned

/-- A program with reads that are resolved, one of them inside of the index of a reference that is
none yet, reads of a missing entry and of one without a source, and two writes. -/
theorem tally_of_edits_sample :
    let source := "f(a.H.z.f, a.H.z[a.H.z.f], (a.H).z['q']); delete a.H.z.n; a.H.z.f = [a.H.z.n];"
    let tables : Table.Decoded :=
      [("z".toText, .object [(.text "f".toText, .number (.int 5)),
        (.text "n".toText, .number (.float .nan))])]
    ∃ p found tally, Program.parse source.toText = .ok p ∧
      edits Scheme.standard tables p.root = (.ok found, tally) ∧
      (Cursor.ofRoot p.root).walk.countP (isReference Scheme.standard) = 6 ∧
      tally.resolved = 2 ∧ found.length = 2 ∧ tally.misses = 1 ∧ tally.unrepresentable = 1 ∧
      (Cursor.ofRoot p.root).walk.countP
        (fun c => isReference Scheme.standard c && c.isWritten) = 2 := by
  intro source tables
  obtain ⟨p, hparse, found, hfound, hresolved, hmisses, hskipped, hunrepresentable⟩ :
      ∃ p, Program.parse source.toText = .ok p ∧
        ∃ found, (edits Scheme.standard tables p.root).1 = .ok found ∧
          (edits Scheme.standard tables p.root).2.resolved = 2 ∧
          (edits Scheme.standard tables p.root).2.misses = 1 ∧
          (edits Scheme.standard tables p.root).2.skippedWrites = 2 ∧
          (edits Scheme.standard tables p.root).2.unrepresentable = 1 := by
    decide +kernel
  obtain ⟨htotal, hfound', hwrites⟩ :=
    tally_of_edits (Program.wellFormed_of_parse hparse).shaped (Prod.ext hfound rfl)
  rw [hresolved, hmisses, hskipped, hunrepresentable] at htotal
  exact ⟨p, found, _, hparse, Prod.ext hfound rfl, htotal.symm, hresolved, hfound'.symm.trans hresolved,
    hmisses, hunrepresentable, hwrites.symm.trans hskipped⟩

end Unproxy.Resolution
