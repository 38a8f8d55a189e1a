import Mathlib
import Unproxy.Proofs.Alias.Collection
import Unproxy.Proofs.Syntax.Program
import Unproxy.Proofs.Syntax.Replacement

/-!
# Unproxy.Proofs.Alias.Substitution

Without cycles, every alias has one text, and putting aliases in place is to replace every
read of an alias by its text, wherever the read stands.

Main definitions:

* `Alias.substitution?`: what a node is replaced by if the texts of aliases are known;
* `Alias.Expansion`: texts of aliases that fit one another.

Main statements:

* `Alias.exists_expansion`: aliases that do not depend on themselves have texts;
* `Alias.Expansion.gives_collect`: a scan replaces every read by the text of its alias,
  whatever is under way;
* `Alias.edits_of_acyclic`: so does the scan of a program, and it meets no cycle.
-/

namespace Unproxy.Alias

open Syntax

/-- What a node is replaced by if the texts of aliases are known: the text of the alias
that it reads, in parentheses where the place of the node asks for them around the
expression that is assigned to the alias. -/
def substitution? (scheme : Scheme) (aliases : Table) (full : Text → Text) (c : Cursor) :
    Option Edit :=
  match c.node.aliasKey scheme, c.isWritten with
  | .ok (some key), false =>
    (aliases.get? key).map fun right =>
      ⟨c.node.start, c.node.stop,
        if c.needsParentheses right.node.strength then "(".toText ++ full key ++ ")".toText
        else full key⟩
  | _, _ => none

/-- Texts for the aliases of a program: the text of an alias is its expression with every
alias read in it replaced by the text of that alias. -/
structure Expansion (s : Setting) (full : Text → Text) : Prop where
  encodable : ∀ key right, s.aliases.get? key = some right → Utf8.Encodable (full key)
  encode_eq : ∀ key right, s.aliases.get? key = some right →
    Utf8.encode (full key) = Edit.patch right.node.start (s.slice right.node)
      (right.walk.filterMap (substitution? s.scheme s.aliases full))

section

variable {scheme : Scheme} {aliases : Table} {full : Text → Text} {c : Cursor}

/-! ### Replaced nodes -/

theorem substitution?_of_reads {key : Text} (h : Reads scheme c key) :
    substitution? scheme aliases full c =
      (aliases.get? key).map fun right => c.replaceBy (full key) right.node.strength := by
  rw [substitution?, h.name, h.unwritten]
  rfl

theorem substitution?_of_aliasKey (h : c.node.aliasKey scheme = .ok none) :
    substitution? scheme aliases full c = none := by
  rw [substitution?, h]

theorem substitution?_of_isWritten (h : c.isWritten = true) :
    substitution? scheme aliases full c = none := by
  unfold substitution?
  split
  · rename_i hunwritten
    rw [h] at hunwritten
    cases hunwritten
  · rfl

/-- The parts of a replacement. -/
theorem exists_of_substitution? {edit : Edit}
    (h : substitution? scheme aliases full c = some edit) :
    ∃ key right, Reads scheme c key ∧ aliases.get? key = some right ∧
      edit = c.replaceBy (full key) right.node.strength := by
  unfold substitution? at h
  split at h
  · rename_i key hname hwritten
    obtain ⟨right, hright, rfl⟩ := Option.map_eq_some_iff.mp h
    exact ⟨key, right, ⟨hname, hwritten⟩, hright, rfl⟩
  · cases h

/-- Replacements of reads do not lie in one another. -/
theorem replaces_substitution? (hshaped : c.node.isShaped = true)
    (hencodable : ∀ d ∈ c.walk, ∀ key right, Reads scheme d key → aliases.get? key = some right →
      Utf8.Encodable (full key)) :
    c.Replaces (substitution? scheme aliases full) where
  range d hd edit hedit := by
    obtain ⟨key, right, hreads, -, rfl⟩ := exists_of_substitution? hedit
    have hdshaped := Cursor.isShaped_of_mem_walk hshaped hd
    exact ⟨rfl, rfl, Tree.start_lt_stop hdshaped (Tree.exists_of_namespaceKey hreads.name).1⟩
  encodable d hd edit hedit := by
    obtain ⟨key, right, hreads, hright, rfl⟩ := exists_of_substitution? hedit
    exact Cursor.encodable_replaceBy (hencodable d hd key right hreads hright) _
  apart d hd edit hedit e he x hx := by
    obtain ⟨key, right, hreads, -⟩ := exists_of_substitution? hedit
    exact substitution?_of_aliasKey <|
      Tree.aliasKey_below (Cursor.isShaped_of_mem_walk hshaped hd)
        (Cursor.node_mem_namedChildren he) (Cursor.node_mem_preorder hx) hreads.name

/-! ### Assignments -/

/-- Where all but the items of one kind give nothing, and there is one of that kind, it
gives all. -/
theorem flatMap_of_filter_eq {α β : Type} {l : List α} {a : α} {p : α → Bool} {f : α → List β}
    (h : l.filter p = [a]) (hf : ∀ b ∈ l, p b = false → f b = []) : l.flatMap f = f a := by
  have hfilter : l.flatMap f = (l.filter p).flatMap f := by
    clear h
    induction l with
    | nil => rfl
    | cons b l ih =>
      rw [List.flatMap_cons, ih fun b' hb' => hf b' (List.mem_cons_of_mem b hb')]
      cases hb : p b with
      | true => rw [List.filter_cons_of_pos hb, List.flatMap_cons]
      | false =>
        rw [List.filter_cons_of_neg (by simp [hb]), hf b List.mem_cons_self hb,
          List.nil_append]
  rw [hfilter, h, List.flatMap_singleton]

variable {key : Text} {right : Cursor}

/-- What is assigned to is written. -/
theorem isWritten_of_child? {left : Cursor} (hkind : c.node.kind = .assignment)
    (hleft : c.child? .left = some left) (hrole : left.node.role = some .left) :
    left.isWritten = true := by
  obtain ⟨t, -, rfl⟩ := Option.map_eq_some_iff.mp hleft
  rw [Cursor.isWritten, Cursor.outermost, if_neg (by rw [hkind]; decide)]
  simp only [hkind]
  exact beq_iff_eq.mpr hrole

theorem aliasKey_of_assignment (hkind : c.node.kind = .assignment) :
    c.node.aliasKey scheme = .ok none :=
  Tree.namespaceKey_of_not_isAccess (by simp [Tree.isAccess, hkind]) _ _

/-- An assignment reads no alias itself. -/
theorem Reads.kind_ne {other : Text} (h : Reads scheme c other) : c.node.kind ≠ .assignment := by
  intro hkind
  have hname := h.name
  rw [aliasKey_of_assignment hkind] at hname
  cases hname

/-- No alias is read in an assignment to an alias, except in the assigned expression. -/
theorem Assigns.not_reads (h : Assigns scheme c key right) (hshaped : c.node.isShaped = true)
    {d x : Cursor} (hd : d ∈ c.below) (hdrole : d.node.role ≠ some .right) (hx : x ∈ d.walk)
    {other : Text} : ¬Reads scheme x other := by
  intro hreads
  have honly := hasOnly_of_assignment hshaped h.kind
  have hdshaped := Tree.isShaped_of_mem_namedChildren hshaped (Cursor.node_mem_namedChildren hd)
  have haccess := (Tree.exists_of_namespaceKey hreads.name).1
  rcases Tree.isAtom_or_child? honly (Cursor.node_mem_namedChildren hd) with
    hatom | ⟨role, hroles, hrole, hchild⟩
  · rw [Tree.isAccess_of_mem_atom hdshaped hatom (Cursor.node_mem_preorder hx)] at haccess
    cases haccess
  -- The other part of an assignment is its target, which is written and has no reads below.
  obtain rfl : role = .left := by
    simp only [List.mem_cons, List.not_mem_nil, or_false] at hroles
    exact hroles.resolve_right fun hright => hdrole (hright ▸ hrole)
  have hleft : c.child? .left = some d := by
    rw [Cursor.child?, hchild, Option.map_some, ← (Cursor.mem_below.mp hd).2.2]
  rcases Cursor.mem_walk.mp hx with rfl | ⟨e, he, hx⟩
  · have hwritten := isWritten_of_child? h.kind hleft hrole
    rw [hreads.unwritten] at hwritten
    cases hwritten
  · obtain ⟨left, hleft', hkey⟩ := h.target
    obtain rfl := Option.some.inj (hleft.symm.trans hleft')
    have hnone := Tree.aliasKey_below hdshaped (Cursor.node_mem_namedChildren he)
      (Cursor.node_mem_preorder hx) hkey
    rw [hreads.name] at hnone
    cases hnone

/-- All that is read in an assignment to an alias is read in the assigned expression. -/
theorem Assigns.mem_right_walk (h : Assigns scheme c key right) (hshaped : c.node.isShaped = true)
    {x : Cursor} (hx : x ∈ c.walk) {other : Text} (hreads : Reads scheme x other) :
    x ∈ right.walk := by
  rcases Cursor.mem_walk.mp hx with rfl | ⟨d, hd, hx⟩
  · exact absurd h.kind hreads.kind_ne
  · by_cases hrole : d.node.role = some .right
    · have hchild := Tree.child?_of_mem (hasOnly_of_assignment hshaped h.kind) (by simp)
        (Cursor.mem_below.mp hd).1 hrole
      have hright : c.child? .right = some d := by
        rw [Cursor.child?, hchild, Option.map_some, ← (Cursor.mem_below.mp hd).2.2]
      obtain rfl := Option.some.inj (hright.symm.trans h.source)
      exact hx
    · exact absurd hreads (h.not_reads hshaped hd hrole hx)

/-- All that is replaced in an assignment to an alias is in the assigned expression. -/
theorem Assigns.filterMap_walk (h : Assigns scheme c key right) (hshaped : c.node.isShaped = true) :
    c.walk.filterMap (substitution? scheme aliases full) =
      right.walk.filterMap (substitution? scheme aliases full) := by
  have honly := hasOnly_of_assignment hshaped h.kind
  obtain ⟨hright, hrole⟩ := mem_below_of_child? honly (by simp) h.source
  have hsingle : c.below.filter (fun d => d.node.role == some .right) = [right] := by
    have hmem : right ∈ c.below.filter fun d => d.node.role == some .right :=
      List.mem_filter.mpr ⟨hright, by simp [hrole]⟩
    refine Tree.eq_singleton_of_mem ?_ hmem
    rw [Tree.hasOnly, Bool.and_eq_true, List.all_eq_true, List.all_eq_true] at honly
    have hone := of_decide_eq_true (honly.2 .right (by simp))
    rw [Cursor.below, List.filter_map, List.length_map, Tree.namedChildren, List.filter_filter]
    refine Nat.le_trans (List.Sublist.length_le ?_) hone
    exact List.monotone_filter_right _ fun t ht => by simp_all
  rw [Cursor.walk_eq, List.filterMap_cons,
    substitution?_of_aliasKey (aliasKey_of_assignment h.kind), List.filterMap_flatMap]
  refine flatMap_of_filter_eq hsingle fun d hd hd' => ?_
  rw [List.filterMap_eq_nil_iff]
  intro x hx
  rw [Option.eq_none_iff_forall_not_mem]
  intro edit hedit
  obtain ⟨other, _, hreads, -⟩ := exists_of_substitution? hedit
  exact h.not_reads hshaped hd (by simpa using hd') hx hreads

end

/-! ### Texts of aliases -/

/-- Along a well-founded relation, values may be defined from those before. -/
theorem exists_fixed {α β : Type} [Inhabited β] {r : α → α → Prop} (wf : WellFounded r)
    (step : (α → β) → α → β)
    (hlocal : ∀ f g a, (∀ b, r b a → f b = g b) → step f a = step g a) :
    ∃ f, ∀ a, f a = step f a := by
  classical
  refine ⟨wf.fix fun a before => step (fun b => if h : r b a then before b h else default) a,
    fun a => ?_⟩
  rw [wf.fix_eq]
  exact hlocal _ _ a fun b hb => dif_pos hb

section

variable {scheme : Scheme} {p : Program} {aliases : Table}

/-- There is no way back from what an alias depends on to the alias. -/
theorem wellFounded_depends (collected : (collect p.root scheme).outcome = .ok aliases)
    (acyclic : ∀ key, ¬Relation.TransGen (Depends scheme p.root) key key) :
    WellFounded fun other key => Depends scheme p.root key other := by
  have hfinite : Finite {key // key ∈ aliases.keys} :=
    Finite.of_fintype {key // key ∈ aliases.keys}
  let before (a b : {key // key ∈ aliases.keys}) : Prop :=
    Relation.TransGen (Depends scheme p.root) b.1 a.1
  have htrans : IsTrans _ before := ⟨fun a b c hab hbc => hbc.trans hab⟩
  have hirrefl : Std.Irrefl before := ⟨fun a => acyclic a.1⟩
  have hwf : WellFounded before := Finite.wellFounded_of_trans_of_irrefl before
  -- An alias that is not collected is assigned nothing, so it depends on nothing.
  have houtside : ∀ key, key ∉ aliases.keys →
      Acc (fun other key => Depends scheme p.root key other) key := by
    intro key hkey
    refine .intro key fun other hdepends => ?_
    obtain ⟨c, right, -, hc, hassigns, -⟩ := hdepends
    exact absurd ((mem_keys_collect collected).mpr ⟨c, hc, right, hassigns⟩) hkey
  have hinside : ∀ key : {key // key ∈ aliases.keys},
      Acc (fun other key => Depends scheme p.root key other) key.1 := by
    intro key
    induction key using hwf.induction with
    | h key ih =>
      refine .intro key.1 fun other hdepends => ?_
      by_cases hother : other ∈ aliases.keys
      · exact ih ⟨other, hother⟩ (.single hdepends)
      · exact houtside other hother
  refine ⟨fun key => ?_⟩
  by_cases hkey : key ∈ aliases.keys
  · exact hinside ⟨key, hkey⟩
  · exact houtside key hkey

/-- What stands in the expression of a collected alias. -/
theorem depends_of_get? (collected : (collect p.root scheme).outcome = .ok aliases)
    {key other : Text} {right d : Cursor} (hright : aliases.get? key = some right) (hd : d ∈ right.walk)
    (hreads : Reads scheme d other) : Depends scheme p.root key other := by
  obtain ⟨c, hc, hassigns⟩ := exists_assigns_of_collect collected hright
  exact ⟨c, right, d, hc, hassigns, hd, hreads⟩

/-- The expression of a collected alias is part of the program. -/
theorem mem_walk_of_get? (wellFormed : p.WellFormed)
    (collected : (collect p.root scheme).outcome = .ok aliases) {key : Text} {right : Cursor}
    (hright : aliases.get? key = some right) : right ∈ (Cursor.ofRoot p.root).walk := by
  obtain ⟨c, hc, hassigns⟩ := exists_assigns_of_collect collected hright
  have hshaped := Cursor.isShaped_of_mem_walk (c := Cursor.ofRoot p.root) wellFormed.shaped hc
  exact Cursor.mem_walk_trans hc (hassigns.right_mem_walk hshaped)

/-- Replacing the reads in the expression of an alias leads to a text. -/
theorem exists_applyAll_slice (wellFormed : p.WellFormed) {full : Text → Text} {c : Cursor}
    (hc : c ∈ (Cursor.ofRoot p.root).walk)
    (hencodable : ∀ d ∈ c.walk, ∀ key right, Reads scheme d key → aliases.get? key = some right →
      Utf8.Encodable (full key)) :
    ∃ text,
      Edit.applyAll ((Setting.mk scheme aliases p.bytes).slice c.node)
        (c.walk.filterMap (substitution? scheme aliases full)) c.node.start = .ok text ∧
      Utf8.encode text = Edit.patch c.node.start ((Setting.mk scheme aliases p.bytes).slice c.node)
        (c.walk.filterMap (substitution? scheme aliases full)) ∧
      Utf8.Encodable text := by
  have hshaped := Cursor.isShaped_of_mem_walk (c := Cursor.ofRoot p.root) wellFormed.shaped hc
  have hboundaries := wellFormed.boundaries c hc
  exact wellFormed.exists_applyAll hc (replaces_substitution? hshaped hencodable) (Nat.le_refl _)
    (Nat.le_refl _) hboundaries.1 hboundaries.2

/-- Aliases that do not depend on themselves have texts. -/
theorem exists_expansion (wellFormed : p.WellFormed)
    (collected : (collect p.root scheme).outcome = .ok aliases)
    (acyclic : ∀ key, ¬Relation.TransGen (Depends scheme p.root) key key) :
    ∃ full, Expansion ⟨scheme, aliases, p.bytes⟩ full := by
  have hwf := wellFounded_depends collected acyclic
  let s : Setting := ⟨scheme, aliases, p.bytes⟩
  let step (full : Text → Text) (key : Text) : Text :=
    (aliases.get? key).elim [] fun right =>
      (Utf8.decode (Edit.patch right.node.start (s.slice right.node)
        (right.walk.filterMap (substitution? scheme aliases full)))).toOption.getD []
  obtain ⟨full, hfull⟩ := exists_fixed hwf step fun f g key hagree => by
    dsimp only [step]
    cases hright : aliases.get? key with
    | none => rfl
    | some right =>
      have hsame : right.walk.filterMap (substitution? scheme aliases f) =
          right.walk.filterMap (substitution? scheme aliases g) := by
        refine List.filterMap_congr fun d hd => ?_
        unfold substitution?
        split
        · rename_i other hname hwritten
          rw [hagree other (depends_of_get? collected hright hd ⟨hname, hwritten⟩)]
        · rfl
      rw [Option.elim_some, Option.elim_some, hsame]
  have hkey : ∀ key right, aliases.get? key = some right → Utf8.Encodable (full key) ∧
      Utf8.encode (full key) = Edit.patch right.node.start (s.slice right.node)
        (right.walk.filterMap (substitution? scheme aliases full)) := by
    intro key
    induction key using hwf.induction with
    | h key ih =>
      intro right hright
      obtain ⟨text, -, hpatch, hencodable⟩ :=
        exists_applyAll_slice wellFormed (mem_walk_of_get? wellFormed collected hright)
          fun d hd other right' hreads hright' =>
            (ih other (depends_of_get? collected hright hd hreads) right' hright').1
      have htext : full key = text := by
        rw [hfull key]
        dsimp only [step, s]
        rw [hright, Option.elim_some, ← hpatch, Utf8.decode_encode hencodable]
        rfl
      rw [htext]
      exact ⟨hencodable, hpatch⟩
  exact ⟨full, fun key right h => (hkey key right h).1, fun key right h => (hkey key right h).2⟩

end

/-! ### Scanning -/

/-- A scan takes the expression of an assignment only if its alias is not under way. -/
theorem assigns_of_assigned {s : Setting} {active : List Text} {c right : Cursor} {key : Text}
    (h : s.assigned active c = .ok (some (key, right))) :
    Assigns s.scheme c key right ∧ key ∉ active := by
  unfold Setting.assigned at h
  split at h
  · rename_i hkind
    split at h
    · rename_i left right' hleft hright
      obtain ⟨name, hname, h⟩ := exists_of_bind_eq_ok h
      cases name with
      | none => cases h
      | some key' =>
        have h := Except.ok.inj h
        split at h
        · cases h
        · rename_i hactive
          cases h
          exact ⟨⟨hkind, ⟨left, hleft, hname⟩, hright⟩, by simpa using hactive⟩
    · cases h
  · cases h

theorem assigned_of_assigns {s : Setting} {active : List Text} {c right : Cursor} {key : Text}
    (h : Assigns s.scheme c key right) (hactive : key ∉ active) :
    s.assigned active c = .ok (some (key, right)) := by
  obtain ⟨left, hleft, hkey⟩ := h.target
  rw [Setting.assigned, if_pos h.kind, hleft, h.source]
  dsimp only
  rw [hkey]
  exact congrArg Except.ok
    (if_neg fun hcontains => hactive (List.contains_iff_mem.mp hcontains))

theorem exists_assigned {s : Setting} {c : Cursor} (active : List Text)
    (h : c.node.kind = .assignment → ∀ left, c.child? .left = some left →
      ∃ key, left.node.aliasKey s.scheme = .ok key) :
    ∃ found, s.assigned active c = .ok found := by
  unfold Setting.assigned
  split
  · rename_i hkind
    split
    · rename_i left right hleft hright
      obtain ⟨name, hname⟩ := h hkind left hleft
      rw [hname]
      cases name with
      | none => exact ⟨none, rfl⟩
      | some key => exact ⟨_, rfl⟩
    · exact ⟨none, rfl⟩
  · exact ⟨none, rfl⟩

/-- What a visit gives if the texts of aliases are known. Of an assignment only the
assigned expression counts. -/
def visited (s : Setting) (full : Text → Text) (active : List Text) (c : Cursor) :
    Option (List Edit) :=
  match s.assigned active c with
  | .ok (some (_, right)) => some (right.walk.filterMap (substitution? s.scheme s.aliases full))
  | _ => (substitution? s.scheme s.aliases full c).map fun edit => [edit]

/-- One visit, given what the scans of expressions give. -/
theorem gives_visit {s : Setting} {full : Text → Text} {depth : Nat} {active : List Text}
    {c : Cursor} (hassigned : ∃ found, s.assigned active c = .ok found)
    (hname : ∃ name, c.node.aliasKey s.scheme = .ok name)
    (hwrite : ∀ key right, s.assigned active c = .ok (some (key, right)) →
      Counting.Gives Tally.cycles (right.collect (s.visit depth (key :: active)))
        (right.walk.filterMap (substitution? s.scheme s.aliases full)))
    (hread : ∀ key right, Reads s.scheme c key → s.aliases.get? key = some right →
      key ∉ active ∧ ∃ inner,
        Counting.Gives Tally.cycles (right.collect (s.visit depth (key :: active))) inner ∧
        Edit.applyAll (s.slice right.node) inner right.node.start = .ok (full key)) :
    Counting.Gives Tally.cycles (s.visit (depth + 1) active c) (visited s full active c) := by
  obtain ⟨found, hfound⟩ := hassigned
  obtain ⟨name, hname⟩ := hname
  unfold Setting.visit
  refine (Counting.Gives.ofExcept Tally.cycles Error.access hfound).bind ?_
  cases found with
  | some found =>
    obtain ⟨key, right⟩ := found
    have hvisited : visited s full active c =
        some (right.walk.filterMap (substitution? s.scheme s.aliases full)) := by
      simp only [visited, hfound]
    rw [hvisited]
    refine Counting.Gives.count_bind (fun _ => rfl) ?_
    exact (hwrite key right hfound).bind (.pure _ _)
  | none =>
    have hvisited : visited s full active c =
        (substitution? s.scheme s.aliases full c).map fun edit => [edit] := by
      simp only [visited, hfound]
    rw [hvisited]
    refine (Counting.Gives.ofExcept Tally.cycles Error.access hname).bind ?_
    cases name with
    | none =>
      rw [substitution?_of_aliasKey hname]
      exact .pure _ _
    | some key =>
      cases hwritten : c.isWritten with
      | true =>
        rw [substitution?_of_isWritten hwritten]
        dsimp only
        split
        · exact .pure _ _
        · rw [if_pos rfl]
          exact .count_bind (fun _ => rfl) (.pure _ _)
      | false =>
        rw [substitution?_of_reads ⟨hname, hwritten⟩]
        dsimp only
        cases hright : s.aliases.get? key with
        | none => exact .pure _ _
        | some right =>
          obtain ⟨hactive, inner, hinner, htext⟩ := hread key right ⟨hname, hwritten⟩ hright
          dsimp only
          rw [if_neg (by simp), if_neg (by simpa using hactive)]
          refine Counting.Gives.count_bind (fun _ => rfl) (hinner.bind ?_)
          exact (Counting.Gives.ofExcept _ _ htext).bind (.pure _ _)

/-- A walk that gives of assignments the assigned expressions misses no read. -/
theorem gathered_visited {s : Setting} {full : Text → Text} {active : List Text} {c : Cursor}
    (h : Expansion s full) (hshaped : c.node.isShaped = true) :
    c.gathered (visited s full active) =
      c.walk.filterMap (substitution? s.scheme s.aliases full) := by
  have hreplaces : c.Replaces (substitution? s.scheme s.aliases full) :=
    replaces_substitution? hshaped fun d _ key right _ hright => h.encodable key right hright
  refine Cursor.gathered_eq_filterMap (fun d hd found hfound => ?_) (fun d hd hnone => ?_)
  · unfold visited at hfound
    split at hfound
    · rename_i key right heq
      obtain ⟨ha, -⟩ := assigns_of_assigned heq
      rw [ha.filterMap_walk (Cursor.isShaped_of_mem_walk hshaped hd)]
      exact (Option.some.inj hfound).symm
    · obtain ⟨edit, hedit, rfl⟩ := Option.map_eq_some_iff.mp hfound
      exact ((hreplaces.of_mem_walk hd).filterMap_walk hedit).symm
  · unfold visited at hnone
    split at hnone
    · cases hnone
    · exact Option.map_eq_none_iff.mp hnone

/-! ### Dependencies that can be listed -/

/-- Which aliases depend on which, in source order. -/
def dependencies (scheme : Scheme) (root : Tree) : List (Text × Text) :=
  (Cursor.ofRoot root).walk.flatMap fun c =>
    match (Setting.mk scheme [] []).assigned [] c with
    | .ok (some (key, right)) =>
      right.walk.filterMap fun d =>
        match d.node.aliasKey scheme, d.isWritten with
        | .ok (some other), false => some (key, other)
        | _, _ => none
    | _ => []

theorem mem_dependencies {scheme : Scheme} {root : Tree} {key other : Text}
    (h : Depends scheme root key other) : (key, other) ∈ dependencies scheme root := by
  obtain ⟨c, right, d, hc, ha, hd, hreads⟩ := h
  refine List.mem_flatMap.mpr ⟨c, hc, ?_⟩
  have hassigned : (Setting.mk scheme [] []).assigned [] c = .ok (some (key, right)) :=
    assigned_of_assigns ha List.not_mem_nil
  rw [hassigned]
  refine List.mem_filterMap.mpr ⟨d, hd, ?_⟩
  rw [hreads.name, hreads.unwritten]

/-- Where aliases can be numbered so that they depend on lower ones only, none depends on
itself. -/
theorem acyclic_of_rank {scheme : Scheme} {root : Tree} (rank : Text → Nat)
    (h : ∀ d ∈ dependencies scheme root, rank d.2 < rank d.1) (key : Text) :
    ¬Relation.TransGen (Depends scheme root) key key := by
  have hfalls : ∀ k j, Relation.TransGen (Depends scheme root) k j → rank j < rank k := by
    intro k j hkj
    induction hkj with
    | single hdepends => exact h _ (mem_dependencies hdepends)
    | tail _ hdepends ih => exact Nat.lt_trans (h _ (mem_dependencies hdepends)) ih
  exact fun hcycle => Nat.lt_irrefl _ (hfalls key key hcycle)

/-! ### Whole scans -/

section

variable {scheme : Scheme} {p : Program} {aliases : Table} {full : Text → Text}

/-- How many aliases are not under way. -/
def remaining (aliases : Table) (active : List Text) : Nat :=
  (aliases.keys.filter fun key => !active.contains key).length

theorem remaining_cons_lt {active : List Text} {key : Text} (hkey : key ∈ aliases.keys)
    (hactive : key ∉ active) : remaining aliases (key :: active) < remaining aliases active := by
  have hsplit : (aliases.keys.filter fun k => !(key :: active).contains k) =
      (aliases.keys.filter fun k => !active.contains k).filter fun k => !(k == key) := by
    rw [List.filter_filter]
    congr 1
    funext k
    rw [List.contains_cons, Bool.not_or]
  rw [remaining, remaining, hsplit]
  refine List.length_filter_lt_length_iff_exists.mpr ⟨key, ?_, by simp⟩
  exact List.mem_filter.mpr ⟨hkey, by simpa using hactive⟩

/-- A scan replaces every read by the text of its alias, whatever is under way, as long as
all that is read depends on everything under way. -/
theorem Expansion.gives_collect (wellFormed : p.WellFormed) (readable : Readable scheme p.root)
    (collected : (collect p.root scheme).outcome = .ok aliases)
    (acyclic : ∀ key, ¬Relation.TransGen (Depends scheme p.root) key key)
    (h : Expansion ⟨scheme, aliases, p.bytes⟩ full) {depth : Nat} {active : List Text} {c : Cursor}
    (hc : c ∈ (Cursor.ofRoot p.root).walk) (hdepth : remaining aliases active < depth)
    (hactive : ∀ key ∈ active, ∀ d ∈ c.walk, ∀ other, Reads scheme d other →
      Relation.TransGen (Depends scheme p.root) key other) :
    Counting.Gives Tally.cycles
      (c.collect ((Setting.mk scheme aliases p.bytes).visit depth active))
      (c.walk.filterMap (substitution? scheme aliases full)) := by
  induction depth generalizing active c with
  | zero => omega
  | succ depth ih =>
    let s : Setting := ⟨scheme, aliases, p.bytes⟩
    have hwalk : ∀ d ∈ c.walk, d ∈ (Cursor.ofRoot p.root).walk :=
      fun d hd => Cursor.mem_walk_trans hc hd
    have hshaped : ∀ d ∈ c.walk, d.node.isShaped = true := fun d hd =>
      Cursor.isShaped_of_mem_walk (c := Cursor.ofRoot p.root) wellFormed.shaped (hwalk d hd)
    have hvisits : ∀ d ∈ c.walk,
        Counting.Gives Tally.cycles (s.visit (depth + 1) active d) (visited s full active d) := by
      intro d hd
      refine gives_visit (exists_assigned active fun hkind left hleft =>
          readable.exists_aliasKey wellFormed.shaped (hwalk d hd) hkind hleft)
        (readable d.node (Cursor.node_mem_preorder (hwalk d hd)))
        (fun key right heq => ?_) (fun key right hreads hright => ?_)
      · -- An assignment puts its alias under way; what its expression reads depends on it.
        obtain ⟨ha, hkey⟩ := assigns_of_assigned heq
        have hright := ha.right_mem_walk (hshaped d hd)
        have hmem := (mem_keys_collect collected).mpr ⟨d, hwalk d hd, right, ha⟩
        have hlt := remaining_cons_lt hmem hkey
        refine ih (Cursor.mem_walk_trans (hwalk d hd) hright) (by omega)
          fun key' hkey' e he other hreads => ?_
        rcases List.mem_cons.mp hkey' with rfl | hkey'
        · exact .single ⟨d, right, e, hwalk d hd, ha, he, hreads⟩
        · exact hactive key' hkey' e
            (Cursor.mem_walk_trans hd (Cursor.mem_walk_trans hright he)) other hreads
      · -- A read puts its alias under way; all that is under way depends on it.
        have hkey : key ∉ active := fun hkey =>
          acyclic key (hactive key hkey d hd key hreads)
        have hmem := mem_walk_of_get? wellFormed collected hright
        have hlt : remaining aliases (key :: active) < remaining aliases active :=
          remaining_cons_lt (Entries.mem_keys_of_get? hright) hkey
        refine ⟨hkey, _, ih hmem (by omega) fun key' hkey' e he other hreads' => ?_, ?_⟩
        · have hdepends := depends_of_get? collected hright he hreads'
          rcases List.mem_cons.mp hkey' with rfl | hkey'
          · exact .single hdepends
          · exact (hactive key' hkey' d hd key hreads).tail hdepends
        · obtain ⟨text, happly, hpatch, hencodable⟩ := exists_applyAll_slice wellFormed hmem
            fun e _ other right' _ hright' => h.encodable other right' hright'
          rw [happly, Utf8.eq_of_encode_eq hencodable (h.encodable key right hright)
            (hpatch.trans (h.encode_eq key right hright).symm)]
    have hgathered : c.gathered (visited s full active) =
        c.walk.filterMap (substitution? scheme aliases full) :=
      gathered_visited h (hshaped c (Cursor.mem_walk_self c))
    rw [← hgathered]
    exact Cursor.gives_collect hvisits

theorem remaining_lt_depthBound (s : Setting) (root : Tree) (active : List Text) :
    remaining s.aliases active < s.depthBound root := by
  have hkeys : s.aliases.keys.length = s.aliases.length := List.length_map ..
  have hle : remaining s.aliases active ≤ s.aliases.keys.length := List.length_filter_le ..
  rw [Setting.depthBound]
  omega

/-- Where no alias depends on itself, putting aliases in place is one substitution. Each
alias has one text, its expression with the texts of the aliases read in it put in place.
Every read of an alias is replaced by that text, in parentheses where its place asks for
them. Every other byte of the source stays, and no cycle is counted. The program may be
any that was read, by `Program.wellFormed_of_parse`. -/
theorem edits_of_acyclic (wellFormed : p.WellFormed) (readable : Readable scheme p.root)
    (acyclic : ∀ key, ¬Relation.TransGen (Depends scheme p.root) key key) :
    ∃ aliases, (collect p.root scheme).outcome = .ok aliases ∧
      ∃ full, Expansion ⟨scheme, aliases, p.bytes⟩ full ∧
        ∃ found tally, (Setting.mk scheme aliases p.bytes).edits p.root = (.ok found, tally) ∧
          found = (Cursor.ofRoot p.root).walk.filterMap (substitution? scheme aliases full) ∧
          tally.cycles = 0 ∧ Edit.Placed 0 p.bytes.length found ∧
          ∃ text, p.edited found = .ok text ∧ Utf8.encode text = Edit.patch 0 p.bytes found := by
  obtain ⟨aliases, collected⟩ := exists_collect wellFormed.shaped readable
  obtain ⟨full, hfull⟩ := exists_expansion wellFormed collected acyclic
  refine ⟨aliases, collected, full, hfull, ?_⟩
  obtain ⟨tally, hscan, hcycles⟩ := hfull.gives_collect wellFormed readable collected acyclic
    (Cursor.mem_walk_self _)
    (remaining_lt_depthBound (Setting.mk scheme aliases p.bytes) p.root [])
    (fun key hkey => absurd hkey List.not_mem_nil) {}
  refine ⟨_, tally, hscan, rfl, hcycles, ?_⟩
  exact wellFormed.exists_edited (replaces_substitution? wellFormed.shaped
    fun d _ key right _ hright => hfull.encodable key right hright)

end

/-- The theorem at a program with an assignment inside of another, an alias that reads an
alias, and a read that needs parentheses. -/
theorem edits_of_acyclic_sample :
    let source := "a.G.x = a.G.y = p + q; a.G.z = f(a.G.x); use(a.G.z * a.G['y']);".toText
    let scheme := Scheme.standard
    let found : List Edit := [⟨33, 38, "a.G.y = p + q".toText⟩,
      ⟨45, 50, "f(a.G.y = p + q)".toText⟩, ⟨53, 61, "(p + q)".toText⟩]
    let text := ("a.G.x = a.G.y = p + q; a.G.z = f(a.G.y = p + q); ".toText ++
      "use(f(a.G.y = p + q) * (p + q));".toText)
    ∃ p, Program.parse source = .ok p ∧ Readable scheme p.root ∧
      (∀ key, ¬Relation.TransGen (Depends scheme p.root) key key) ∧
      ∃ aliases, (collect p.root scheme).outcome = .ok aliases ∧
        ∃ full, Expansion ⟨scheme, aliases, p.bytes⟩ full ∧
          ∃ tally, (Setting.mk scheme aliases p.bytes).edits p.root = (.ok found, tally) ∧
            found = (Cursor.ofRoot p.root).walk.filterMap (substitution? scheme aliases full) ∧
            tally.cycles = 0 ∧ Edit.Placed 0 p.bytes.length found ∧
            p.edited found = .ok text ∧ Utf8.encode text = Edit.patch 0 p.bytes found := by
  intro source scheme found text
  obtain ⟨p, hparse, hnames, hrank, aliases, hcollect, hscan, hpatch⟩ : ∃ p,
      Program.parse source = .ok p ∧
      (∀ t ∈ p.root.preorder, (t.aliasKey scheme).isOk = true) ∧
      (∀ d ∈ dependencies scheme p.root,
        (if d.2 = "z".toText then 1 else 0) < if d.1 = "z".toText then 1 else 0) ∧
      ∃ aliases, (collect p.root scheme).outcome = .ok aliases ∧
        ((Setting.mk scheme aliases p.bytes).edits p.root).1 = .ok found ∧
        Edit.patch 0 p.bytes found = Utf8.encode text := by
    decide +kernel
  have readable : Readable scheme p.root := by
    intro t ht
    have hname := hnames t ht
    cases hkey : t.aliasKey scheme with
    | error e => rw [hkey] at hname; cases hname
    | ok key => exact ⟨key, rfl⟩
  have acyclic := acyclic_of_rank (fun key => if key = "z".toText then 1 else 0) hrank
  obtain ⟨aliases', hcollect', full, hfull, found', tally, hscan', hfound, hcycles, hplaced, -⟩ :=
    edits_of_acyclic (Program.wellFormed_of_parse hparse) readable acyclic
  obtain rfl : aliases' = aliases := Except.ok.inj (hcollect'.symm.trans hcollect)
  obtain rfl : found' = found := by
    rw [hscan'] at hscan
    exact Except.ok.inj hscan
  have hedited : p.edited found = .ok text := by
    have hspaced : Edit.Spaced 0 (0 + p.bytes.length) found := by
      rw [Nat.zero_add]
      exact hplaced.spaced
    have hascii : ∀ edit ∈ found, edit.replacement.all CodePoint.isAscii = true := by decide
    have hencodable : Utf8.Encodable text := Utf8.encodable_of_isAscii (by decide)
    rw [Program.edited, Edit.applyAll, Edit.applyInOrder_ordered hspaced hplaced.pairwise
      (List.Perm.refl _) fun edit hedit => Utf8.encodable_of_isAscii (hascii edit hedit), hpatch]
    simp only [Utf8.decode_encode hencodable]
  exact ⟨p, hparse, readable, acyclic, aliases', hcollect, full, hfull, tally, hscan', hfound,
    hcycles, hplaced, hedited, hpatch.symm⟩

end Unproxy.Alias
