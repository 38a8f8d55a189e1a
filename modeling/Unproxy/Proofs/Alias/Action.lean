import Mathlib
import Unproxy.Proofs.Alias.Substitution
import Unproxy.Proofs.Syntax.Nodes

/-!
# Unproxy.Proofs.Alias.Action

A visit first decides what is to be done at a node and then does it. What it does may be to
scan another expression, with one more alias under way. There are only so many aliases that can
come under way, so the bound on the depth of a scan is never felt.

Main definitions:

* `Alias.Action`, `Alias.Setting.action`: what is to be done at a node;
* `Alias.Setting.pending`: the aliases that may still come under way below a node;
* `Alias.Setting.Unbounded`: visits whose scans of other expressions have no bound;
* `Alias.Setting.explore`: those visits.

Main statements:

* `Alias.Setting.visit_succ`: a visit decides, then acts;
* `Alias.Setting.suits_of_action`: what each decision rests on;
* `Alias.Action.perform_cases`: what each decision leads to;
* `Alias.Setting.card_pending_lt_of_action`: fewer aliases may come under way in an expression
  that is scanned than at the node it is scanned for;
* `Alias.Setting.unbounded_explore`, `Alias.Setting.eq_explore_of_unbounded`: visits without a
  bound exist, and there are no others;
* `Alias.Setting.edits_eq_explore`: the scan of a program is the one without a bound.
-/

namespace Unproxy.Alias

open Syntax

/-! ### Decisions -/

/-- What is to be done at a node. -/
inductive Action where
  /-- The node neither names an alias of the program nor assigns to one that is not under
  way. -/
  | pass
  /-- An alias is written. -/
  | write
  /-- A read of an alias that is under way stays. -/
  | leave
  /-- The expression assigned to an alias is scanned. -/
  | assign (key : Text) (right : Cursor)
  /-- A read gives way to the expression of its alias. -/
  | replace (key : Text) (right : Cursor)

namespace Action

/-- The alias that comes under way, and the expression that is scanned meanwhile. -/
def entered : Action → Option (Text × Cursor)
  | pass | write | leave => none
  | assign key right | replace key right => some (key, right)

/-- What is counted. -/
def counted : Action → Tally → Tally
  | pass, tally => tally
  | write, tally | assign _ _, tally => { tally with skippedWrites := tally.skippedWrites + 1 }
  | leave, tally => { tally with cycles := tally.cycles + 1 }
  | replace _ _, tally => { tally with inlined := tally.inlined + 1 }

/-- Does what is to be done at a node, given how other expressions are scanned. -/
def perform (s : Setting) (c : Cursor) (scan : Text → Cursor → Counting Error Tally (List Edit))
    (action : Action) : Counting Error Tally (Option (List Edit)) := do
  Counting.count action.counted
  match action with
  | pass | write | leave => return none
  | assign key right => return some (← scan key right)
  | replace key right =>
    let inner ← scan key right
    let text ← Counting.ofExcept Error.edit
      (Edit.applyAll (s.slice right.node) inner right.node.start)
    return some [c.replaceBy text right.node.strength]

/-- What a decision rests on. -/
def Suits (s : Setting) (active : List Text) (c : Cursor) : Action → Prop
  | pass => (∀ key right, Assigns s.scheme c key right → key ∈ active) ∧
      ∀ key, Reads s.scheme c key → key ∉ s.aliases.keys
  | write => c.isWritten = true ∧ ∃ key ∈ s.aliases.keys, c.node.aliasKey s.scheme = .ok (some key)
  | leave => ∃ key ∈ s.aliases.keys, Reads s.scheme c key ∧ key ∈ active
  | assign key right => Assigns s.scheme c key right ∧ key ∉ active
  | replace key right => Reads s.scheme c key ∧ s.aliases.get? key = some right ∧ key ∉ active

/-- Only the scan of the expression that is entered matters. -/
theorem perform_congr {s : Setting} {c : Cursor}
    {scan scan' : Text → Cursor → Counting Error Tally (List Edit)} {action : Action}
    (h : ∀ key right, action.entered = some (key, right) → scan key right = scan' key right) :
    action.perform s c scan = action.perform s c scan' := by
  cases action with
  | pass => rfl
  | write => rfl
  | leave => rfl
  | assign key right => simp only [perform, h key right rfl]
  | replace key right => simp only [perform, h key right rfl]

/-- What is done at a node is counted first. Then either nothing is given, or what the scan of
an expression gives, or the node is replaced by the expression after such a scan. -/
theorem perform_cases {s : Setting} {c : Cursor}
    {scan : Text → Cursor → Counting Error Tally (List Edit)} {action : Action}
    {found : Option (List Edit)} {tally tally' : Tally}
    (h : Counting.tallied (action.perform s c scan) tally = (.ok found, tally')) :
    (action.entered = none ∧ found = none ∧ tally' = action.counted tally) ∨
      (∃ key right part, action = .assign key right ∧ found = some part ∧
        Counting.tallied (scan key right) (action.counted tally) = (.ok part, tally')) ∨
      ∃ key right inner text, action = .replace key right ∧
        found = some [c.replaceBy text right.node.strength] ∧
        Counting.tallied (scan key right) (action.counted tally) = (.ok inner, tally') ∧
        Edit.applyAll (s.slice right.node) inner right.node.start = .ok text := by
  obtain ⟨_, _, hcount, h⟩ := Counting.exists_of_tallied_bind h
  cases hcount
  cases action with
  | pass => cases h; exact .inl ⟨rfl, rfl, rfl⟩
  | write => cases h; exact .inl ⟨rfl, rfl, rfl⟩
  | leave => cases h; exact .inl ⟨rfl, rfl, rfl⟩
  | assign key right =>
    obtain ⟨part, last, hpart, h⟩ := Counting.exists_of_tallied_bind h
    cases h
    exact .inr (.inl ⟨key, right, part, rfl, rfl, hpart⟩)
  | replace key right =>
    obtain ⟨inner, last, hinner, h⟩ := Counting.exists_of_tallied_bind h
    obtain ⟨text, _, htext, h⟩ := Counting.exists_of_tallied_bind h
    have hok := Counting.eq_ok_of_tallied_ofExcept htext
    rw [hok] at htext
    cases htext
    cases h
    exact .inr (.inr ⟨key, right, inner, text, rfl, rfl, hinner, hok⟩)

end Action

namespace Setting

/-- What is to be done at a node. -/
def action (s : Setting) (active : List Text) (c : Cursor) : Except Access.Error Action := do
  match ← s.assigned active c with
  | some (key, right) => return .assign key right
  | none =>
    match ← c.node.aliasKey s.scheme with
    | none => return .pass
    | some key =>
      match s.aliases.get? key with
      | none => return .pass
      | some right =>
        return if c.isWritten then .write
          else if active.contains key then .leave
          else .replace key right

variable {s : Setting} {active : List Text} {c : Cursor}

/-- A visit decides, then acts. -/
theorem visit_succ (depth : Nat) :
    s.visit (depth + 1) active c =
      (Counting.ofExcept Error.access (s.action active c) >>= fun action =>
        action.perform s c fun key right => right.collect (s.visit depth (key :: active))) := by
  rw [visit, action, Counting.ofExcept_bind, bind_assoc]
  congr 1
  funext assigned
  cases assigned with
  | some assigned => rfl
  | none =>
    dsimp only
    rw [Counting.ofExcept_bind, bind_assoc]
    congr 1
    funext name
    cases name with
    | none => rfl
    | some key =>
      dsimp only
      cases s.aliases.get? key with
      | none => rfl
      | some right =>
        cases c.isWritten with
        | true => rfl
        | false => cases active.contains key <;> rfl

theorem suits_of_action {action : Action} (h : s.action active c = .ok action) :
    action.Suits s active c := by
  unfold Setting.action at h
  obtain ⟨assigned, hassigned, h⟩ := exists_of_bind_eq_ok h
  cases assigned with
  | some assigned =>
    cases h
    exact assigns_of_assigned hassigned
  | none =>
    have hnone : ∀ key right, Assigns s.scheme c key right → key ∈ active := by
      intro key right ha
      by_contra hactive
      rw [assigned_of_assigns ha hactive] at hassigned
      cases hassigned
    obtain ⟨name, hname, h⟩ := exists_of_bind_eq_ok h
    cases name with
    | none =>
      cases h
      refine ⟨hnone, fun key hreads => ?_⟩
      rw [hreads.name] at hname
      cases hname
    | some key =>
      dsimp only at h
      split at h
      · rename_i hmissing
        cases h
        refine ⟨hnone, fun other hreads hmem => ?_⟩
        obtain rfl := hreads.unique ⟨hname, hreads.unwritten⟩
        rw [← Entries.get?_isSome_iff, hmissing] at hmem
        cases hmem
      · rename_i right hright
        have hkey := Entries.mem_keys_of_get? hright
        have h := Except.ok.inj h
        cases hwritten : c.isWritten with
        | true =>
          rw [hwritten, if_pos rfl] at h
          cases h
          exact ⟨hwritten, key, hkey, hname⟩
        | false =>
          rw [hwritten, if_neg (by simp)] at h
          by_cases hactive : key ∈ active
          · rw [if_pos (List.contains_iff_mem.mpr hactive)] at h
            cases h
            exact ⟨key, hkey, ⟨hname, hwritten⟩, hactive⟩
          · rw [if_neg (by simpa using hactive)] at h
            cases h
            exact ⟨⟨hname, hwritten⟩, hright, hactive⟩

theorem action_of_assigns {key : Text} {right : Cursor} (h : Assigns s.scheme c key right)
    (hactive : key ∉ active) : s.action active c = .ok (.assign key right) := by
  rw [action, assigned_of_assigns h hactive]
  rfl

/-- A read of an alias of the program stays if the alias is under way, and gives way to the
expression otherwise. -/
theorem action_of_reads {key : Text} {right : Cursor} (hreads : Reads s.scheme c key)
    (hright : s.aliases.get? key = some right) :
    s.action active c = .ok (if active.contains key then .leave else .replace key right) := by
  have hassigned : s.assigned active c = .ok none := if_neg hreads.kind_ne
  simp [action, hassigned, hreads.name, hright, hreads.unwritten, bind, Except.bind, pure,
    Except.pure]

end Setting

/-! ### Aliases that may come under way -/

/-- The alias that a node assigns to. -/
def target? (scheme : Scheme) (t : Tree) : Option Text :=
  if t.kind = .assignment then
    (t.child? .left).bind fun left =>
      match left.aliasKey scheme with
      | .ok key => key
      | .error _ => none
  else none

/-- The aliases that are assigned to in a subtree. -/
def targets (scheme : Scheme) (t : Tree) : List Text := t.nodes.filterMap (target? scheme)

theorem Assigns.mem_targets {scheme : Scheme} {c right : Cursor} {key : Text}
    (h : Assigns scheme c key right) : key ∈ targets scheme c.node := by
  obtain ⟨left, hleft, hkey⟩ := h.target
  obtain ⟨t, ht, rfl⟩ := Option.map_eq_some_iff.mp hleft
  refine List.mem_filterMap.mpr ⟨c.node, Tree.mem_nodes_self _, ?_⟩
  rw [target?, if_pos h.kind, ht, Option.bind_some, hkey]

theorem Assigns.right_mem_nodes {scheme : Scheme} {c right : Cursor} {key : Text}
    (h : Assigns scheme c key right) : right.node ∈ c.node.nodes := by
  obtain ⟨t, ht, rfl⟩ := Option.map_eq_some_iff.mp h.source
  exact Tree.mem_nodes_of_child? ht

theorem targets_subset {scheme : Scheme} {t x : Tree} (h : x ∈ t.nodes) :
    targets scheme x ⊆ targets scheme t := by
  intro key hkey
  obtain ⟨y, hy, hkey⟩ := List.mem_filterMap.mp hkey
  exact List.mem_filterMap.mpr ⟨y, Tree.mem_nodes_trans h hy, hkey⟩

namespace Setting

/-- The aliases that can come under way below a node at all: those of the table, and those
assigned to below the node or in an expression of the table. -/
def candidates (s : Setting) (t : Tree) : List Text :=
  s.aliases.keys ++ targets s.scheme t ++
    s.aliases.flatMap fun (_, right) => targets s.scheme right.node

/-- The aliases that may still come under way below a node. -/
def pending (s : Setting) (active : List Text) (t : Tree) : Finset Text :=
  (s.candidates t).toFinset.filter (· ∉ active)

variable {s : Setting} {active : List Text} {c : Cursor}

theorem mem_candidates {t : Tree} {key : Text} :
    key ∈ s.candidates t ↔ key ∈ s.aliases.keys ∨ key ∈ targets s.scheme t ∨
      ∃ other right, (other, right) ∈ s.aliases ∧ key ∈ targets s.scheme right.node := by
  simp [candidates]

theorem candidates_subset_of_mem_nodes {t x : Tree} (h : x ∈ t.nodes) :
    s.candidates x ⊆ s.candidates t := by
  intro key hkey
  rw [mem_candidates] at hkey ⊢
  exact hkey.imp_right fun hkey => hkey.imp_left fun hkey => targets_subset h hkey

/-- Nothing new can come under way in an expression of the table. -/
theorem candidates_subset_of_get? {other : Text} {right : Cursor}
    (h : s.aliases.get? other = some right) (t : Tree) :
    s.candidates right.node ⊆ s.candidates t := by
  intro key hkey
  rw [mem_candidates] at hkey ⊢
  rcases hkey with hkey | hkey | hkey
  · exact .inl hkey
  · exact .inr (.inr ⟨other, right, Entries.mem_of_get? h, hkey⟩)
  · exact .inr (.inr hkey)

theorem card_pending_le {t x : Tree} (h : x ∈ t.nodes) :
    (s.pending active x).card ≤ (s.pending active t).card := by
  refine Finset.card_le_card fun key hkey => ?_
  obtain ⟨hmem, hactive⟩ := Finset.mem_filter.mp hkey
  have hmem := candidates_subset_of_mem_nodes h (List.mem_toFinset.mp hmem)
  exact Finset.mem_filter.mpr ⟨List.mem_toFinset.mpr hmem, hactive⟩

/-- Once an alias is under way, fewer may still come. -/
theorem card_pending_lt {t u : Tree} {key : Text} (hkey : key ∈ s.candidates t)
    (hactive : key ∉ active) (hsubset : s.candidates u ⊆ s.candidates t) :
    (s.pending (key :: active) u).card < (s.pending active t).card := by
  refine Finset.card_lt_card (Finset.ssubset_iff_of_subset ?_ |>.mpr ⟨key, ?_, ?_⟩)
  · intro other hother
    obtain ⟨hmem, hfresh⟩ := Finset.mem_filter.mp hother
    have hmem := hsubset (List.mem_toFinset.mp hmem)
    exact Finset.mem_filter.mpr ⟨List.mem_toFinset.mpr hmem,
      fun h => hfresh (List.mem_cons_of_mem key h)⟩
  · exact Finset.mem_filter.mpr ⟨List.mem_toFinset.mpr hkey, hactive⟩
  · exact fun h => (Finset.mem_filter.mp h).2 List.mem_cons_self

/-- Fewer aliases may come under way in an expression that is scanned than at the node it is
scanned for. -/
theorem card_pending_lt_of_action {action : Action} (h : s.action active c = .ok action)
    {key : Text} {right : Cursor} (hentered : action.entered = some (key, right)) :
    (s.pending (key :: active) right.node).card < (s.pending active c.node).card := by
  have hsuits := suits_of_action h
  cases action with
  | pass => cases hentered
  | write => cases hentered
  | leave => cases hentered
  | assign key' right' =>
    cases hentered
    obtain ⟨ha, hactive⟩ := hsuits
    exact card_pending_lt (mem_candidates.mpr (.inr (.inl ha.mem_targets))) hactive
      (candidates_subset_of_mem_nodes ha.right_mem_nodes)
  | replace key' right' =>
    cases hentered
    obtain ⟨-, hright, hactive⟩ := hsuits
    have hkey := Entries.mem_keys_of_get? hright
    exact card_pending_lt (mem_candidates.mpr (.inl hkey)) hactive
      (candidates_subset_of_get? hright c.node)

theorem length_flatMap_targets_le (aliases : Table) :
    (aliases.flatMap fun (_, right) => targets s.scheme right.node).length ≤
      Tree.sizeList (aliases.map fun (_, right) => right.node) := by
  induction aliases with
  | nil => exact Nat.le_refl _
  | cons entry aliases ih =>
    have hfirst : (targets s.scheme entry.2.node).length ≤ entry.2.node.size := by
      rw [← Tree.length_nodes]
      exact List.length_filterMap_le _ _
    rw [List.flatMap_cons, List.length_append, List.map_cons, Tree.sizeList]
    exact Nat.add_le_add hfirst ih

/-- The bound on the depth of a scan is beyond all that may come under way. -/
theorem card_pending_lt_depthBound (root : Tree) :
    (s.pending active root).card < s.depthBound root := by
  have hcard : (s.pending active root).card ≤ (s.candidates root).length :=
    (Finset.card_filter_le _ _).trans (List.toFinset_card_le _)
  have htargets : (targets s.scheme root).length ≤ root.size := by
    rw [← Tree.length_nodes]
    exact List.length_filterMap_le _ _
  have hothers := length_flatMap_targets_le (s := s) s.aliases
  have hkeys : s.aliases.keys.length = s.aliases.length := List.length_map _
  rw [candidates, List.length_append, List.length_append] at hcard
  have hbound : s.depthBound root = s.aliases.length + root.size +
      Tree.sizeList (s.aliases.map fun (_, right) => right.node) + 1 := rfl
  omega

/-! ### Visits without a bound -/

/-- Visits whose scans of other expressions are such visits again, with no bound on how deep
that goes. -/
def Unbounded (s : Setting)
    (visit : List Text → Cursor → Counting Error Tally (Option (List Edit))) : Prop :=
  ∀ active c, visit active c =
    (Counting.ofExcept Error.access (s.action active c) >>= fun action =>
      action.perform s c fun key right => right.collect (visit (key :: active)))

/-- The visit of a node, with a bound that it does not reach. -/
def explore (s : Setting) (active : List Text) (c : Cursor) :
    Counting Error Tally (Option (List Edit)) :=
  s.visit ((s.pending active c.node).card + 1) active c

/-- What is done at a node depends on the visits in the expression that is entered. -/
theorem act_congr {visit visit' : List Text → Cursor → Counting Error Tally (Option (List Edit))}
    (h : ∀ key d, (s.pending (key :: active) d.node).card < (s.pending active c.node).card →
      visit (key :: active) d = visit' (key :: active) d) :
    (Counting.ofExcept Error.access (s.action active c) >>= fun action =>
        action.perform s c fun key right => right.collect (visit (key :: active))) =
      (Counting.ofExcept Error.access (s.action active c) >>= fun action =>
        action.perform s c fun key right => right.collect (visit' (key :: active))) := by
  cases haction : s.action active c with
  | error e => rfl
  | ok action =>
    rw [Counting.ofExcept_ok_bind, Counting.ofExcept_ok_bind]
    refine Action.perform_congr fun key right hentered => Cursor.collect_congr fun d hd => ?_
    refine h key d ?_
    have hle : (s.pending (key :: active) d.node).card ≤ _ :=
      card_pending_le (Cursor.node_mem_nodes hd)
    exact Nat.lt_of_le_of_lt hle (card_pending_lt_of_action haction hentered)

/-- It does not matter by how much a bound is beyond what may come under way. -/
theorem visit_eq_visit {depth depth' : Nat} (h : (s.pending active c.node).card < depth)
    (h' : (s.pending active c.node).card < depth') :
    s.visit depth active c = s.visit depth' active c := by
  induction depth generalizing depth' active c with
  | zero => exact absurd h (Nat.not_lt_zero _)
  | succ depth ih =>
    obtain ⟨depth', rfl⟩ := Nat.exists_eq_add_one_of_ne_zero (Nat.ne_zero_of_lt h')
    rw [visit_succ, visit_succ]
    exact act_congr fun key d hlt => ih (by omega) (by omega)

theorem visit_eq_explore {depth : Nat} (h : (s.pending active c.node).card < depth) :
    s.visit depth active c = s.explore active c :=
  visit_eq_visit h (Nat.lt_succ_self _)

theorem unbounded_explore (s : Setting) : s.Unbounded s.explore := by
  intro active c
  rw [explore, visit_succ]
  exact act_congr fun key d hlt => visit_eq_explore hlt

/-- There is one way only to visit without a bound. -/
theorem eq_explore_of_unbounded
    {visit : List Text → Cursor → Counting Error Tally (Option (List Edit))}
    (h : s.Unbounded visit) : visit = s.explore := by
  have hall : ∀ n active c, (s.pending active c.node).card = n →
      visit active c = s.explore active c := by
    intro n
    induction n using Nat.strongRecOn with
    | ind n ih =>
      rintro active c rfl
      rw [h active c, s.unbounded_explore active c]
      exact act_congr fun key d hlt => ih _ hlt (key :: active) d rfl
  funext active c
  exact hall _ active c rfl

/-- The scan of a program is the one without a bound. -/
theorem edits_eq_explore (s : Setting) (root : Tree) :
    s.edits root = Counting.tallied ((Cursor.ofRoot root).collect (s.explore [])) {} := by
  rw [edits, Cursor.collect_congr fun d hd => visit_eq_explore ?_]
  exact Nat.lt_of_le_of_lt (card_pending_le (Cursor.node_mem_nodes hd))
    (card_pending_lt_depthBound root)

end Setting

end Unproxy.Alias
