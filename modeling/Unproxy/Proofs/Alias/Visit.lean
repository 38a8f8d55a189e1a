import Mathlib
import Unproxy.Proofs.Alias.Action

/-!
# Unproxy.Proofs.Alias.Visit

Which nodes a scan for aliases replaces, whatever is under way: the reads of aliases that are
neither under way nor assigned around the read.

Main definitions:

* `Alias.IsReplaced`: a read that does not stay;
* `Alias.IsWithin`: a node inside of an assignment to an alias.

Main statements:

* `Alias.visit_cases`: all that a visit can do;
* `Alias.exists_reads_of_mem_collect`: every edit replaces such a read;
* `Alias.exists_edit_of_reads`: every such read is replaced.
-/

namespace Unproxy.Alias

open Syntax

/-- A read of an alias of the program that is not under way. -/
def IsReplaced (s : Setting) (active : List Text) (c : Cursor) : Prop :=
  ∃ key, Reads s.scheme c key ∧ key ∈ s.aliases.keys ∧ key ∉ active

/-- A node inside of an assignment to an alias that is found below `start`. -/
def IsWithin (scheme : Scheme) (start c : Cursor) (key : Text) : Prop :=
  ∃ d ∈ start.walk, c ∈ d.walk ∧ ∃ right, Assigns scheme d key right

/-- What is inside of an assignment below a node is inside of one further down, unless the node
itself is the assignment. -/
theorem IsWithin.below {scheme : Scheme} {start d c : Cursor} {key : Text}
    (h : IsWithin scheme start c key) (hnested : start.node.isNested = true) (hd : d ∈ start.below)
    (hc : c ∈ d.walk) (hlt : c.node.start < c.node.stop) :
    (∃ right, Assigns scheme start key right) ∨ IsWithin scheme d c key := by
  obtain ⟨e, he, hce, ha⟩ := h
  rcases Cursor.mem_walk.mp he with rfl | ⟨b, hb, he⟩
  · exact .inl ha
  · obtain rfl := Cursor.eq_of_mem_walk_of_below hnested hd hb hc (Cursor.mem_walk_trans he hce) hlt
    exact .inr ⟨e, he, hce, ha⟩

section

variable {s : Setting} {depth : Nat} {active : List Text} {c : Cursor}

/-! ### One visit -/

/-- All that a visit can do: leave a node that is neither replaced nor an assignment to an
alias that is not under way, go on to the expression of such an assignment, or replace a
read. -/
theorem visit_cases {found : Option (List Edit)} {tally tally' : Tally}
    (h : Counting.tallied (s.visit (depth + 1) active c) tally = (.ok found, tally')) :
    (found = none ∧ ¬IsReplaced s active c ∧
        ∀ key right, Assigns s.scheme c key right → key ∈ active) ∨
      (∃ key right part first last, Assigns s.scheme c key right ∧ key ∉ active ∧
        Counting.tallied (right.collect (s.visit depth (key :: active))) first = (.ok part, last) ∧
        found = some part) ∨
      ∃ key right inner text first last, Reads s.scheme c key ∧ s.aliases.get? key = some right ∧
        key ∉ active ∧
        Counting.tallied (right.collect (s.visit depth (key :: active))) first = (.ok inner, last) ∧
        Edit.applyAll (s.slice right.node) inner right.node.start = .ok text ∧
        found = some [c.replaceBy text right.node.strength] := by
  rw [Setting.visit_succ] at h
  obtain ⟨action, _, haction, h⟩ := Counting.exists_of_tallied_bind h
  have haction := Counting.eq_ok_of_tallied_ofExcept haction
  have hsuits := Setting.suits_of_action haction
  rcases Action.perform_cases h with ⟨hnone, rfl, -⟩ | ⟨key, right, part, rfl, rfl, hpart⟩ |
    ⟨key, right, inner, text, rfl, rfl, hinner, htext⟩
  · -- Reads and assignments that do not stay would have been entered.
    refine .inl ⟨rfl, ?_, ?_⟩
    · rintro ⟨key, hreads, hkey, hactive⟩
      obtain ⟨right, hright⟩ := Entries.exists_get?_of_mem_keys hkey
      rw [Setting.action_of_reads hreads hright, if_neg (by simpa using hactive)] at haction
      cases haction
      cases hnone
    · intro key right ha
      by_contra hactive
      rw [Setting.action_of_assigns ha hactive] at haction
      cases haction
      cases hnone
  · exact .inr (.inl ⟨key, right, part, _, _, hsuits.1, hsuits.2, hpart, rfl⟩)
  · obtain ⟨hreads, hright, hactive⟩ := hsuits
    exact .inr (.inr ⟨key, right, inner, text, _, _, hreads, hright, hactive, hinner, htext, rfl⟩)

/-! ### Every edit replaces a read -/

/-- A scan that may not go down at all finds nothing. -/
theorem eq_nil_of_collect_zero {found : List Edit} {tally tally' : Tally}
    (hrun : Counting.tallied (c.collect (s.visit 0 active)) tally = (.ok found, tally')) :
    found = [] := by
  induction c using Cursor.induction_below generalizing found tally tally' with
  | step c ih =>
    refine List.eq_nil_iff_forall_not_mem.mpr fun edit hedit => ?_
    obtain ⟨r, middle, hvisit, hfound⟩ := Cursor.exists_of_mem_collect hrun
    cases hvisit
    obtain ⟨d, hd, part, first, last, hpart, hmem⟩ := hfound edit hedit
    rw [ih d hd hpart] at hmem
    cases hmem

/-- Every edit that a scan finds replaces a read of an alias that is not under way, and that
is not assigned around the read. -/
theorem exists_reads_of_mem_collect {found : List Edit} {tally tally' : Tally}
    (hshaped : c.node.isShaped = true) (hnested : c.node.isNested = true)
    (hrun : Counting.tallied (c.collect (s.visit depth active)) tally = (.ok found, tally'))
    {edit : Edit} (hedit : edit ∈ found) :
    ∃ d ∈ c.walk, edit.start = d.node.start ∧ edit.stop = d.node.stop ∧
      ∃ key, Reads s.scheme d key ∧ key ∈ s.aliases.keys ∧ key ∉ active ∧
        ¬IsWithin s.scheme c d key := by
  induction c using Cursor.induction_below generalizing depth active found tally tally' with
  | step c ih =>
    cases depth with
    | zero =>
      rw [eq_nil_of_collect_zero hrun] at hedit
      cases hedit
    | succ depth =>
      -- What is found below is found in one of the nodes there, and is within no other.
      have hinside : ∀ b ∈ c.below, ∀ depth active' part first last,
          Counting.tallied (b.collect (s.visit depth active')) first = (.ok part, last) →
          edit ∈ part → (∀ key ∈ active, key ∈ active') →
          (∀ key right, Assigns s.scheme c key right → key ∈ active') →
          ∃ d ∈ c.walk, edit.start = d.node.start ∧ edit.stop = d.node.stop ∧
            ∃ key, Reads s.scheme d key ∧ key ∈ s.aliases.keys ∧ key ∉ active ∧
              ¬IsWithin s.scheme c d key := by
        intro b hb depth active' part first last hpart hmem hactive hassigns
        have hbmem := Cursor.mem_walk_of_below hb (Cursor.mem_walk_self b)
        have hbshaped := Cursor.isShaped_of_mem_walk hshaped hbmem
        have hbnested := (Cursor.isNested_of_mem_walk hnested hbmem).1
        obtain ⟨d, hd, hstart, hstop, key, hreads, hkey, hfresh, hwithin⟩ :=
          ih b hb hbshaped hbnested hpart hmem
        refine ⟨d, Cursor.mem_walk_of_below hb hd, hstart, hstop, key, hreads, hkey,
          fun h => hfresh (hactive key h), ?_⟩
        intro h
        have hlt := Tree.start_lt_stop (Cursor.isShaped_of_mem_walk hbshaped hd)
          (Tree.exists_of_namespaceKey hreads.name).1
        rcases h.below hnested hb hd hlt with ⟨right, ha⟩ | h
        · exact hfresh (hassigns key right ha)
        · exact hwithin h
      obtain ⟨r, middle, hvisit, hfound⟩ := Cursor.exists_of_mem_collect hrun
      rcases visit_cases hvisit with ⟨rfl, -, hnone⟩ |
        ⟨key, right, part, _, _, ha, -, hpart, rfl⟩ |
        ⟨key, right, inner, text, _, _, hreads, hright, hkey, -, -, rfl⟩
      · obtain ⟨b, hb, part, first, last, hpart, hmem⟩ := hfound edit hedit
        exact hinside b hb _ active part first last hpart hmem (fun _ h => h) hnone
      · obtain rfl : found = part := hfound
        refine hinside right (ha.right_mem_below hshaped) _ (key :: active) found _ _ hpart
          hedit (fun _ h => List.mem_cons_of_mem key h) fun key' right' ha' => ?_
        rw [(ha.unique ha').1]
        exact List.mem_cons_self
      · obtain rfl : found = [c.replaceBy text right.node.strength] := hfound
        obtain rfl := List.mem_singleton.mp hedit
        refine ⟨c, Cursor.mem_walk_self c, rfl, rfl, key, hreads,
          Entries.mem_keys_of_get? hright, hkey, ?_⟩
        rintro ⟨e, he, hce, right', ha⟩
        obtain rfl := Cursor.mem_walk_antisymm he hce
        exact hreads.kind_ne ha.kind

end

/-! ### Every read is replaced -/

/-- A scan replaces every read of an alias that is not under way, and that is not assigned
around the read. -/
theorem exists_edit_of_reads {scheme : Scheme} {p : Program} {aliases : Table}
    (wellFormed : p.WellFormed) (collected : (collect p.root scheme).outcome = .ok aliases)
    {start c : Cursor} (hstart : start ∈ (Cursor.ofRoot p.root).walk) (hc : c ∈ start.walk)
    {key : Text} (hreads : Reads scheme c key) (hkey : key ∈ aliases.keys)
    (hwithin : ¬IsWithin scheme start c key) {depth : Nat} {active : List Text}
    (hfresh : key ∉ active) (hdepth : remaining aliases active < depth) {found : List Edit}
    {tally tally' : Tally}
    (hrun : Counting.tallied
      (start.collect ((Setting.mk scheme aliases p.bytes).visit depth active)) tally =
        (.ok found, tally')) :
    ∃ edit ∈ found, edit.start = c.node.start ∧ edit.stop = c.node.stop := by
  induction start using Cursor.induction_below generalizing depth active found tally tally' with
  | step start ih =>
    cases depth with
    | zero => omega
    | succ depth =>
      have hshaped :=
        Cursor.isShaped_of_mem_walk (c := Cursor.ofRoot p.root) wellFormed.shaped hstart
      have hbelow : ∀ b ∈ start.below, b ∈ (Cursor.ofRoot p.root).walk ∧
          (c ∈ b.walk → ¬IsWithin scheme b c key) := by
        intro b hb
        have hb' := Cursor.mem_walk_of_below hb (Cursor.mem_walk_self b)
        refine ⟨Cursor.mem_walk_trans hstart hb', fun _ h => hwithin ?_⟩
        obtain ⟨d, hd, h⟩ := h
        exact ⟨d, Cursor.mem_walk_of_below hb hd, h⟩
      obtain ⟨r, middle, hvisit, hfound⟩ := Cursor.exists_of_mem_collect hrun
      rcases visit_cases hvisit with ⟨rfl, hstays, -⟩ |
        ⟨key', right, part, _, _, ha, hkey', hpart, rfl⟩ |
        ⟨key', right, inner, text, _, _, hreads', -, -, -, -, rfl⟩
      · rcases Cursor.mem_walk.mp hc with rfl | ⟨b, hb, hcb⟩
        · exact absurd ⟨key, hreads, hkey, hfresh⟩ hstays
        · obtain ⟨part, _, _, hpart, hmem⟩ := Cursor.exists_part_of_collect hrun hvisit hb
          obtain ⟨edit, hedit, hrange⟩ := ih b hb (hbelow b hb).1 hcb ((hbelow b hb).2 hcb)
            hfresh hdepth hpart
          exact ⟨edit, hmem edit hedit, hrange⟩
      · -- The alias of the assignment comes under way, and it is another one.
        obtain rfl : found = part := hfound
        have hright := ha.right_mem_below hshaped
        have hcright := ha.mem_right_walk hshaped hc hreads
        have hne : key ≠ key' := by
          rintro rfl
          exact hwithin ⟨start, Cursor.mem_walk_self start, hc, right, ha⟩
        have hassigned := (mem_keys_collect collected).mpr ⟨start, hstart, right, ha⟩
        have hlt := remaining_cons_lt hassigned hkey'
        exact ih right hright (hbelow right hright).1 hcright ((hbelow right hright).2 hcright)
          (List.not_mem_cons_of_ne_of_not_mem hne hfresh) (by omega) hpart
      · obtain rfl : found = [start.replaceBy text right.node.strength] := hfound
        rcases Cursor.mem_walk.mp hc with rfl | ⟨b, hb, hcb⟩
        · exact ⟨_, List.mem_singleton_self _, rfl, rfl⟩
        · have hnone := Tree.aliasKey_below hshaped (Cursor.node_mem_namedChildren hb)
            (Cursor.node_mem_preorder hcb) hreads'.name
          rw [hreads.name] at hnone
          cases hnone

end Unproxy.Alias
