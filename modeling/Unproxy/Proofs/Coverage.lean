import Mathlib
import Unproxy.Proofs.Access.Target
import Unproxy.Proofs.Alias.Visit
import Unproxy.Proofs.Resolution

/-!
# Unproxy.Proofs.Coverage

Which targets of a program are replaced, although something is written to them. Neither
resolution nor the replacement of aliases touches a target outside of a pattern. In a pattern
a target is taken for a read, and is replaced as a read would be.

Main statements:

* `Resolution.covers_iff_of_target`: the targets that resolution replaces;
* `Alias.covers_iff_of_target`: the targets that a scan for aliases replaces;
* `covers_target_iff`: the two together.
-/

namespace Unproxy

open Syntax

namespace Syntax.Cursor

/-- A target counts as read where it is a part of a pattern. -/
theorem Target.isWritten_eq_false_iff {c : Cursor} (h : c.Target) :
    c.isWritten = false ↔ c.isDestructured = true := by
  constructor
  · intro hwritten
    exact (target_iff.mp h).resolve_left (by simp [hwritten])
  · exact not_isWritten_of_isDestructured

end Syntax.Cursor

section

variable {source : Text} {p : Program} (parsed : Program.parse source = .ok p) {scheme : Scheme}
  {c : Cursor} (inside : c ∈ (Cursor.ofRoot p.root).walk) (access : c.node.isAccess = true)
  (target : c.Target)

include parsed inside access target

/-- An edit in place of a path that covers a target is in place of the target. -/
theorem Edit.Covers.eq {edit : Edit} (h : edit.Covers c.node) {d : Cursor}
    (hd : d ∈ (Cursor.ofRoot p.root).walk) (hpath : d.node.IsPath)
    (hstart : edit.start = d.node.start) (hstop : edit.stop = d.node.stop) : c = d := by
  have wellFormed := Program.wellFormed_of_parse parsed
  have hexceeds := Program.exceeds_of_parse parsed inside
  refine Cursor.eq_of_covers (r := Cursor.ofRoot p.root) wellFormed.shaped wellFormed.nested
    inside hd hexceeds access target hpath ?_ ?_
  · rw [← hstart]
    exact h.1
  · rw [← hstop]
    exact h.2

/-- Resolution replaces a target where it is a part of a pattern and names a table entry that
has a literal. -/
theorem Resolution.covers_iff_of_target {tables : Table.Decoded} {found : List Edit}
    (h : (edits scheme tables p.root).1 = .ok found) :
    (∃ edit ∈ found, edit.Covers c.node) ↔
      c.isDestructured = true ∧ ∃ table field value literal,
        c.node.proxyAccess scheme = .ok (some (table, field)) ∧
          lookup? tables table field = some value ∧ value.literal = .ok (some literal) := by
  have hshaped := (Program.wellFormed_of_parse parsed).shaped
  rw [edits_eq hshaped h, ← target.isWritten_eq_false_iff, ← exists_replacement?_iff]
  constructor
  · rintro ⟨edit, hedit, hcovers⟩
    obtain ⟨d, hd, hedit⟩ := List.mem_filterMap.mp hedit
    obtain ⟨⟨table, field, hread⟩, hstart, hstop, -⟩ := exists_of_replacement? hedit
    have hdshaped := Cursor.isShaped_of_mem_walk (c := Cursor.ofRoot p.root) hshaped hd
    obtain rfl := hcovers.eq parsed inside access target hd
      (Tree.isPath_of_proxyAccess hdshaped hread) hstart hstop
    exact ⟨edit, hedit⟩
  · rintro ⟨edit, hedit⟩
    obtain ⟨-, hstart, hstop, -⟩ := exists_of_replacement? hedit
    exact ⟨edit, List.mem_filterMap.mpr ⟨c, inside, hedit⟩, hstart.le, hstop.ge⟩

/-- A scan for aliases replaces a target where it is a part of a pattern and names an alias of
the program that is neither under way nor assigned around the target. -/
theorem Alias.covers_iff_of_target {aliases : Table}
    (collected : (collect p.root scheme).outcome = .ok aliases) {start : Cursor}
    (hstart : start ∈ (Cursor.ofRoot p.root).walk) {depth : Nat} {active : List Text}
    (hdepth : remaining aliases active < depth) {found : List Edit} {tally tally' : Tally}
    (hrun : Counting.tallied
      (start.collect ((Setting.mk scheme aliases p.bytes).visit depth active)) tally =
        (.ok found, tally')) :
    (∃ edit ∈ found, edit.Covers c.node) ↔
      c ∈ start.walk ∧ c.isDestructured = true ∧ ∃ key ∈ aliases.keys,
        c.node.aliasKey scheme = .ok (some key) ∧ key ∉ active ∧ ¬IsWithin scheme start c key := by
  have wellFormed := Program.wellFormed_of_parse parsed
  have hshaped := Cursor.isShaped_of_mem_walk (c := Cursor.ofRoot p.root) wellFormed.shaped hstart
  have hnested := Cursor.isNested_of_mem_walk (c := Cursor.ofRoot p.root) wellFormed.nested hstart
  rw [← target.isWritten_eq_false_iff]
  constructor
  · rintro ⟨edit, hedit, hcovers⟩
    obtain ⟨d, hd, hlow, hhigh, key, hreads, hkey, hfresh, hwithin⟩ :=
      exists_reads_of_mem_collect hshaped hnested.1 hrun hedit
    have hpath := Tree.isPath_of_namespaceKey (Cursor.isShaped_of_mem_walk hshaped hd) hreads.name
    obtain rfl := hcovers.eq parsed inside access target (Cursor.mem_walk_trans hstart hd) hpath
      hlow hhigh
    exact ⟨hd, hreads.unwritten, key, hkey, hreads.name, hfresh, hwithin⟩
  · rintro ⟨hc, hwritten, key, hkey, hname, hfresh, hwithin⟩
    obtain ⟨edit, hedit, hlow, hhigh⟩ := exists_edit_of_reads wellFormed collected hstart hc
      ⟨hname, hwritten⟩ hkey hwithin hfresh hdepth hrun
    exact ⟨edit, hedit, hlow.le, hhigh.ge⟩

end

/-- A property that a program writes to is never replaced outside of a pattern, neither by
resolution nor by a scan for aliases from any node on, whatever is under way. In a pattern it
is replaced exactly where a read in its place would be. -/
theorem covers_target_iff {source : Text} {p : Program} (parsed : Program.parse source = .ok p)
    (scheme : Scheme) {c : Cursor} (inside : c ∈ (Cursor.ofRoot p.root).walk)
    (access : c.node.isAccess = true) (target : c.Target) :
    (∀ tables found, (Resolution.edits scheme tables p.root).1 = .ok found →
      ((∃ edit ∈ found, edit.Covers c.node) ↔
        c.isDestructured = true ∧ ∃ table field value literal,
          c.node.proxyAccess scheme = .ok (some (table, field)) ∧
            Resolution.lookup? tables table field = some value ∧
            value.literal = .ok (some literal))) ∧
      ∀ aliases, (Alias.collect p.root scheme).outcome = .ok aliases →
        ∀ start ∈ (Cursor.ofRoot p.root).walk, ∀ depth active tally found tally',
          Alias.remaining aliases active < depth →
          Counting.tallied
            (start.collect ((Alias.Setting.mk scheme aliases p.bytes).visit depth active)) tally =
              (.ok found, tally') →
          ((∃ edit ∈ found, edit.Covers c.node) ↔
            c ∈ start.walk ∧ c.isDestructured = true ∧ ∃ key ∈ aliases.keys,
              c.node.aliasKey scheme = .ok (some key) ∧ key ∉ active ∧
                ¬Alias.IsWithin scheme start c key) :=
  ⟨fun _ _ h => Resolution.covers_iff_of_target parsed inside access target h,
    fun _ collected _ hstart _ _ _ _ _ hdepth hrun =>
      Alias.covers_iff_of_target parsed inside access target collected hstart hdepth hrun⟩

/-- The theorem at a program that assigns to an alias in a pattern: the target is replaced by
what was assigned to the alias before. -/
theorem covers_target_iff_sample :
    let source := "a.G.x = b.c;\n[a.G.x] = arr;".toText
    let scheme := Scheme.standard
    ∃ p c aliases, Program.parse source = .ok p ∧ c ∈ (Cursor.ofRoot p.root).walk ∧
      c.node.isAccess = true ∧ c.Target ∧ (Alias.collect p.root scheme).outcome = .ok aliases ∧
      ((Alias.Setting.mk scheme aliases p.bytes).edits p.root).1 =
        .ok [⟨14, 19, "b.c".toText⟩] ∧
      Edit.Covers ⟨14, 19, "b.c".toText⟩ c.node ∧ c.isDestructured = true ∧
      ∃ key ∈ aliases.keys, c.node.aliasKey scheme = .ok (some key) ∧
        ¬Alias.IsWithin scheme (Cursor.ofRoot p.root) c key := by
  intro source scheme
  obtain ⟨p, parsed, aliases, collected, hedits, c, inside, access, hdestructured, hstart, hstop⟩ :
      ∃ p, Program.parse source = .ok p ∧
        ∃ aliases, (Alias.collect p.root scheme).outcome = .ok aliases ∧
        ((Alias.Setting.mk scheme aliases p.bytes).edits p.root).1 =
          .ok [⟨14, 19, "b.c".toText⟩] ∧
        ∃ c ∈ (Cursor.ofRoot p.root).walk, c.node.isAccess = true ∧ c.isDestructured = true ∧
          c.node.start = 14 ∧ c.node.stop = 19 := by
    decide +kernel
  have target : c.Target := Cursor.target_iff.mpr (.inr hdestructured)
  have hcovers : Edit.Covers ⟨14, 19, "b.c".toText⟩ c.node := ⟨hstart.ge, hstop.le⟩
  have hiff := (covers_target_iff parsed scheme inside access target).2 aliases collected
    (Cursor.ofRoot p.root) (Cursor.mem_walk_self _) _ [] {} _ _
    (Alias.remaining_lt_depthBound ⟨scheme, aliases, p.bytes⟩ p.root []) (Prod.ext hedits rfl)
  obtain ⟨-, -, key, hkey, hname, -, hwithin⟩ := hiff.mp ⟨_, List.mem_singleton_self _, hcovers⟩
  exact ⟨p, c, aliases, parsed, inside, access, target, collected, hedits, hcovers, hdestructured,
    key, hkey, hname, hwithin⟩

end Unproxy
