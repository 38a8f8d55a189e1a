import Mathlib
import Unproxy.Table.Extraction
import Unproxy.Proofs.Resolution
import Unproxy.Proofs.Table.Decoding
import Unproxy.Proofs.Value.Entries

/-!
# Unproxy.Proofs.Table.Selection

Decoding only the tables that a program reads is as good as decoding all of them. Each
table is decoded by itself, so what is left out changes no other table; and resolution
asks for no table that the scan for reads does not name.

Main definitions:

* `Resolution.FailsAlike`: a scan for reads and a resolution that fail in the same way.

Main statements:

* `Table.outcome_decodeAll_of_all`: some of the tables, if all can be decoded;
* `Resolution.edits_restrict`: resolution with the tables that are read;
* `Resolution.failsAlike_edits`: resolution fails where the scan for reads does;
* `Table.edits_of_referenced`: the two ways of decoding compared.
-/

namespace Unproxy

namespace Table

open Log

/-! ### Some of the tables -/

section

variable {raw : Raw} {scheme : Scheme}

/-- Tables without a raw form may be left out. -/
theorem foldlM_decodeStep_filter_has (wanted : List Text) (found : Decoded) :
    (wanted.filter fun table => raw.has table).foldlM (decodeStep raw scheme) found =
      wanted.foldlM (decodeStep raw scheme) found := by
  induction wanted generalizing found with
  | nil => rfl
  | cons table wanted ih =>
    rw [List.filter_cons]
    split
    · rw [List.foldlM_cons, List.foldlM_cons]
      exact congrArg _ (funext ih)
    · rename_i hhas
      have hnone : raw.get? table = none := by simpa [Entries.has] using hhas
      rw [List.foldlM_cons, decodeStep, hnone, ih]
      rfl

/-- If all tables of a row can be decoded, so can those of them that are picked, and they
have the same values. -/
theorem foldlM_decodeStep_filter (picked : Text → Bool) {tables : List Text}
    {found all : Decoded} (h : tables.foldlM (decodeStep raw scheme) found = .ok all) :
    (tables.filter picked).foldlM (decodeStep raw scheme) (found.restrict picked) =
      .ok (all.restrict picked) := by
  induction tables generalizing found with
  | nil =>
    cases h
    rfl
  | cons table tables ih =>
    rw [List.foldlM_cons] at h
    obtain ⟨next, hnext, h⟩ := exists_of_bind_eq_ok h
    have hrest := ih h
    by_cases hpicked : picked table = true
    · have hstep : decodeStep raw scheme (found.restrict picked) table =
          .ok (next.restrict picked) := by
        rcases decodeStep_cases hnext with ⟨hnone, rfl⟩ | ⟨codes, value, hcodes, hvalue, rfl⟩
        · rw [decodeStep, hnone]
        · rw [decodeStep, hcodes, Entries.restrict_set_of_picked hpicked]
          simp only [hvalue, Except.map]
      rw [List.filter_cons_of_pos hpicked, List.foldlM_cons, hstep]
      exact hrest
    · have hsame : next.restrict picked = found.restrict picked := by
        rcases decodeStep_cases hnext with ⟨-, rfl⟩ | ⟨codes, value, -, -, rfl⟩
        · rfl
        · exact Entries.restrict_set_of_not_picked hpicked value found
      rw [List.filter_cons_of_neg hpicked, ← hsame]
      exact hrest

/-- If all tables can be decoded, so can those that are wanted and named by the scheme; they
have the same values. -/
theorem outcome_decodeAll_of_all {all : Decoded} (h : (decodeAll raw scheme none).outcome = .ok all)
    {picked : Text → Bool} {wanted : List Text}
    (hwanted : wanted = scheme.encodedTables.filter picked) :
    (decodeAll raw scheme (some wanted)).outcome = .ok (all.restrict fun table =>
      wanted.contains table) := by
  rw [outcome_decodeAll_eq] at h ⊢
  rw [Option.getD_none] at h
  rw [Option.getD_some, ← foldlM_decodeStep_filter_has]
  have hsame : (wanted.filter fun table => raw.has table) =
      (scheme.encodedTables.filter fun table => raw.has table).filter
        fun table => wanted.contains table := by
    rw [List.filter_filter, hwanted, List.filter_filter]
    refine List.filter_congr fun table htable => ?_
    have hcontains : (scheme.encodedTables.filter picked).contains table = picked table := by
      rw [Bool.eq_iff_iff, List.contains_iff_mem, List.mem_filter]
      exact and_iff_right htable
    rw [hcontains, Bool.and_comm]
  rw [hsame]
  exact foldlM_decodeStep_filter _ h

end

end Table

namespace Resolution

open Syntax

/-! ### Resolution with the tables that are read -/

/-- The table that a node reads is one of those the scan for reads names. -/
theorem mem_of_referenced {root node : Tree} {scheme : Scheme} {wanted : List Text}
    (hscan : Table.referenced root scheme = .ok wanted) (hnode : node ∈ root.preorder)
    {table field : Text} (hread : node.proxyAccess scheme = .ok (some (table, field))) :
    table ∈ wanted := by
  unfold Table.referenced at hscan
  obtain ⟨reads, hreads, hscan⟩ := exists_of_bind_eq_ok hscan
  cases hscan
  have hmem : some (table, field) ∈ reads := by
    obtain ⟨read, hread', hmem⟩ := exists_mem_of_mapM_eq_ok hreads hnode
    rw [hread] at hread'
    cases hread'
    exact hmem
  refine List.mem_filter.mpr ⟨Tree.mem_encodedTables_of_proxyAccess hread, ?_⟩
  rw [List.contains_iff_mem]
  exact List.mem_filterMap.mpr ⟨some (table, field), hmem, rfl⟩

/-- Resolution looks up no table but those that are read. -/
theorem edits_restrict {root : Tree} {scheme : Scheme} {wanted : List Text}
    (hscan : Table.referenced root scheme = .ok wanted) (tables : Table.Decoded) :
    edits scheme (tables.restrict fun table => wanted.contains table) root =
      edits scheme tables root := by
  have hvisit : ∀ c ∈ (Cursor.ofRoot root).walk,
      visit scheme (tables.restrict fun table => wanted.contains table) c =
        visit scheme tables c := by
    intro c hc
    unfold visit
    cases hread : c.node.proxyAccess scheme with
    | error e => rfl
    | ok read =>
      cases read with
      | none => rfl
      | some read =>
        obtain ⟨table, field⟩ := read
        have hwanted : wanted.contains table = true :=
          List.contains_iff_mem.mpr
            (mem_of_referenced hscan (Cursor.node_mem_preorder hc) hread)
        have hsame : selected (tables.restrict fun table => wanted.contains table) table field =
            selected tables table field := by
          rw [selected, selected, Entries.get?_restrict hwanted]
        simp only [Counting.ofExcept_ok_bind, hsame]
  rw [edits, edits, Cursor.collect_congr hvisit]

/-! ### Where the scan for reads fails -/

/-- A scan for reads and a resolution that fail in the same way, unless the resolution fails
at a number. -/
def FailsAlike {α β : Type} (scan : Except Access.Error α) : Except Error β → Prop
  | .ok _ => ∃ a, scan = .ok a
  | .error (.access error) => scan = .error error
  | .error (.number _) => True

section

variable {scheme : Scheme} {tables : Table.Decoded} {α β γ δ : Type}

theorem FailsAlike.bind {scan : Except Access.Error α} {next : α → Except Access.Error β}
    {x : Counting Error Tally γ} {f : γ → Counting Error Tally δ} {tally : Tally}
    (hx : FailsAlike scan (x.tallied tally).1)
    (hf : ∀ a b tally', x.tallied tally = (.ok b, tally') →
      FailsAlike (next a) ((f b).tallied tally').1) :
    FailsAlike (scan >>= next) ((x >>= f).tallied tally).1 := by
  rw [Counting.tallied_bind]
  rcases hrun : x.tallied tally with ⟨e | b, tally'⟩
  · rw [hrun] at hx
    cases e with
    | access e =>
      have hscan : scan = .error e := hx
      rw [hscan]
      exact rfl
    | number e => exact trivial
  · rw [hrun] at hx
    obtain ⟨a, rfl⟩ : ∃ a, scan = .ok a := hx
    exact hf a b tally' hrun

theorem FailsAlike.map {scan : Except Access.Error α} {outcome : Except Error γ}
    (h : FailsAlike scan outcome) (f : α → β) :
    FailsAlike (scan >>= fun a => pure (f a)) outcome := by
  cases outcome with
  | ok c =>
    obtain ⟨a, rfl⟩ : ∃ a, scan = .ok a := h
    exact ⟨f a, rfl⟩
  | error e =>
    cases e with
    | access e =>
      have hscan : scan = .error e := h
      rw [hscan]
      exact rfl
    | number e => exact trivial

/-- A visit fails as the look at its node does, or at a number. -/
theorem failsAlike_visit (c : Cursor) (tally : Tally) :
    FailsAlike (c.node.proxyAccess scheme) ((visit scheme tables c).tallied tally).1 := by
  unfold visit
  cases hread : c.node.proxyAccess scheme with
  | error e => exact rfl
  | ok read =>
    cases read with
    | none => exact ⟨_, rfl⟩
    | some read =>
      obtain ⟨table, field⟩ := read
      cases hwritten : c.isWritten with
      | true => exact ⟨_, rfl⟩
      | false =>
        simp only [Counting.ofExcept_ok_bind]
        cases hentry : selected tables table field with
        | error e => exact trivial
        | ok entry =>
          cases entry with
          | none => exact ⟨_, rfl⟩
          | some entry =>
            simp only [Counting.ofExcept_ok_bind]
            cases hliteral : entry.literal with
            | error e => exact trivial
            | ok literal =>
              cases literal with
              | none => exact ⟨_, rfl⟩
              | some literal => exact ⟨_, rfl⟩

theorem failsAlike_collectRow {cs : List Cursor}
    (h : ∀ c ∈ cs, ∀ tally, FailsAlike (c.node.preorder.mapM fun node => node.proxyAccess scheme)
      ((c.collect (visit scheme tables)).tallied tally).1) (tally : Tally) :
    FailsAlike (((cs.map Cursor.node).flatMap Tree.preorder).mapM fun node => node.proxyAccess scheme)
      ((Cursor.collectRow (visit scheme tables) cs).tallied tally).1 := by
  induction cs generalizing tally with
  | nil =>
    rw [Cursor.collectRow_nil]
    exact ⟨_, rfl⟩
  | cons c cs ih =>
    rw [List.forall_mem_cons] at h
    rw [Cursor.collectRow_cons, List.map_cons, List.flatMap_cons, List.mapM_append]
    refine (h.1 tally).bind fun _ _ tally' _ => ?_
    exact (ih h.2 tally').bind fun _ _ _ _ => ⟨_, rfl⟩

/-- Resolution below a node fails as the scan for reads does, or at a number. -/
theorem failsAlike_collect {c : Cursor} (hshaped : c.node.isShaped = true) (tally : Tally) :
    FailsAlike (c.node.preorder.mapM fun node => node.proxyAccess scheme)
      ((c.collect (visit scheme tables)).tallied tally).1 := by
  induction c using Cursor.induction_below generalizing tally with
  | step c ih =>
    rw [Tree.preorder_eq, List.mapM_cons, Cursor.collect_eq]
    refine (failsAlike_visit c tally).bind fun read found tally' hvisit => ?_
    cases found with
    | none =>
      rw [← Cursor.map_node_below]
      exact (failsAlike_collectRow (fun d hd => ih d hd (Tree.isShaped_of_mem_namedChildren hshaped
        (Cursor.node_mem_namedChildren hd))) tally').map _
    | some found =>
      -- The node is replaced, so nothing below it is read.
      have hfound := eq_replacement?_of_visit hvisit
      obtain ⟨edit, hedit, -⟩ := Option.map_eq_some_iff.mp hfound.symm
      obtain ⟨⟨table, field, hread⟩, -⟩ := exists_of_replacement? hedit
      have hnone : ∀ node ∈ c.node.namedChildren.flatMap Tree.preorder,
          node.proxyAccess scheme = .ok none := by
        intro node hnode
        obtain ⟨t, ht, hnode⟩ := List.mem_flatMap.mp hnode
        exact Tree.proxyAccess_below hshaped ht hnode hread
      obtain ⟨reads, hreads⟩ := exists_mapM_eq_ok fun node hnode => ⟨none, hnone node hnode⟩
      rw [hreads]
      exact ⟨_, rfl⟩

/-- Resolution fails as the scan for reads does, or at a number. -/
theorem failsAlike_edits {root : Tree} (hshaped : root.isShaped = true) (scheme : Scheme)
    (tables : Table.Decoded) :
    FailsAlike (Table.referenced root scheme) (edits scheme tables root).1 :=
  (failsAlike_collect (c := Cursor.ofRoot root) hshaped {}).map _

end

end Resolution

namespace Table

open Syntax

/-- Decoding only the tables that are read, if all can be decoded. They can be decoded, with
the values they have among all, and resolution with them gives the same edits and the same
tally, or fails in the same way. If the scan for reads fails, so does resolution, whatever the
tables: in the same way, or at a number that it comes to first. Every program that was read has
the shape asked for there, by `Program.wellFormed_of_parse`. -/
theorem edits_of_referenced {raw : Raw} {scheme : Scheme} {all : Decoded}
    (decoded : (decodeAll raw scheme none).outcome = .ok all) (root : Tree) :
    match referenced root scheme with
    | .ok wanted => ∃ few,
        (decodeAll raw scheme (some wanted)).outcome = .ok few ∧
          few = all.restrict (fun table => wanted.contains table) ∧
          Resolution.edits scheme few root = Resolution.edits scheme all root
    | .error error => root.isShaped = true → ∀ tables,
        (Resolution.edits scheme tables root).1 = .error (.access error) ∨
          ∃ number, (Resolution.edits scheme tables root).1 = .error (.number number) := by
  cases hscan : referenced root scheme with
  | ok wanted =>
    have hwanted := hscan
    unfold referenced at hwanted
    obtain ⟨reads, -, hwanted⟩ := exists_of_bind_eq_ok hwanted
    cases hwanted
    exact ⟨_, outcome_decodeAll_of_all decoded rfl, rfl, Resolution.edits_restrict hscan all⟩
  | error error =>
    intro hshaped tables
    have hfails := Resolution.failsAlike_edits hshaped scheme tables
    rw [hscan] at hfails
    cases houtcome : (Resolution.edits scheme tables root).1 with
    | ok found =>
      rw [houtcome] at hfails
      obtain ⟨_, hok⟩ := hfails
      cases hok
    | error e =>
      rw [houtcome] at hfails
      cases e with
      | access e =>
        obtain ⟨⟩ : Except.error error = .error e := hfails
        exact .inl rfl
      | number e => exact .inr ⟨e, rfl⟩

/-- The theorem at a program that reads two of three tables, one of which is not there. -/
theorem edits_of_referenced_sample :
    let source := "f(a.H.z.f, a.H.u[0], a.H.z.g); a.H.z.f = 1;".toText
    let raw := sampleRaw
      [("uB".toText, .array [.bool true]), ("z".toText, .object [(.text "f".toText, .text "é".toText)])]
    let wanted := ["z".toText, "u".toText]
    ∃ p all, Program.parse source = .ok p ∧
      (decodeAll raw Scheme.standard none).outcome = .ok all ∧
      referenced p.root Scheme.standard = .ok wanted ∧
      ∃ few, (decodeAll raw Scheme.standard (some wanted)).outcome = .ok few ∧
        few = all.restrict (fun table => wanted.contains table) ∧
        Resolution.edits Scheme.standard few p.root = Resolution.edits Scheme.standard all p.root ∧
        (Resolution.edits Scheme.standard all p.root).1 = .ok [⟨2, 9, "\"é\"".toText⟩] := by
  intro source raw wanted
  obtain ⟨p, hparse, all, hdecoded, hscan, hedits⟩ : ∃ p, Program.parse source = .ok p ∧
      ∃ all, (decodeAll raw Scheme.standard none).outcome = .ok all ∧
        referenced p.root Scheme.standard = .ok wanted ∧
        (Resolution.edits Scheme.standard all p.root).1 = .ok [⟨2, 9, "\"é\"".toText⟩] := by
    decide +kernel
  have hcompared := edits_of_referenced hdecoded p.root
  rw [hscan] at hcompared
  obtain ⟨few, hfew, hrestrict, hsame⟩ := hcompared
  exact ⟨p, all, hparse, hdecoded, hscan, few, hfew, hrestrict, hsame, hedits⟩

/-- All tables of a program can be decoded, the scan for reads fails at a character that does
not exist, and resolution fails before that at a number without a spelling. -/
theorem referenced_fails_elsewhere :
    let source := "a.H.z.f; a.H.z['\\u\x7b110000\x7d'];".toText
    let raw := sampleRaw [("z".toText, .object [(.text "f".toText, .number (.int (10 ^ 309)))])]
    ∃ p all, Program.parse source = .ok p ∧
      (decodeAll raw Scheme.standard none).outcome = .ok all ∧
      referenced p.root Scheme.standard = .error .noCodePoint ∧
      (Resolution.edits Scheme.standard all p.root).1 = .error (.number .tooLarge) := by
  intro source raw
  obtain ⟨p, hparse, all, hdecoded, hscan, hedits⟩ : ∃ p, Program.parse source = .ok p ∧
      ∃ all, (decodeAll raw Scheme.standard none).outcome = .ok all ∧
        referenced p.root Scheme.standard = .error .noCodePoint ∧
        (Resolution.edits Scheme.standard all p.root).1 = .error (.number .tooLarge) := by
    decide +kernel
  exact ⟨p, all, hparse, hdecoded, hscan, hedits⟩

end Table

end Unproxy
