import Mathlib
import Unproxy.Pipeline.Passes
import Unproxy.Proofs.Outcome
import Unproxy.Proofs.Scheme.Loading
import Unproxy.Proofs.Value.Entries

/-!
# Unproxy.Proofs.Table.Extraction

Which tables extraction finds in a program. An array is assigned to a table where `root.arrays.table`,
written out, is given a function that returns an array literal. Of several arrays for one table the
last counts, and assignments of anything else count for nothing.

Main definitions:

* `Tree.BareLink`, `Tree.NamesTable`: the left side of such an assignment;
* `Tree.ReturnsFirst`, `Tree.Returns`: what a function returns, if it is an array literal;
* `Tree.Assigns`, `Tree.HasCodes`: the assignment, and the codes of its array;
* `Table.IsLast`, `Table.Precedes`: the order of the assignments in a row of nodes;
* `Table.Gathered`: what was found in a row of nodes.

Main statements:

* `Table.extractOne_cases`: all that one node can do;
* `Table.Gathered.of_extractFrom`: what is found in a row of nodes;
* `Pipeline.tables_of_extraction`: what is found in a program, and what is reported of it.
-/

namespace Unproxy

namespace Syntax.Tree

/-! ### The left side -/

/-- The link `object.name`, not optional, with no parentheses around the object. -/
structure BareLink (t object : Tree) (name : Text) : Prop where
  kind : t.kind = .member
  plain : t.child? .optionalChain = none
  object : t.child? .object = some object
  property : ∃ p, t.child? .property = some p ∧ p.text = name

/-- The chain `root.arrays.table`, for a table of the scheme. -/
structure NamesTable (t : Tree) (scheme : Scheme) (table : Text) : Prop where
  chain : ∃ arrays root : Tree, t.BareLink arrays table ∧
    arrays.BareLink root scheme.arrayNamespace ∧ root.kind = .identifier ∧ root.text = scheme.root
  known : table ∈ scheme.tableIds

theorem isPlainDotted_iff {t : Tree} :
    t.isPlainDotted = true ↔ t.kind = .member ∧ t.child? .optionalChain = none := by
  rw [isPlainDotted, isPlainMember]
  simp only [Bool.and_eq_true, Bool.or_eq_true, beq_iff_eq, Option.isNone_iff_eq_none]
  constructor
  · rintro ⟨hkind, -, hplain⟩
    exact ⟨hkind, hplain⟩
  · rintro ⟨hkind, hplain⟩
    exact ⟨hkind, .inl hkind, hplain⟩

theorem tableId?_iff {t : Tree} {scheme : Scheme} {table : Text} :
    t.tableId? scheme = some table ↔ t.NamesTable scheme table := by
  unfold tableId?
  constructor
  · intro h
    split at h
    case isFalse => cases h
    rename_i hdotted
    split at h
    case h_2 => cases h
    rename_i arrays property harrays hproperty
    dsimp only at h
    split at h
    case isFalse => cases h
    rename_i hnames
    cases h
    simp only [Bool.and_eq_true, List.contains_iff_mem, beq_iff_eq] at hnames
    obtain ⟨⟨⟨harraysDotted, hroot⟩, hname⟩, hknown⟩ := hnames
    obtain ⟨hkind, hplain⟩ := isPlainDotted_iff.mp hdotted
    obtain ⟨hkind', hplain'⟩ := isPlainDotted_iff.mp harraysDotted
    obtain ⟨inner, hinner, hinnerName⟩ := Option.map_eq_some_iff.mp hname
    cases hobject : arrays.child? .object with
    | none => simp [hobject] at hroot
    | some root =>
      simp only [hobject, Option.map_some, Option.getD_some, isIdentifier, Bool.and_eq_true,
        beq_iff_eq] at hroot
      exact ⟨⟨arrays, root, ⟨hkind, hplain, harrays, property, hproperty, rfl⟩,
        ⟨hkind', hplain', hobject, inner, hinner, hinnerName⟩, hroot⟩, hknown⟩
  · rintro ⟨⟨arrays, root, hlink, hlink', hkind, htext⟩, hknown⟩
    obtain ⟨property, hproperty, rfl⟩ := hlink.property
    obtain ⟨inner, hinner, hinnerName⟩ := hlink'.property
    rw [if_pos (isPlainDotted_iff.mpr ⟨hlink.kind, hlink.plain⟩), hlink.object, hproperty]
    simp [isPlainDotted_iff.mpr ⟨hlink'.kind, hlink'.plain⟩, hlink'.object, hinner, hinnerName,
      isIdentifier, hkind, htext, hknown]

/-! ### The right side -/

/-- The expression that a function returns first: its body, or what the first `return` at the top of
its body returns. -/
inductive ReturnsFirst (f value : Tree) : Prop
  | expression (body : f.child? .body = some value) (bare : value.kind ≠ .statementBlock)
  | statement {block first : Tree} {before after : List Tree} (body : f.child? .body = some block)
      (kind : block.kind = .statementBlock)
      (statements : block.expressionChildren = before ++ first :: after)
      (returns : first.kind = .returnStatement)
      (earlier : ∀ s ∈ before, s.kind ≠ .returnStatement)
      (returned : first.expressionChildren.head? = some value)

/-- The array literal that a function returns, in parentheses or not. A generator is a function of
another kind. -/
structure Returns (f array : Tree) : Prop where
  kind : f.kind = .function ∨ f.kind = .arrow
  value : ∃ value, f.ReturnsFirst value ∧ value.unwrapped = some array
  literal : array.kind = .array

theorem asArray?_iff {t array : Tree} :
    t.asArray? = some array ↔ t.unwrapped = some array ∧ array.kind = .array := by
  rw [asArray?, Option.filter_eq_some_iff, beq_iff_eq]

theorem firstReturned?_iff {block array : Tree} :
    block.firstReturned? = some array ↔
      ∃ before first after value, block.expressionChildren = before ++ first :: after ∧
        first.kind = .returnStatement ∧ (∀ s ∈ before, s.kind ≠ .returnStatement) ∧
        first.expressionChildren.head? = some value ∧ value.asArray? = some array := by
  unfold firstReturned?
  constructor
  · intro h
    split at h
    case h_2 => cases h
    rename_i first hfirst
    obtain ⟨hkind, before, after, hstatements, hbefore⟩ := List.find?_eq_some_iff_append.mp hfirst
    obtain ⟨value, hvalue, harray⟩ := Option.bind_eq_some_iff.mp h
    exact ⟨before, first, after, value, hstatements, by simpa using hkind,
      fun s hs => by simpa using hbefore s hs, hvalue, harray⟩
  · rintro ⟨before, first, after, value, hstatements, hkind, hbefore, hvalue, harray⟩
    have hfirst : (block.expressionChildren.find? fun s => s.kind == .returnStatement) = some first :=
      List.find?_eq_some_iff_append.mpr
        ⟨by simpa using hkind, before, after, hstatements, fun s hs => by simpa using hbefore s hs⟩
    rw [hfirst]
    exact Option.bind_eq_some_iff.mpr ⟨value, hvalue, harray⟩

theorem returnedArray?_iff {f array : Tree} : f.returnedArray? = some array ↔ f.Returns array := by
  unfold returnedArray?
  constructor
  · intro h
    split at h
    case isFalse => cases h
    rename_i hkind
    rw [Bool.or_eq_true, beq_iff_eq, beq_iff_eq] at hkind
    split at h
    case h_2 => cases h
    rename_i body hbody
    split at h
    · rename_i hblock
      obtain ⟨before, first, after, value, hstatements, hfirst, hbefore, hvalue, harray⟩ :=
        firstReturned?_iff.mp h
      obtain ⟨hunwrapped, hliteral⟩ := asArray?_iff.mp harray
      exact ⟨hkind, ⟨value, .statement hbody hblock hstatements hfirst hbefore hvalue, hunwrapped⟩,
        hliteral⟩
    · rename_i hblock
      obtain ⟨hunwrapped, hliteral⟩ := asArray?_iff.mp h
      exact ⟨hkind, ⟨body, .expression hbody hblock, hunwrapped⟩, hliteral⟩
  · rintro ⟨hkind, ⟨value, hfirst, hunwrapped⟩, hliteral⟩
    have harray := asArray?_iff.mpr ⟨hunwrapped, hliteral⟩
    rw [if_pos (by simpa using hkind)]
    cases hfirst with
    | expression body bare =>
      rw [body]
      exact (if_neg bare).trans harray
    | statement body kind statements returns earlier returned =>
      rw [body]
      exact (if_pos kind).trans (firstReturned?_iff.mpr
        ⟨_, _, _, value, statements, returns, earlier, returned, harray⟩)

/-! ### The assignment -/

/-- The assignment of a function that returns an array literal to a table of the scheme. -/
structure Assigns (t : Tree) (scheme : Scheme) (table : Text) (array : Tree) : Prop where
  kind : t.kind = .assignment
  left : ∃ left, t.child? .left = some left ∧ left.NamesTable scheme table
  right : ∃ right f, t.child? .right = some right ∧ right.unwrapped = some f ∧ f.Returns array

/-- The codes of an array literal: the value of each number in it, and nothing for all else. -/
def HasCodes (array : Tree) (codes : List Code) : Prop :=
  array.elements.mapM elementCode = .ok codes

theorem Assigns.tableId? {t array : Tree} {scheme : Scheme} {table : Text}
    (h : t.Assigns scheme table array) :
    ((t.child? .left).bind fun left => left.tableId? scheme) = some table := by
  obtain ⟨left, hleft, hnames⟩ := h.left
  exact Option.bind_eq_some_iff.mpr ⟨left, hleft, tableId?_iff.mpr hnames⟩

theorem Assigns.returnedArray? {t array : Tree} {scheme : Scheme} {table : Text}
    (h : t.Assigns scheme table array) :
    ∃ f, (t.child? .right).bind unwrapped = some f ∧ f.returnedArray? = some array := by
  obtain ⟨right, f, hright, hunwrapped, hreturns⟩ := h.right
  exact ⟨f, Option.bind_eq_some_iff.mpr ⟨right, hright, hunwrapped⟩,
    returnedArray?_iff.mpr hreturns⟩

/-- A node assigns one array to one table. -/
theorem Assigns.unique {t array array' : Tree} {scheme : Scheme} {table table' : Text}
    (h : t.Assigns scheme table array) (h' : t.Assigns scheme table' array') :
    table = table' ∧ array = array' := by
  obtain ⟨f, hf, harray⟩ := h.returnedArray?
  obtain ⟨f', hf', harray'⟩ := h'.returnedArray?
  obtain rfl := Option.some.inj (hf.symm.trans hf')
  exact ⟨Option.some.inj (h.tableId?.symm.trans h'.tableId?),
    Option.some.inj (harray.symm.trans harray')⟩

/-- What a value that is no function with an array gives. -/
theorem returnedCodes_cases {f : Tree} {codes : Option (List Code)}
    (h : f.returnedCodes = .ok codes) :
    codes = none ∧ f.returnedArray? = none ∨
      ∃ array found, codes = some found ∧ f.returnedArray? = some array ∧ array.HasCodes found := by
  unfold returnedCodes at h
  split at h
  · rename_i array harray
    cases hcodes : array.elements.mapM elementCode with
    | error e => rw [hcodes] at h; cases h
    | ok found =>
      rw [hcodes] at h
      cases h
      exact .inr ⟨array, found, rfl, harray, hcodes⟩
  · rename_i hnone
    cases h
    exact .inl ⟨rfl, hnone⟩

end Syntax.Tree

namespace Table

open Log Syntax

/-! ### One node -/

/-- All that one node can do: it assigns no array and changes nothing, or it sets the codes of the
array that it assigns. -/
theorem extractOne_cases {scheme : Scheme} {found found' : Raw} {node : Tree}
    (h : (extractOne scheme found node).outcome = .ok found') :
    (found' = found ∧ ∀ table array, ¬node.Assigns scheme table array) ∨
      ∃ table array codes, node.Assigns scheme table array ∧ array.HasCodes codes ∧
        found' = Entries.set table codes found := by
  unfold extractOne at h
  split at h
  case isFalse =>
    rename_i hkind
    cases h
    exact .inl ⟨rfl, fun table array hassigns => hkind hassigns.kind⟩
  rename_i hkind
  split at h
  case h_2 =>
    rename_i hnone
    cases h
    refine .inl ⟨rfl, fun table array hassigns => ?_⟩
    rw [hassigns.tableId?] at hnone
    cases hnone
  rename_i table htable
  obtain ⟨left, hleft, hnames⟩ := Option.bind_eq_some_iff.mp htable
  obtain ⟨codes, hcodes, h⟩ := Logged.exists_of_outcome_bind h
  -- The value, without parentheses, tells whether there are codes.
  have hvalue : (codes = none ∧ ∀ table array, ¬node.Assigns scheme table array) ∨
      ∃ array found, codes = some found ∧ node.Assigns scheme table array ∧
        array.HasCodes found := by
    dsimp only [Logged.ofExcept] at hcodes
    split at hcodes
    · rename_i f hf
      obtain ⟨right, hright, hunwrapped⟩ := Option.bind_eq_some_iff.mp hf
      rcases Tree.returnedCodes_cases hcodes with ⟨rfl, hnone⟩ | ⟨array, found, rfl, harray, hfound⟩
      · refine .inl ⟨rfl, fun table' array hassigns => ?_⟩
        obtain ⟨f', hf', harray⟩ := hassigns.returnedArray?
        cases hf.symm.trans hf'
        rw [hnone] at harray
        cases harray
      · exact .inr ⟨array, found, rfl, ⟨hkind, ⟨left, hleft, Tree.tableId?_iff.mp hnames⟩,
          ⟨right, f, hright, hunwrapped, Tree.returnedArray?_iff.mp harray⟩⟩, hfound⟩
    · rename_i hnone
      cases hcodes
      refine .inl ⟨rfl, fun table' array hassigns => ?_⟩
      obtain ⟨f', hf', -⟩ := hassigns.returnedArray?
      rw [hnone] at hf'
      cases hf'
  rcases hvalue with ⟨rfl, hnone⟩ | ⟨array, taken, rfl, hassigns, htaken⟩
  · cases h
    exact .inl ⟨rfl, hnone⟩
  · refine .inr ⟨table, array, taken, hassigns, htaken, ?_⟩
    dsimp only at h
    split at h <;> cases h <;> rfl

/-! ### A row of nodes -/

/-- The last array that a row of nodes assigns to a table. -/
def IsLast (scheme : Scheme) (nodes : List Tree) (table : Text) (array : Tree) : Prop :=
  ∃ before node after, nodes = before ++ node :: after ∧ node.Assigns scheme table array ∧
    ∀ later ∈ after, ∀ other, ¬later.Assigns scheme table other

/-- A table is assigned an array before another one is. -/
def Precedes (scheme : Scheme) (nodes : List Tree) (table other : Text) : Prop :=
  ∃ before node after array, nodes = before ++ node :: after ∧ node.Assigns scheme table array ∧
    ∀ earlier ∈ before, ∀ array, ¬earlier.Assigns scheme other array

/-- What was found in a row of nodes: the last array of each table, in the order in which the tables
came up. -/
structure Gathered (scheme : Scheme) (nodes : List Tree) (found : Raw) : Prop where
  keys : ∀ table, table ∈ found.keys ↔ ∃ node ∈ nodes, ∃ array, node.Assigns scheme table array
  last : ∀ table codes, found.get? table = some codes ↔
    ∃ array, IsLast scheme nodes table array ∧ array.HasCodes codes
  nodup : found.keys.Nodup
  ordered : found.keys.Pairwise (Precedes scheme nodes)

section

variable {scheme : Scheme} {nodes : List Tree} {node : Tree} {table : Text} {array : Tree}

/-- A node behind a row that assigns no array to a table leaves its last array as it is. -/
theorem isLast_append_iff (h : ∀ other, ¬node.Assigns scheme table other) :
    IsLast scheme (nodes ++ [node]) table array ↔ IsLast scheme nodes table array := by
  constructor
  · rintro ⟨before, first, after, hnodes, hassigns, hlater⟩
    rcases List.eq_nil_or_concat after with rfl | ⟨after, last, rfl⟩
    · obtain ⟨rfl, hfirst⟩ := List.append_inj' hnodes rfl
      cases hfirst
      exact absurd hassigns (h array)
    · rw [List.concat_eq_append, ← List.cons_append, ← List.append_assoc] at hnodes
      obtain ⟨rfl, -⟩ := List.append_inj' hnodes rfl
      exact ⟨before, first, after, rfl, hassigns, fun later hmem =>
        hlater later (by simp [hmem])⟩
  · rintro ⟨before, first, after, rfl, hassigns, hlater⟩
    refine ⟨before, first, after ++ [node], by simp, hassigns, fun later hmem => ?_⟩
    rcases List.mem_append.mp hmem with hmem | hmem
    · exact hlater later hmem
    · rw [List.mem_singleton.mp hmem]
      exact h

theorem isLast_append_of_assigns (h : node.Assigns scheme table array) {other : Tree} :
    IsLast scheme (nodes ++ [node]) table other ↔ other = array := by
  constructor
  · rintro ⟨before, first, after, hnodes, hassigns, hlater⟩
    rcases List.eq_nil_or_concat after with rfl | ⟨after, last, rfl⟩
    · obtain ⟨rfl, hfirst⟩ := List.append_inj' hnodes rfl
      cases hfirst
      exact (hassigns.unique h).2
    · rw [List.concat_eq_append, ← List.cons_append, ← List.append_assoc] at hnodes
      obtain ⟨rfl, hlast⟩ := List.append_inj' hnodes rfl
      cases hlast
      exact absurd h (hlater node (by simp) array)
  · rintro rfl
    exact ⟨nodes, node, [], rfl, h, by simp⟩

theorem Precedes.append {other : Text} (h : Precedes scheme nodes table other) (node : Tree) :
    Precedes scheme (nodes ++ [node]) table other := by
  obtain ⟨before, first, after, array, rfl, hassigns, hearlier⟩ := h
  exact ⟨before, first, after ++ [node], array, by simp, hassigns, hearlier⟩

namespace Gathered

variable {found : Raw}

theorem nil (scheme : Scheme) : Gathered scheme [] [] where
  keys table := by simp [Entries.keys]
  last table codes := by simp [Entries.get?, IsLast]
  nodup := List.nodup_nil
  ordered := .nil

/-- A node that assigns no array adds nothing. -/
theorem skip (h : Gathered scheme nodes found)
    (hnone : ∀ table array, ¬node.Assigns scheme table array) :
    Gathered scheme (nodes ++ [node]) found where
  keys table := by
    rw [h.keys]
    simp [or_and_right, exists_or, hnone]
  last table codes := by
    rw [h.last]
    exact exists_congr fun array => and_congr_left fun _ =>
      (isLast_append_iff (hnone table)).symm
  nodup := h.nodup
  ordered := h.ordered.imp fun hprecedes => hprecedes.append node

/-- A table that is new comes behind all that were found. -/
theorem precedes_of_not_mem (h : Gathered scheme nodes found) (hnew : table ∉ found.keys)
    {other : Text} (hother : other ∈ found.keys) : Precedes scheme nodes other table := by
  obtain ⟨first, hfirst, array, hassigns⟩ := (h.keys other).mp hother
  obtain ⟨before, after, rfl⟩ := List.append_of_mem hfirst
  refine ⟨before, first, after, array, rfl, hassigns, fun earlier hearlier array' hassigns' => ?_⟩
  exact hnew ((h.keys table).mpr ⟨earlier, List.mem_append_left _ hearlier, array', hassigns'⟩)

/-- A node that assigns an array replaces what was found for its table. -/
theorem take {codes : List Code} (h : Gathered scheme nodes found)
    (hassigns : node.Assigns scheme table array) (hcodes : array.HasCodes codes) :
    Gathered scheme (nodes ++ [node]) (Entries.set table codes found) where
  keys other := by
    rw [Entries.mem_keys_set, h.keys, or_comm]
    simp only [List.mem_append, List.mem_singleton, or_and_right, exists_or, exists_eq_left]
    refine or_congr_right ⟨?_, ?_⟩
    · rintro rfl
      exact ⟨array, hassigns⟩
    · rintro ⟨array', hassigns'⟩
      exact (hassigns'.unique hassigns).1
  last other codes' := by
    by_cases hother : other = table
    · subst hother
      rw [Entries.get?_set_self]
      simp only [isLast_append_of_assigns hassigns, exists_eq_left, Option.some.injEq]
      constructor
      · rintro rfl
        exact hcodes
      · intro hcodes'
        exact Except.ok.inj (hcodes.symm.trans hcodes')
    · rw [Entries.get?_set_ne hother, h.last]
      refine exists_congr fun array' => and_congr_left fun _ => (isLast_append_iff ?_).symm
      exact fun array'' hassigns' => hother (hassigns'.unique hassigns).1
  nodup := Entries.nodup_keys_set codes h.nodup
  ordered := by
    have hold := h.ordered.imp fun hprecedes => Precedes.append hprecedes node
    by_cases hnew : table ∈ found.keys
    · rwa [Entries.keys_set_of_mem codes hnew]
    · rw [Entries.set_of_not_mem codes hnew, Entries.keys_append]
      refine List.pairwise_append.mpr ⟨hold, List.pairwise_singleton _ _, ?_⟩
      intro other hother last hlast
      rw [List.mem_singleton.mp hlast]
      exact (h.precedes_of_not_mem hnew hother).append node

/-- What is found in a row of nodes, behind what was found before it. -/
theorem of_extractFrom {after : List Tree} {all : Raw} (h : Gathered scheme nodes found)
    (hall : (extractFrom scheme after found).outcome = .ok all) :
    Gathered scheme (nodes ++ after) all := by
  induction after generalizing nodes found with
  | nil =>
    cases hall
    rwa [List.append_nil]
  | cons node after ih =>
    obtain ⟨found', hnode, hafter⟩ := Logged.exists_of_outcome_bind hall
    rw [List.append_cons]
    rcases extractOne_cases hnode with ⟨rfl, hnone⟩ | ⟨table, array, codes, hassigns, hcodes, rfl⟩
    · exact ih (h.skip hnone) hafter
    · exact ih (h.take hassigns hcodes) hafter

end Gathered

theorem Gathered.of_extract {root : Tree} {found : Raw}
    (h : (extract root scheme).outcome = .ok found) : Gathered scheme root.preorder found :=
  (Gathered.nil scheme).of_extractFrom h

end

end Table

namespace Pipeline

open Syntax

/-! ### What is reported -/

/-- What the report says of a scheme's tables: each is found or missing, and none is named twice. -/
structure Partitions (report : Report) (scheme : Scheme) : Prop where
  found_nodup : report.tablesExtracted.Nodup
  missing_nodup : report.tablesMissing.Nodup
  disjoint : report.tablesExtracted.Disjoint report.tablesMissing
  all : ∀ table, table ∈ scheme.tableIds ↔
    table ∈ report.tablesExtracted ∨ table ∈ report.tablesMissing
  ordered : report.tablesMissing.Sublist scheme.tableIds

theorem mem_sort {t : Text} {ts : List Text} : t ∈ Text.sort ts ↔ t ∈ ts :=
  (List.mergeSort_perm ts Text.le).mem_iff

theorem mem_missingTables {scheme : Scheme} {tables : Table.Raw} {table : Text} :
    table ∈ missingTables scheme tables ↔ table ∈ scheme.tableIds ∧ table ∉ tables.keys := by
  rw [missingTables, List.mem_filter, Bool.not_eq_true', ← Bool.not_eq_true, Entries.has_iff]

theorem Partitions.of_extracted {c : Context} {tables : Table.Raw}
    (hscheme : c.scheme.tableIds.Nodup) (hnodup : tables.keys.Nodup)
    (hknown : ∀ table ∈ tables.keys, table ∈ c.scheme.tableIds) :
    Partitions (c.extracted tables).report c.scheme where
  found_nodup := (List.mergeSort_perm _ _).nodup_iff.mpr hnodup
  missing_nodup := hscheme.filter fun table => !tables.has table
  disjoint table hfound hmissing := (mem_missingTables.mp hmissing).2 (mem_sort.mp hfound)
  all table := by
    change _ ↔ table ∈ Text.sort tables.keys ∨ table ∈ missingTables c.scheme tables
    rw [mem_sort, mem_missingTables]
    by_cases h : table ∈ tables.keys
    · simp [h, hknown table h]
    · simp [h]
  ordered := List.filter_sublist

/-- Extraction keeps the last array of each table. If the scan of a program succeeds, a table is
found exactly if some node assigns it an array, its codes are those of the last such array, and the
tables come in the order of their first arrays. The pass then reports the tables found and, if the
scheme is one that was accepted, each table of it as found or as missing, never both and never twice,
and the missing ones in the order of the scheme. -/
theorem tables_of_extraction {c : Context} {p : Program} {found : Table.Raw}
    (program : c.program = some p) (scan : (Table.extract p.root c.scheme).outcome = .ok found)
    (files : Files) :
    (∀ table, table ∈ found.keys ↔
      ∃ node ∈ p.root.preorder, ∃ array, node.Assigns c.scheme table array) ∧
    (∀ table codes, found.get? table = some codes ↔
      ∃ array, Table.IsLast c.scheme p.root.preorder table array ∧ array.HasCodes codes) ∧
    found.keys.Nodup ∧ found.keys.Pairwise (Table.Precedes c.scheme p.root.preorder) ∧
    let result := withProgram extractPass c files
    result.failure = none ∧ result.context.raw = found ∧
      (∀ table, table ∈ result.context.report.tablesExtracted ↔ table ∈ found.keys) ∧
      ∀ name settings, Scheme.ofValue name settings = .ok c.scheme →
        Partitions result.context.report c.scheme := by
  obtain ⟨hkeys, hlast, hnodup, hordered⟩ := Table.Gathered.of_extract scan
  have hscheme : ∀ name settings, Scheme.ofValue name settings = .ok c.scheme →
      c.scheme.tableIds.Nodup := by
    intro name settings accepted
    cases hcheck : Scheme.check name settings with
    | error flaw => rw [Scheme.ofValue, hcheck] at accepted; cases accepted
    | ok scheme =>
      rw [Scheme.ofValue, hcheck] at accepted
      cases accepted
      exact Scheme.nodup_tableIds_of_check hcheck
  have hknown : ∀ table ∈ found.keys, table ∈ c.scheme.tableIds := by
    intro table htable
    obtain ⟨node, -, array, hassigns⟩ := (hkeys table).mp htable
    obtain ⟨left, -, hnames⟩ := hassigns.left
    exact hnames.known
  refine ⟨hkeys, hlast, hnodup, hordered, ?_⟩
  simp only [withProgram, program, extractPass, scan]
  exact ⟨trivial, rfl, fun table => mem_sort, fun name settings accepted =>
    .of_extracted (hscheme name settings accepted) hnodup hknown⟩

/-- A table is given an array, another one is, and then the first is given another array and a number,
which does not count. -/
theorem tables_of_extraction_sample :
    let source := "a.i.z=()=>[1];a.i.t=function()\x7breturn([2])\x7d;(a.i.z=()=>[3]);a.i.z=5;".toText
    let found : Table.Raw := [("z".toText, [some (.int 3)]), ("t".toText, [some (.int 2)])]
    ∃ p c, Program.parse source = .ok p ∧
      Scheme.ofValue Scheme.standardName Scheme.standard.toValue = .ok c.scheme ∧
      c.program = some p ∧ (Table.extract p.root c.scheme).outcome = .ok found ∧
      (∃ array, Table.IsLast c.scheme p.root.preorder "z".toText array ∧
        array.HasCodes [some (.int 3)]) ∧
      Table.Precedes c.scheme p.root.preorder "z".toText "t".toText ∧
      Partitions (withProgram extractPass c .empty).context.report c.scheme := by
  intro source found
  obtain ⟨p, hparse, _, hscan, rfl⟩ : ∃ p, Program.parse source = .ok p ∧
      ∃ tables, (Table.extract p.root Scheme.standard).outcome = .ok tables ∧ tables = found := by
    decide +kernel
  let c : Context :=
    { Context.start (Path.ofText "/in.js".toText) none source Scheme.standard { layOut := id } with
      program := some p }
  have haccepted : Scheme.ofValue Scheme.standardName Scheme.standard.toValue = .ok c.scheme := rfl
  obtain ⟨-, hlast, -, hordered, -, -, -, hpartitions⟩ :=
    tables_of_extraction (c := c) rfl hscan .empty
  exact ⟨p, c, hparse, haccepted, rfl, hscan, (hlast _ _).mp (by decide +kernel),
    List.rel_of_pairwise_cons hordered List.mem_cons_self, hpartitions _ _ haccepted⟩

end Pipeline

end Unproxy
