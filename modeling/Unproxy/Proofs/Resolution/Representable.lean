import Mathlib
import Unproxy.Proofs.Json.Outcome
import Unproxy.Proofs.Literal.Json
import Unproxy.Proofs.Number.Spelling
import Unproxy.Proofs.Resolution
import Unproxy.Proofs.Table.Decoding
import Unproxy.Proofs.Table.Failure

/-!
# Unproxy.Proofs.Resolution.Representable

Which table entries have a source, and what resolution does with the others. The first number in an
entry that is not finite decides: at a double resolution counts the read and goes on, at an integer
beyond the range of doubles it fails.

Main definitions:

* `Number.isFinite`: the numbers that programs have;
* `Value.obstacle?`: the first number in a value that is none of them;
* `Resolution.isUnrepresentable`: the reads that are counted and stay.

Main statements:

* `Value.isSome_source`: whether a value has a source, or why that cannot be said;
* `Resolution.visit_of_obstacle`: what a visit does;
* `Resolution.edits_of_decoded`: what a run does.
-/

namespace Unproxy

/-! ### Numbers -/

namespace Number

/-- Whether a number is finite in a program. Integers are as long as they are within the range of
doubles. -/
def isFinite : Number → Bool
  | .int i => i.natAbs < Binary64.overflowBound
  | .float f => f.isFinite

/-- The first of some numbers that is not finite. -/
def obstacle? (ns : List Number) : Option Number := ns.find? fun n => !n.isFinite

/-- What comes of writing numbers, by the first that is not finite: none has a source if it is a
double, and if it is an integer writing fails. -/
def verdict : Option Number → Except Error Bool
  | none => .ok true
  | some (.float _) => .ok false
  | some (.int _) => .error .tooLarge

/-- The three ways in which writing can end. -/
theorem cases_of_verdict {α : Type} {x : Except Error (Option α)} {m : Option Number}
    (h : x.map Option.isSome = verdict m) :
    (m = none → ∃ a, x = .ok (some a)) ∧ (∀ f, m = some (.float f) → x = .ok none) ∧
      ∀ i, m = some (.int i) → x = .error .tooLarge := by
  refine ⟨fun hm => ?_, fun f hm => ?_, fun i hm => ?_⟩
  · subst hm
    rcases x with e | (_ | a)
    · cases h
    · cases h
    · exact ⟨a, rfl⟩
  · subst hm
    rcases x with e | (_ | a)
    · cases h
    · rfl
    · cases h
  · subst hm
    rcases x with e | (_ | a)
    · cases h
      rfl
    · cases h
    · cases h

theorem obstacle?_append (ms ns : List Number) :
    obstacle? (ms ++ ns) = (obstacle? ms).or (obstacle? ns) :=
  List.find?_append

theorem obstacle?_singleton (n : Number) :
    obstacle? [n] = if n.isFinite then none else some n := by
  cases h : n.isFinite <;> simp [obstacle?, h]

/-- An integer has a spelling exactly within the range of doubles. -/
theorem spelling_int (i : Int) :
    (int i).spelling.map (fun _ => true) = verdict (obstacle? [int i]) := by
  rw [obstacle?_singleton, isFinite]
  by_cases hshort : i.natAbs < exponentBound
  · rw [spelling, if_pos hshort, if_pos]
    · rfl
    · simpa using hshort.trans_le exponentBound_le_overflowBound
  · rw [spelling, if_neg hshort, toFloat]
    cases hdouble : Binary64.ofInt? i with
    | none =>
      have hle := (Binary64.ofInt?_eq_none_iff i).mp hdouble
      rw [if_neg (by simpa using hle)]
      rfl
    | some f =>
      have hlt : i.natAbs < Binary64.overflowBound := by
        by_contra hle
        rw [(Binary64.ofInt?_eq_none_iff i).mpr (Nat.not_lt.mp hle)] at hdouble
        cases hdouble
      rw [if_pos (by simpa using hlt)]
      rfl

theorem isSome_source (n : Number) :
    n.source.map Option.isSome = verdict (obstacle? [n]) := by
  have hsigned : ∀ (x : Except Error Text) (sign : Text),
      (x.map fun t => some (sign ++ t)).map Option.isSome = x.map fun _ => true := by
    intro x sign
    cases x <;> rfl
  cases n with
  | float f =>
    rw [obstacle?_singleton]
    cases f with
    | nan => rfl
    | infinite negative => rfl
    | finite negative significand exponent => cases negative <;> rfl
  | int i =>
    by_cases hsign : i < 0
    · have hmagnitude : (int i).magnitude = .int i.natAbs := rfl
      have hsource : (int i).source =
          (int i.natAbs).spelling.map fun t => some ([CodePoint.ofChar '-'] ++ t) := by
        simp only [source, isBelowZero, decide_eq_true hsign, if_true, hmagnitude]
        rfl
      rw [hsource, hsigned, spelling_int, obstacle?_singleton, obstacle?_singleton, isFinite,
        isFinite, Int.natAbs_natCast]
      split <;> rfl
    · have hsource : (int i).source = (int i).spelling.map fun t => some ([] ++ t) := by
        simp only [source, isBelowZero, decide_eq_false hsign, Bool.false_eq_true, if_false]
        rfl
      rw [hsource, hsigned, spelling_int]

end Number

/-! ### Values -/

namespace Value

open Number (obstacle?_append verdict)

/-- The first number in a value that is not finite, in the order in which they are written. -/
def obstacle? (v : Value) : Option Number := Number.obstacle? v.numbers

/-- What comes of a row of parts, of which the first is written before the others. -/
theorem isSome_of_parts {α β γ : Type} {first : Except Number.Error (Option α)}
    {others : Except Number.Error (Option β)} {all : Except Number.Error (Option γ)}
    {m n : Option Number} (hfirst : first.map Option.isSome = verdict m)
    (hothers : others.map Option.isSome = verdict n)
    (herror : ∀ e, first = .error e → all = .error e) (hnone : first = .ok none → all = .ok none)
    (hsome : ∀ a, first = .ok (some a) → all.map Option.isSome = others.map Option.isSome) :
    all.map Option.isSome = verdict (m.or n) := by
  obtain ⟨hwritten, hrefused, hfails⟩ := Number.cases_of_verdict hfirst
  match m with
  | none =>
    obtain ⟨a, ha⟩ := hwritten rfl
    rw [hsome a ha, hothers, Option.none_or]
  | some (.float f) =>
    rw [hnone (hrefused f rfl)]
    rfl
  | some (.int i) =>
    rw [herror _ (hfails i rfl)]
    rfl

mutual

/-- The first number that is not finite decides whether a value has a source. -/
theorem isSome_source : ∀ {v : Value}, v.IsJson →
    v.source.map Option.isSome = verdict (Number.obstacle? v.numbers)
  | .null, _ => rfl
  | .bool _, _ => rfl
  | .text _, _ => rfl
  | .number n, _ => n.isSome_source
  | .array items, h => by
    cases h with
    | array all =>
      rw [numbers, ← isSome_sourceItems all, source]
      rcases sourceItems items with e | (_ | parts) <;> rfl
  | .object members, h => by
    cases h with
    | object named nodup all =>
      rw [numbers, ← isSome_sourceMembers all, source]
      rcases sourceMembers members with e | (_ | parts) <;> rfl
  | .other _, h => by cases h

theorem isSome_sourceItems : ∀ {items : List Value}, (∀ v ∈ items, v.IsJson) →
    (sourceItems items).map Option.isSome = verdict (Number.obstacle? (itemNumbers items))
  | [], _ => rfl
  | item :: items, h => by
    have hitem := isSome_source (h item List.mem_cons_self)
    have hitems := isSome_sourceItems fun v hv => h v (List.mem_cons_of_mem item hv)
    rw [itemNumbers, obstacle?_append]
    refine isSome_of_parts hitem hitems (fun e he => ?_) (fun hnone => ?_) fun part hpart => ?_
    · rw [sourceItems, he]
    · rw [sourceItems, hnone]
    · rw [sourceItems, hpart]
      rcases sourceItems items with e | (_ | parts) <;> rfl

theorem isSome_sourceMembers : ∀ {members : List (Key × Value)}, (∀ m ∈ members, m.2.IsJson) →
    (sourceMembers members).map Option.isSome = verdict (Number.obstacle? (memberNumbers members))
  | [], _ => rfl
  | (key, value) :: members, h => by
    have hvalue := isSome_source (h (key, value) List.mem_cons_self)
    have hmembers := isSome_sourceMembers fun m hm => h m (List.mem_cons_of_mem _ hm)
    rw [memberNumbers, obstacle?_append]
    refine isSome_of_parts hvalue hmembers (fun e he => ?_) (fun hnone => ?_) fun part hpart => ?_
    · rw [sourceMembers, he]
    · rw [sourceMembers, hnone]
    · rw [sourceMembers, hpart]
      rcases sourceMembers members with e | (_ | parts) <;> rfl

end

/-- A value whose first obstacle is known. -/
theorem literal_of_obstacle? {v : Value} (json : v.IsJson) :
    (v.obstacle? = none → ∃ t, v.source = .ok (some t) ∧ v.literal = .ok (some (t, v.strength))) ∧
      (∀ f, v.obstacle? = some (.float f) → v.literal = .ok none) ∧
      ∀ i, v.obstacle? = some (.int i) → v.literal = .error .tooLarge := by
  obtain ⟨hwritten, hrefused, hfails⟩ := Number.cases_of_verdict (isSome_source json)
  unfold literal
  refine ⟨fun h => ?_, fun f h => ?_, fun i h => ?_⟩
  · obtain ⟨t, ht⟩ := hwritten h
    exact ⟨t, ht, by rw [ht]; rfl⟩
  · rw [hrefused f h]
    rfl
  · rw [hfails i h]
    rfl

/-- The entries of a table that was decoded are made of the forms of JSON. -/
theorem IsJson.field {table v : Value} {name : Text} (h : table.IsJson)
    (hfield : table.field name = .ok (some v)) : v.IsJson := by
  unfold Value.field at hfield
  cases h with
  | object named nodup all => exact (Value.IsJson.object named nodup all).member? (Except.ok.inj hfield)
  | array all =>
    dsimp only at hfield
    split at hfield
    · cases hfield
      exact .int _
    · split at hfield
      · cases hindex : Number.readInt 10 name with
        | error e =>
          rw [hindex] at hfield
          cases hfield
        | ok index =>
          rw [hindex] at hfield
          exact all v (List.mem_of_getElem? (Except.ok.inj hfield))
      · cases hfield
  | _ => cases hfield

/-- Looking an entry up fails only at an index that is too long. -/
theorem tooManyDigits_of_field {table : Value} {name : Text} {e : Number.Error}
    (h : table.field name = .error e) : e = .tooManyDigits name.length := by
  unfold Value.field at h
  split at h
  · cases h
  · split at h
    · cases h
    · split at h
      · rename_i hindex
        obtain ⟨c, rest, rfl, hdigits⟩ : ∃ c rest, name = c :: rest ∧
            name.all CodePoint.isDigit = true := by
          cases name with
          | nil => cases hindex
          | cons c rest =>
            rw [isIndex, Bool.and_eq_true] at hindex
            exact ⟨c, rest, rfl, hindex.1⟩
        have hbase : (c :: rest).all (CodePoint.isDigitOf 10) = true := by
          rw [Text.all_isDigitOf_ten, hdigits]
        have hread := Number.readInt_eq false (List.cons_ne_nil c rest) hbase
        rw [Binary64.withSign, if_neg Bool.false_ne_true] at hread
        rw [hread] at h
        split at h
        · cases h
          rfl
        · cases h
      · cases h
  · cases h

end Value

namespace Table

variable {raw : Raw} {scheme : Scheme}

theorem isJson_of_decodeAlone {table : Text} {codes : List Code} {v : Value}
    (h : decodeAlone raw scheme table codes = .ok v) : v.IsJson := by
  unfold decodeAlone at h
  obtain ⟨config, -, h⟩ := exists_of_bind_eq_ok h
  split at h
  · cases h
  · obtain ⟨key, -, h⟩ := exists_of_bind_eq_ok h
    exact isJson_of_decode h

theorem isJson_of_foldlM {wanted : List Text} {found all : Decoded}
    (h : wanted.foldlM (decodeStep raw scheme) found = .ok all)
    (hfound : ∀ entry ∈ found, entry.2.IsJson) : ∀ entry ∈ all, entry.2.IsJson := by
  refine keeps_of_foldlM (∀ entry ∈ ·, entry.2.IsJson) (fun hv hfound entry hentry => ?_) h hfound
  rcases Entries.mem_set hentry with rfl | hentry
  · exact isJson_of_decodeAlone hv
  · exact hfound entry hentry

/-- Tables that were decoded are made of the forms of JSON. -/
theorem isJson_of_decodeAll {wanted : Option (List Text)} {tables : Decoded}
    (h : (decodeAll raw scheme wanted).outcome = .ok tables) {table : Text} {v : Value}
    (hv : tables.get? table = some v) : v.IsJson := by
  rw [outcome_decodeAll_eq] at h
  have hnone : ∀ entry ∈ ([] : Decoded), entry.2.IsJson := by simp
  exact isJson_of_foldlM h hnone _ (Entries.mem_of_get? hv)

end Table

/-! ### Resolution -/

namespace Resolution

open Syntax

/-- Whether a node is a read of an entry that is counted as one without a source. -/
def isUnrepresentable (scheme : Scheme) (tables : Table.Decoded) (c : Cursor) : Bool :=
  match c.node.proxyAccess scheme, c.isWritten with
  | .ok (some (table, field)), false =>
    match (lookup? tables table field).bind Value.obstacle? with
    | some (.float _) => true
    | _ => false
  | _, _ => false

section

variable {scheme : Scheme} {tables : Table.Decoded}

theorem selected_eq_some {table field : Text} {v : Value}
    (h : selected tables table field = .ok (some v)) :
    ∃ entries, tables.get? table = some entries ∧ entries.field field = .ok (some v) := by
  unfold selected at h
  split at h
  · cases h
  · cases h
  · rename_i entries _ hentries
    exact ⟨entries, hentries, h⟩

theorem isJson_of_selected (json : ∀ table v, tables.get? table = some v → v.IsJson)
    {table field : Text} {v : Value} (h : selected tables table field = .ok (some v)) :
    v.IsJson := by
  obtain ⟨entries, hentries, hfield⟩ := selected_eq_some h
  exact (json table entries hentries).field hfield

theorem tooManyDigits_of_selected {table field : Text} {e : Number.Error}
    (h : selected tables table field = .error e) : e = .tooManyDigits field.length := by
  unfold selected at h
  split at h
  · cases h
  · cases h
  · exact Value.tooManyDigits_of_field h

/-- What a visit does at a read of an entry, by the first number in it that is not finite. -/
theorem visit_of_obstacle {c : Cursor} {table field : Text} {v : Value} (json : v.IsJson)
    (access : c.node.proxyAccess scheme = .ok (some (table, field))) (read : c.isWritten = false)
    (found : selected tables table field = .ok (some v)) (tally : Tally) :
    (v.obstacle? = none → ∃ t, v.source = .ok (some t) ∧
        (visit scheme tables c).tallied tally =
          (.ok (some [c.replaceBy t v.strength]), { tally with resolved := tally.resolved + 1 })) ∧
      (∀ f, v.obstacle? = some (.float f) →
        (visit scheme tables c).tallied tally =
          (.ok none, { tally with unrepresentable := tally.unrepresentable + 1 })) ∧
      ∀ i, v.obstacle? = some (.int i) →
        (visit scheme tables c).tallied tally = (.error (.number .tooLarge), tally) := by
  obtain ⟨hwritten, hrefused, hfails⟩ := Value.literal_of_obstacle? json
  unfold visit
  simp only [access, read, found, Counting.ofExcept_ok_bind, Bool.false_eq_true, if_false]
  refine ⟨fun h => ?_, fun f h => ?_, fun i h => ?_⟩
  · obtain ⟨t, ht, hliteral⟩ := hwritten h
    refine ⟨t, ht, ?_⟩
    rw [hliteral]
    rfl
  · rw [hrefused f h]
    rfl
  · rw [hfails i h]
    rfl

/-- All that a visit can do: at a node that reads no entry, at a write, at a read without an entry,
and at a read of an entry. -/
inductive Visited (scheme : Scheme) (tables : Table.Decoded) (c : Cursor) (tally : Tally) :
    Except Error (Option (List Edit)) → Tally → Prop
  | unreadable {e : Access.Error} (access : c.node.proxyAccess scheme = .error e) :
      Visited scheme tables c tally (.error (.access e)) tally
  | elsewhere (access : c.node.proxyAccess scheme = .ok none) :
      Visited scheme tables c tally (.ok none) tally
  | written {table field : Text} (access : c.node.proxyAccess scheme = .ok (some (table, field)))
      (isWritten : c.isWritten = true) :
      Visited scheme tables c tally (.ok none)
        { tally with skippedWrites := tally.skippedWrites + 1 }
  | unindexed {table field : Text} {e : Number.Error}
      (access : c.node.proxyAccess scheme = .ok (some (table, field)))
      (isRead : c.isWritten = false) (found : selected tables table field = .error e) :
      Visited scheme tables c tally (.error (.number e)) tally
  | missing {table field : Text} (access : c.node.proxyAccess scheme = .ok (some (table, field)))
      (isRead : c.isWritten = false) (found : selected tables table field = .ok none) :
      Visited scheme tables c tally (.ok none)
        { tally with
          misses := tally.misses + 1
          records := tally.records ++ [missRecord table field] }
  | read {table field : Text} {v : Value}
      (access : c.node.proxyAccess scheme = .ok (some (table, field)))
      (isRead : c.isWritten = false) (found : selected tables table field = .ok (some v))
      {outcome : Except Error (Option (List Edit))} {tally' : Tally}
      (result : (visit scheme tables c).tallied tally = (outcome, tally')) :
      Visited scheme tables c tally outcome tally'

theorem visited {c : Cursor} {outcome : Except Error (Option (List Edit))} {tally tally' : Tally}
    (h : (visit scheme tables c).tallied tally = (outcome, tally')) :
    Visited scheme tables c tally outcome tally' := by
  have hvisit := h
  unfold visit at h
  cases access : c.node.proxyAccess scheme with
  | error e =>
    rw [access] at h
    cases h
    exact .unreadable access
  | ok read =>
    rw [access, Counting.ofExcept_ok_bind] at h
    cases read with
    | none =>
      cases h
      exact .elsewhere access
    | some read =>
      obtain ⟨table, field⟩ := read
      cases isWritten : c.isWritten with
      | true =>
        rw [isWritten] at h
        cases h
        exact .written access isWritten
      | false =>
        rw [isWritten] at h
        cases found : selected tables table field with
        | error e =>
          dsimp only at h
          rw [found] at h
          cases h
          exact .unindexed access isWritten found
        | ok entry =>
          dsimp only at h
          rw [found] at h
          cases entry with
          | none =>
            cases h
            exact .missing access isWritten found
          | some v => exact .read access isWritten found hvisit

variable (json : ∀ table v, tables.get? table = some v → v.IsJson)

include json

/-- A visit that succeeds counts its node exactly if the entry read there has no source. -/
theorem unrepresentable_of_visit {c : Cursor} {r : Option (List Edit)} {tally tally' : Tally}
    (h : (visit scheme tables c).tallied tally = (.ok r, tally')) :
    tally'.unrepresentable =
      tally.unrepresentable + if isUnrepresentable scheme tables c then 1 else 0 := by
  cases visited h with
  | elsewhere access => simp [isUnrepresentable, access]
  | written access isWritten => simp [isUnrepresentable, access, isWritten]
  | missing access isRead found =>
    simp [isUnrepresentable, access, isRead, lookup?_of_selected found]
  | @read table field v access isRead found _ _ result =>
    obtain ⟨hwritten, hrefused, hfails⟩ :=
      visit_of_obstacle (isJson_of_selected json found) access isRead found tally
    have hlookup := lookup?_of_selected found
    match hobstacle : v.obstacle? with
    | none =>
      obtain ⟨t, -, hvisit⟩ := hwritten hobstacle
      cases result.symm.trans hvisit
      simp [isUnrepresentable, access, isRead, hlookup, hobstacle]
    | some (.float f) =>
      cases result.symm.trans (hrefused f hobstacle)
      simp [isUnrepresentable, access, isRead, hlookup, hobstacle]
    | some (.int i) =>
      cases result.symm.trans (hfails i hobstacle)

/-- A visit fails at a number that is too large only if it is the first in the entry read there that
is not finite. -/
theorem exists_of_tooLarge {c : Cursor} {tally tally' : Tally}
    (h : (visit scheme tables c).tallied tally = (.error (.number .tooLarge), tally')) :
    c.isWritten = false ∧ ∃ table field v i,
      c.node.proxyAccess scheme = .ok (some (table, field)) ∧
        selected tables table field = .ok (some v) ∧ v.obstacle? = some (.int i) := by
  cases visited h with
  | unindexed access isRead found => cases tooManyDigits_of_selected found
  | @read table field v access isRead found _ _ result =>
    obtain ⟨hwritten, hrefused, hfails⟩ :=
      visit_of_obstacle (isJson_of_selected json found) access isRead found tally
    match hobstacle : v.obstacle? with
    | none =>
      obtain ⟨t, -, hvisit⟩ := hwritten hobstacle
      cases result.symm.trans hvisit
    | some (.float f) => cases result.symm.trans (hrefused f hobstacle)
    | some (.int i) => exact ⟨isRead, table, field, v, i, access, found, hobstacle⟩

/-- A run that succeeds counts all reads of entries without a source. -/
theorem unrepresentable_of_edits {root : Tree} (shaped : root.isShaped = true) {found : List Edit}
    {tally : Tally} (h : edits scheme tables root = (.ok found, tally)) :
    tally.unrepresentable =
      (Cursor.ofRoot root).walk.countP (isUnrepresentable scheme tables) := by
  have hbelow : ∀ d ∈ (Cursor.ofRoot root).walk, ∀ r tally tally',
      (visit scheme tables d).tallied tally = (.ok r, tally') → r.isSome = true →
      ∀ e ∈ d.below, ∀ x ∈ e.walk, isUnrepresentable scheme tables x = false := by
    intro d hd r tally tally' hvisit hsome e he x hx
    -- A node that is replaced is a read, and no entry is read inside of one.
    rw [eq_replacement?_of_visit hvisit, Option.isSome_map] at hsome
    obtain ⟨edit, hedit⟩ := Option.isSome_iff_exists.mp hsome
    obtain ⟨⟨table, field, haccess⟩, -⟩ := exists_of_replacement? hedit
    have hnone : x.node.proxyAccess scheme = .ok none :=
      Tree.proxyAccess_below (Cursor.isShaped_of_mem_walk shaped hd)
        (Cursor.node_mem_namedChildren he) (Cursor.node_mem_preorder hx) haccess
    simp [isUnrepresentable, hnone]
  have hcount := Cursor.measure_of_collect (fun d hd r tally tally' hvisit =>
    ⟨unrepresentable_of_visit json hvisit, hbelow d hd r tally tally' hvisit⟩) h
  rw [hcount]
  exact Nat.zero_add _

end

/-- What becomes of entries of decoded tables. An entry has a source if all numbers in it are finite.
Otherwise the first that is not decides: at a double the entry has no source, so a read of it is
counted and stays, and resolution goes on; at an integer beyond the range of doubles resolution
fails. A run that succeeds has counted all such reads, and one that fails at a number that is too
large has come to such an integer. -/
theorem edits_of_decoded {raw : Table.Raw} {scheme : Scheme} {wanted : Option (List Text)}
    {tables : Table.Decoded} (decoded : (Table.decodeAll raw scheme wanted).outcome = .ok tables) :
    (∀ v : Value, v.IsJson → v.source.map Option.isSome = Number.verdict v.obstacle?) ∧
      (∀ (c : Cursor) (table field : Text) (v : Value) (tally : Tally),
        c.node.proxyAccess scheme = .ok (some (table, field)) → c.isWritten = false →
        selected tables table field = .ok (some v) → v.IsJson ∧
          (v.obstacle? = none → ∃ t, v.source = .ok (some t) ∧
            (visit scheme tables c).tallied tally = (.ok (some [c.replaceBy t v.strength]),
              { tally with resolved := tally.resolved + 1 })) ∧
          (∀ f, v.obstacle? = some (.float f) →
            (visit scheme tables c).tallied tally =
              (.ok none, { tally with unrepresentable := tally.unrepresentable + 1 })) ∧
          ∀ i, v.obstacle? = some (.int i) →
            (visit scheme tables c).tallied tally = (.error (.number .tooLarge), tally)) ∧
      ∀ root : Tree, root.isShaped = true →
        (∀ found tally, edits scheme tables root = (.ok found, tally) →
          tally.unrepresentable =
            (Cursor.ofRoot root).walk.countP (isUnrepresentable scheme tables)) ∧
          ∀ tally, edits scheme tables root = (.error (.number .tooLarge), tally) →
            ∃ c ∈ (Cursor.ofRoot root).walk, c.isWritten = false ∧ ∃ table field v i,
              c.node.proxyAccess scheme = .ok (some (table, field)) ∧
                selected tables table field = .ok (some v) ∧ v.obstacle? = some (.int i) := by
  have json : ∀ table v, tables.get? table = some v → v.IsJson :=
    fun table v => Table.isJson_of_decodeAll decoded
  refine ⟨fun v hv => Value.isSome_source hv, fun c table field v tally access read found => ?_,
    fun root shaped => ⟨fun found tally h => unrepresentable_of_edits json shaped h,
      fun tally h => ?_⟩⟩
  · have hv := isJson_of_selected json found
    exact ⟨hv, visit_of_obstacle hv access read found tally⟩
  · obtain ⟨c, hc, first, last, hvisit⟩ := Cursor.exists_error_of_collect h
    exact ⟨c, hc, exists_of_tooLarge json hvisit⟩

/-- A table with an entry whose first number that is not finite is a double, before an integer that is
too large, and one where the integer comes first. Two reads of the one are counted, and a read of
the other ends the run. -/
theorem edits_of_decoded_sample :
    let large := CodePoint.ofChar '1' :: List.replicate 309 (CodePoint.ofChar '0')
    let plain := "\x7b\"a\": [1, \x7b\"k\": -1e999\x7d, ".toText ++ large ++
      "], \"b\": -0.5, \"c\": [".toText ++ large ++ ", NaN]\x7d".toText
    let raw := Table.sampleRaw [] ++ [("z".toText,
      Code.ofUnits (Cipher.apply (plain.map Fin.val) (Utf8.encode "z".toText)))]
    ∃ p q tables, Program.parse "f(a.H.z.a, a.H.z.b, (a.H).z['a']);".toText = .ok p ∧
      Program.parse "f(a.H.z.b, [a.H.z.c]);".toText = .ok q ∧
      (Table.decodeAll raw Scheme.standard none).outcome = .ok tables ∧
      (edits Scheme.standard tables p.root).1.isOk = true ∧
      (edits Scheme.standard tables p.root).2.unrepresentable = 2 ∧
      (Cursor.ofRoot p.root).walk.countP (isUnrepresentable Scheme.standard tables) = 2 ∧
      ∃ c ∈ (Cursor.ofRoot q.root).walk, c.isWritten = false ∧ ∃ table field v i,
        c.node.proxyAccess Scheme.standard = .ok (some (table, field)) ∧
          selected tables table field = .ok (some v) ∧ v.obstacle? = some (.int i) := by
  intro large plain raw
  obtain ⟨p, hp, q, hq, tables, hdecoded, hfound, hcount, hfails⟩ :
      ∃ p, Program.parse "f(a.H.z.a, a.H.z.b, (a.H).z['a']);".toText = .ok p ∧
        ∃ q, Program.parse "f(a.H.z.b, [a.H.z.c]);".toText = .ok q ∧
        ∃ tables, (Table.decodeAll raw Scheme.standard none).outcome = .ok tables ∧
          (edits Scheme.standard tables p.root).1.isOk = true ∧
          (edits Scheme.standard tables p.root).2.unrepresentable = 2 ∧
          (edits Scheme.standard tables q.root).1 = .error (.number .tooLarge) := by
    decide +kernel
  obtain ⟨-, -, hrun⟩ := edits_of_decoded hdecoded
  have hcounted := (hrun p.root (Program.wellFormed_of_parse hp).shaped).1 _ _
    (Prod.ext (eq_ok_of_isOk hfound []) rfl)
  have hstopped := (hrun q.root (Program.wellFormed_of_parse hq).shaped).2 _ (Prod.ext hfails rfl)
  exact ⟨p, q, tables, hp, hq, hdecoded, hfound, hcount, hcounted.symm.trans hcount, hstopped⟩

end Resolution

end Unproxy
