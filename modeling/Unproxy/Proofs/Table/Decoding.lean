import Mathlib
import Unproxy.Proofs.Table.RoundTrip
import Unproxy.Proofs.Value.Entries

/-!
# Unproxy.Proofs.Table.Decoding

What decoding the wanted tables gives. Each table is decoded by itself: with its own codes, the
config table and its key position, and with nothing that was decoded before it. So neither the
tables that are not wanted nor the order of the others matter.

Main definitions:

* `Table.decodeAlone`, `Table.decodeStep`: one table, whatever stands before it;
* `Table.Computes`: what a wanted table comes to, by its parts.

Main statements:

* `Table.outcome_decodeEach`: tables are decoded one by one;
* `Table.get?_of_foldlM`, `Table.foldlM_eq_error_iff`: a run that succeeds and one that fails;
* `Table.decodeEach_congr`: other tables do not matter;
* `Table.outcome_decodeAll`: the outcome, all together.
-/

namespace Unproxy.Table

open Log

/-! ### Tables one by one -/

/-- The value of a table that is decoded by itself. -/
def decodeAlone (raw : Raw) (scheme : Scheme) (table : Text) (codes : List Code) :
    Except Error Value := do
  let config ← configFor raw scheme table none
  match scheme.keyPositions.get? table with
  | none => .error (.unknownTable table)
  | some position =>
    let key ← key config position table
    (decode table key codes).outcome

/-- Puts the value of a table to those found before, if the table has a raw form. -/
def decodeStep (raw : Raw) (scheme : Scheme) (found : Decoded) (table : Text) :
    Except Error Decoded :=
  match raw.get? table with
  | none => .ok found
  | some codes => (decodeAlone raw scheme table codes).map fun value =>
    Entries.set table value found

section

variable {raw : Raw} {scheme : Scheme}

/-- The config table's value does not depend on the table it is needed for. -/
theorem configFor_of_ok {table : Text} {config : Value}
    (h : configFor raw scheme table none = .ok config) (other : Text) :
    configFor raw scheme other none = .ok config := by
  unfold configFor at h ⊢
  cases hcodes : raw.get? scheme.configTable with
  | none =>
    rw [hcodes] at h
    cases h
  | some codes =>
    rw [hcodes] at h
    exact h

/-- Wanted tables are decoded one by one: that the config table's value is kept on the way
does not show. -/
theorem outcome_decodeEach {known : Option Value}
    (hknown : ∀ config ∈ known, ∀ table, configFor raw scheme table none = .ok config)
    (wanted : List Text) (found : Decoded) :
    (decodeEach raw scheme wanted known found).outcome =
      wanted.foldlM (decodeStep raw scheme) found := by
  induction wanted generalizing known found with
  | nil => rfl
  | cons table wanted ih =>
    rw [List.foldlM_cons, decodeStep, decodeEach]
    cases hcodes : raw.get? table with
    | none => exact ih hknown found
    | some codes =>
      have hconfig : configFor raw scheme table known = configFor raw scheme table none := by
        cases known with
        | none => rfl
        | some config => exact (hknown config rfl table).symm
      dsimp only
      rw [Logged.outcome_bind, decodeAlone, Logged.ofExcept, hconfig]
      cases hfor : configFor raw scheme table none with
      | error e => rfl
      | ok config =>
        have hlater : ∀ kept ∈ some config, ∀ other,
            configFor raw scheme other none = .ok kept := by
          rintro kept ⟨⟩ other
          exact configFor_of_ok hfor other
        cases hposition : scheme.keyPositions.get? table with
        | none => rfl
        | some position =>
          simp only [bind, Except.bind, Except.map]
          cases hkey : key config position table with
          | error e => simp [Logged.ofExcept]
          | ok key =>
            cases hvalue : (decode table key codes).outcome with
            | error e => simp [hvalue, Logged.ofExcept]
            | ok value =>
              simp only [hvalue, Logged.ofExcept]
              exact ih hlater _

/-- All that a step can do: a table without a raw form is passed over, and one that has
one is decoded. -/
theorem decodeStep_cases {found next : Decoded} {table : Text}
    (h : decodeStep raw scheme found table = .ok next) :
    (raw.get? table = none ∧ next = found) ∨
      ∃ codes value, raw.get? table = some codes ∧
        decodeAlone raw scheme table codes = .ok value ∧ next = Entries.set table value found := by
  unfold decodeStep at h
  split at h
  · rename_i hnone
    cases h
    exact .inl ⟨hnone, rfl⟩
  · rename_i codes hcodes
    cases hvalue : decodeAlone raw scheme table codes with
    | error e =>
      rw [hvalue] at h
      cases h
    | ok value =>
      rw [hvalue] at h
      cases h
      exact .inr ⟨codes, value, hcodes, hvalue, rfl⟩

theorem decodeStep_eq_error_iff {found : Decoded} {table : Text} {e : Error} :
    decodeStep raw scheme found table = .error e ↔
      ∃ codes, raw.get? table = some codes ∧ decodeAlone raw scheme table codes = .error e := by
  unfold decodeStep
  cases hcodes : raw.get? table with
  | none => simp
  | some codes =>
    cases hvalue : decodeAlone raw scheme table codes <;> simp [hvalue, Except.map]

theorem outcome_decodeAll_eq (wanted : Option (List Text)) :
    (decodeAll raw scheme wanted).outcome =
      (wanted.getD (scheme.encodedTables.filter raw.has)).foldlM (decodeStep raw scheme) [] := by
  refine outcome_decodeEach ?_ _ []
  intro config hconfig
  cases hconfig

/-! ### Runs -/

/-- A run that succeeds sets each wanted table that has a raw form to its own value, and leaves
all other tables as they were. -/
theorem get?_of_foldlM {wanted : List Text} {found all : Decoded}
    (h : wanted.foldlM (decodeStep raw scheme) found = .ok all) (table : Text) :
    (∀ codes, table ∈ wanted → raw.get? table = some codes →
        ∃ value, decodeAlone raw scheme table codes = .ok value ∧ all.get? table = some value) ∧
      (table ∉ wanted ∨ raw.get? table = none → all.get? table = found.get? table) := by
  induction wanted generalizing found with
  | nil =>
    cases h
    exact ⟨fun codes hmem => absurd hmem List.not_mem_nil, fun _ => rfl⟩
  | cons first wanted ih =>
    rw [List.foldlM_cons] at h
    obtain ⟨next, hnext, h⟩ := exists_of_bind_eq_ok h
    obtain ⟨hset, hkept⟩ := ih h
    have hstep := decodeStep_cases hnext
    constructor
    · intro codes hmem hcodes
      by_cases hlater : table ∈ wanted
      · exact hset codes hlater hcodes
      · -- The table is set here, and nothing behind it touches it again.
        obtain rfl : table = first := (List.mem_cons.mp hmem).resolve_right hlater
        rcases hstep with ⟨hnone, -⟩ | ⟨codes', value, hcodes', hvalue, rfl⟩
        · rw [hcodes] at hnone
          cases hnone
        · obtain rfl : codes = codes' := Option.some.inj (hcodes.symm.trans hcodes')
          exact ⟨value, hvalue, (hkept (.inl hlater)).trans (Entries.get?_set_self _ _ _)⟩
    · intro hother
      have hlater : table ∉ wanted ∨ raw.get? table = none :=
        hother.imp_left fun hmem hlater => hmem (List.mem_cons_of_mem first hlater)
      rw [hkept hlater]
      rcases hstep with ⟨-, rfl⟩ | ⟨codes, value, hcodes, -, rfl⟩
      · rfl
      · refine Entries.get?_set_ne ?_ value found
        rintro rfl
        rcases hother with hmem | hnone
        · exact hmem List.mem_cons_self
        · rw [hcodes] at hnone
          cases hnone

/-- A run keeps what setting a table to its own value keeps. -/
theorem keeps_of_foldlM (kept : Decoded → Prop)
    (hset : ∀ {table codes value found}, decodeAlone raw scheme table codes = .ok value →
      kept found → kept (found.set table value)) {wanted : List Text} {found all : Decoded}
    (h : wanted.foldlM (decodeStep raw scheme) found = .ok all) (hfound : kept found) : kept all := by
  induction wanted generalizing found with
  | nil =>
    cases h
    exact hfound
  | cons first wanted ih =>
    rw [List.foldlM_cons] at h
    obtain ⟨next, hnext, h⟩ := exists_of_bind_eq_ok h
    refine ih h ?_
    rcases decodeStep_cases hnext with ⟨-, rfl⟩ | ⟨codes, value, -, hvalue, rfl⟩
    · exact hfound
    · exact hset hvalue hfound

theorem nodup_keys_of_foldlM {wanted : List Text} {found all : Decoded}
    (h : wanted.foldlM (decodeStep raw scheme) found = .ok all) (hfound : found.keys.Nodup) :
    all.keys.Nodup :=
  keeps_of_foldlM (·.keys.Nodup) (fun _ => Entries.nodup_keys_set _) h hfound

/-- A run succeeds if every wanted table that has a raw form can be decoded by itself. -/
theorem exists_of_foldlM {wanted : List Text}
    (h : ∀ table ∈ wanted, ∀ codes, raw.get? table = some codes →
      ∃ value, decodeAlone raw scheme table codes = .ok value) (found : Decoded) :
    ∃ all, wanted.foldlM (decodeStep raw scheme) found = .ok all := by
  induction wanted generalizing found with
  | nil => exact ⟨found, rfl⟩
  | cons first wanted ih =>
    obtain ⟨hfirst, hothers⟩ := List.forall_mem_cons.mp h
    have hstep : ∃ next, decodeStep raw scheme found first = .ok next := by
      unfold decodeStep
      cases hcodes : raw.get? first with
      | none => exact ⟨found, rfl⟩
      | some codes =>
        obtain ⟨value, hvalue⟩ := hfirst codes hcodes
        exact ⟨Entries.set first value found, by simp only [hvalue, Except.map]⟩
    obtain ⟨next, hnext⟩ := hstep
    obtain ⟨all, hall⟩ := ih hothers next
    exact ⟨all, by rw [List.foldlM_cons, hnext]; exact hall⟩

/-- A run fails with the error of the first wanted table that cannot be decoded by itself. -/
theorem foldlM_eq_error_iff {wanted : List Text} {found : Decoded} {e : Error} :
    wanted.foldlM (decodeStep raw scheme) found = .error e ↔
      ∃ before table after codes, wanted = before ++ table :: after ∧
        raw.get? table = some codes ∧ decodeAlone raw scheme table codes = .error e ∧
        ∀ other ∈ before, ∀ codes, raw.get? other = some codes →
          ∃ value, decodeAlone raw scheme other codes = .ok value := by
  constructor
  · intro h
    induction wanted generalizing found with
    | nil => cases h
    | cons first wanted ih =>
      rw [List.foldlM_cons] at h
      cases hstep : decodeStep raw scheme found first with
      | error e' =>
        rw [hstep] at h
        cases h
        obtain ⟨codes, hcodes, hfails⟩ := decodeStep_eq_error_iff.mp hstep
        exact ⟨[], first, wanted, codes, rfl, hcodes, hfails,
          fun _ hother => absurd hother List.not_mem_nil⟩
      | ok next =>
        rw [hstep] at h
        obtain ⟨before, table, after, codes, rfl, hcodes, hfails, hbefore⟩ := ih h
        refine ⟨first :: before, table, after, codes, rfl, hcodes, hfails, ?_⟩
        refine List.forall_mem_cons.mpr ⟨fun codes' hcodes' => ?_, hbefore⟩
        rcases decodeStep_cases hstep with ⟨hnone, -⟩ | ⟨codes'', value, hcodes'', hvalue, -⟩
        · rw [hcodes'] at hnone
          cases hnone
        · obtain rfl : codes' = codes'' := Option.some.inj (hcodes'.symm.trans hcodes'')
          exact ⟨value, hvalue⟩
  · rintro ⟨before, table, after, codes, rfl, hcodes, hfails, hbefore⟩
    obtain ⟨next, hnext⟩ := exists_of_foldlM hbefore found
    have hstep : decodeStep raw scheme next table = .error e :=
      decodeStep_eq_error_iff.mpr ⟨codes, hcodes, hfails⟩
    rw [List.foldlM_append, hnext]
    show (table :: after).foldlM (decodeStep raw scheme) next = .error e
    rw [List.foldlM_cons, hstep]
    rfl

/-! ### Where the config table is missing -/

theorem readJson_ne_configMissing (label t config table : Text) :
    readJson label t ≠ .error (.configMissing config table) := by
  unfold readJson
  cases Json.read t with
  | ok value => simp
  | error e => cases e <;> simp

theorem decodeConfig_ne_configMissing (label : Text) (codes : List Code) (config table : Text) :
    decodeConfig label codes ≠ .error (.configMissing config table) := by
  unfold decodeConfig
  cases Code.text codes with
  | ok t => exact readJson_ne_configMissing label t config table
  | error e => simp

theorem key_ne_configMissing (value : Value) (position : Int) (label config table : Text) :
    key value position label ≠ .error (.configMissing config table) := by
  unfold key
  split
  · split
    · simp
    · split <;> simp
  · simp

theorem decode_ne_configMissing (label key : Text) (codes : List Code) (config table : Text) :
    (decode label key codes).outcome ≠ .error (.configMissing config table) := by
  unfold decode
  rw [Logged.outcome_bind]
  cases hbytes : keyBytes key with
  | error e =>
    rintro ⟨⟩
    unfold keyBytes at hbytes
    dsimp only at hbytes
    split at hbytes
    · cases hbytes
    · split at hbytes <;> cases hbytes
  | ok bytes =>
    show (Logged.ofExcept ((Code.units codes).mapError Error.number) >>= _).outcome ≠ _
    rw [Logged.outcome_bind]
    cases Code.units codes with
    | error e => exact fun h => by cases h
    | ok units => exact readJson_ne_configMissing label _ config table

/-- A table by itself misses the config table only if there is none. -/
theorem decodeAlone_eq_configMissing_iff (table : Text) (codes : List Code) :
    (∃ config table', decodeAlone raw scheme table codes = .error (.configMissing config table')) ↔
      raw.get? scheme.configTable = none := by
  unfold decodeAlone configFor
  cases hconfig : raw.get? scheme.configTable with
  | none => exact iff_of_true ⟨_, _, rfl⟩ rfl
  | some configCodes =>
    refine iff_of_false ?_ (by simp)
    rintro ⟨config, table', h⟩
    dsimp only at h
    cases hread : decodeConfig scheme.configTable configCodes with
    | error e =>
      rw [hread] at h
      cases h
      exact decodeConfig_ne_configMissing _ _ _ _ hread
    | ok value =>
      rw [hread] at h
      cases hposition : scheme.keyPositions.get? table with
      | none => simp [hposition, bind, Except.bind] at h
      | some position =>
        simp only [hposition, bind, Except.bind] at h
        cases hkey : key value position table with
        | error e =>
          rw [hkey] at h
          cases h
          exact key_ne_configMissing _ _ _ _ _ hkey
        | ok key =>
          rw [hkey] at h
          exact decode_ne_configMissing _ _ _ _ _ h

/-! ### Tables that are not wanted -/

/-- Decoding asks for the raw forms of the wanted tables and of the config table only. -/
theorem decodeEach_congr {raw' : Raw} {wanted : List Text}
    (hwanted : ∀ table ∈ wanted, raw'.get? table = raw.get? table)
    (hconfig : raw'.get? scheme.configTable = raw.get? scheme.configTable) (known : Option Value)
    (found : Decoded) :
    decodeEach raw' scheme wanted known found = decodeEach raw scheme wanted known found := by
  have hfor : ∀ table known,
      configFor raw' scheme table known = configFor raw scheme table known := by
    intro table known
    cases known with
    | none => rw [configFor, configFor, hconfig]
    | some config => rfl
  induction wanted generalizing known found with
  | nil => rfl
  | cons table wanted ih =>
    obtain ⟨htable, hothers⟩ := List.forall_mem_cons.mp hwanted
    rw [decodeEach, decodeEach, htable]
    simp only [hfor, ih hothers]

end

/-! ### The outcome -/

/-- What a wanted table comes to: the config table may be bad; otherwise the table's codes are
decoded with the key that stands at its position in the config table. -/
inductive Computes (raw : Raw) (scheme : Scheme) (table : Text) : Except Error Value → Prop
  | badConfig {codes configCodes : List Code} {e : Error} (present : raw.get? table = some codes)
      (config : raw.get? scheme.configTable = some configCodes)
      (bad : decodeConfig scheme.configTable configCodes = .error e) :
      Computes raw scheme table (.error e)
  | decoded {codes configCodes : List Code} {config : Value} {position : Nat}
      (present : raw.get? table = some codes)
      (configPresent : raw.get? scheme.configTable = some configCodes)
      (read : decodeConfig scheme.configTable configCodes = .ok config)
      (place : scheme.keyPositions.get? table = some position) :
      Computes raw scheme table
        (key config position table >>= fun key => (decode table key codes).outcome)

section

variable {raw : Raw} {scheme : Scheme}

/-- A table with a raw form, decoded by itself beside a config table. -/
theorem computes_iff {table : Text} {codes configCodes : List Code}
    (present : raw.get? table = some codes)
    (config : raw.get? scheme.configTable = some configCodes)
    (known : table ∈ scheme.encodedTables) (result : Except Error Value) :
    Computes raw scheme table result ↔ decodeAlone raw scheme table codes = result := by
  obtain ⟨position, hposition⟩ := Entries.exists_get?_of_mem_keys known
  have hfor : configFor raw scheme table none = decodeConfig scheme.configTable configCodes := by
    rw [configFor, config]
  rw [decodeAlone, hfor, hposition]
  constructor
  · intro h
    cases h with
    | badConfig present' config' bad =>
      obtain rfl := Option.some.inj (config.symm.trans config')
      rw [bad]
      rfl
    | decoded present' config' read place =>
      obtain rfl := Option.some.inj (present.symm.trans present')
      obtain rfl := Option.some.inj (config.symm.trans config')
      obtain rfl := Option.some.inj (hposition.symm.trans place)
      rw [read]
      rfl
  · rintro rfl
    cases hread : decodeConfig scheme.configTable configCodes with
    | error e => exact .badConfig present config hread
    | ok value => exact .decoded present config hread hposition

theorem exists_of_computes {table : Text} {result : Except Error Value}
    (h : Computes raw scheme table result) :
    ∃ codes configCodes, raw.get? table = some codes ∧
      raw.get? scheme.configTable = some configCodes := by
  cases h with
  | badConfig present config bad => exact ⟨_, _, present, config⟩
  | decoded present config read place => exact ⟨_, _, present, config⟩

/-- The config table is missed exactly if it is not there and some wanted table is. -/
theorem outcome_eq_configMissing_iff {wanted : List Text} :
    (∃ config table, (decodeAll raw scheme (some wanted)).outcome =
        .error (.configMissing config table)) ↔
      (∃ table ∈ wanted, raw.has table = true) ∧ raw.has scheme.configTable = false := by
  have hnone : raw.has scheme.configTable = false ↔ raw.get? scheme.configTable = none := by
    simp [Entries.has]
  rw [outcome_decodeAll_eq, Option.getD_some, hnone]
  constructor
  · rintro ⟨config, table, h⟩
    obtain ⟨before, table', after, codes, rfl, hcodes, hfails, -⟩ := foldlM_eq_error_iff.mp h
    refine ⟨⟨table', by simp, by simp [Entries.has, hcodes]⟩, ?_⟩
    exact (decodeAlone_eq_configMissing_iff table' codes).mp ⟨config, table, hfails⟩
  · rintro ⟨⟨table, hmem, hhas⟩, hmissing⟩
    obtain ⟨codes, hcodes⟩ := Option.isSome_iff_exists.mp hhas
    cases hrun : wanted.foldlM (decodeStep raw scheme) [] with
    | ok found =>
      obtain ⟨value, hvalue, -⟩ := (get?_of_foldlM hrun table).1 codes hmem hcodes
      obtain ⟨config, table', hfails⟩ :=
        (decodeAlone_eq_configMissing_iff table codes).mpr hmissing
      rw [hvalue] at hfails
      cases hfails
    | error e =>
      -- Whichever table fails first, by itself it misses the config table.
      obtain ⟨-, table', -, codes', -, -, hfails, -⟩ := foldlM_eq_error_iff.mp hrun
      obtain ⟨config, table'', hmisses⟩ :=
        (decodeAlone_eq_configMissing_iff table' codes').mpr hmissing
      obtain rfl := Except.error.inj (hfails.symm.trans hmisses)
      exact ⟨config, table'', rfl⟩

/-- A table that can be decoded by itself has a config table beside it. -/
theorem exists_config_of_decodeAlone {table : Text} {codes : List Code} {value : Value}
    (h : decodeAlone raw scheme table codes = .ok value) :
    ∃ configCodes, raw.get? scheme.configTable = some configCodes := by
  refine Option.ne_none_iff_exists'.mp fun hnone => ?_
  obtain ⟨config, table', hfails⟩ := (decodeAlone_eq_configMissing_iff table codes).mpr hnone
  rw [h] at hfails
  cases hfails

/-- The tables that are found are the wanted ones that have a raw form, and each has the value it
comes to. -/
theorem computes_of_outcome_eq_ok {wanted : List Text} (known : wanted ⊆ scheme.encodedTables)
    {found : Decoded} (h : (decodeAll raw scheme (some wanted)).outcome = .ok found) :
    found.keys.Nodup ∧
      (∀ table, table ∈ found.keys ↔ table ∈ wanted ∧ raw.has table = true) ∧
      ∀ table value, found.get? table = some value → Computes raw scheme table (.ok value) := by
  rw [outcome_decodeAll_eq, Option.getD_some] at h
  have hget := get?_of_foldlM h
  have hmem : ∀ table value, found.get? table = some value →
      table ∈ wanted ∧ ∃ codes, raw.get? table = some codes ∧
        decodeAlone raw scheme table codes = .ok value := by
    intro table value hvalue
    by_cases hwanted : table ∈ wanted
    · cases hcodes : raw.get? table with
      | none =>
        rw [(hget table).2 (.inr hcodes)] at hvalue
        cases hvalue
      | some codes =>
        obtain ⟨value', halone, hfound⟩ := (hget table).1 codes hwanted hcodes
        obtain rfl := Option.some.inj (hvalue.symm.trans hfound)
        exact ⟨hwanted, codes, rfl, halone⟩
    · rw [(hget table).2 (.inl hwanted)] at hvalue
      cases hvalue
  refine ⟨nodup_keys_of_foldlM h List.nodup_nil, fun table => ?_, fun table value hvalue => ?_⟩
  · constructor
    · intro hkey
      obtain ⟨value, hvalue⟩ := Entries.exists_get?_of_mem_keys hkey
      obtain ⟨hwanted, codes, hcodes, -⟩ := hmem table value hvalue
      exact ⟨hwanted, by simp [Entries.has, hcodes]⟩
    · rintro ⟨hwanted, hhas⟩
      obtain ⟨codes, hcodes⟩ := Option.isSome_iff_exists.mp hhas
      obtain ⟨value, -, hvalue⟩ := (hget table).1 codes hwanted hcodes
      exact Entries.mem_keys_of_get? hvalue
  · obtain ⟨hwanted, codes, hcodes, halone⟩ := hmem table value hvalue
    obtain ⟨configCodes, hconfig⟩ := exists_config_of_decodeAlone halone
    exact (computes_iff hcodes hconfig (known hwanted) _).mpr halone

/-- Beside a config table, or if none is needed, decoding fails with the error of the first
wanted table that comes to one. -/
theorem outcome_eq_error_iff {wanted : List Text} (known : wanted ⊆ scheme.encodedTables)
    (hconfig : raw.has scheme.configTable = true ∨ ∀ table ∈ wanted, raw.has table = false)
    (e : Error) :
    (decodeAll raw scheme (some wanted)).outcome = .error e ↔
      ∃ before table after, wanted = before ++ table :: after ∧
        Computes raw scheme table (.error e) ∧
        ∀ other ∈ before, raw.has other = true →
          ∃ value, Computes raw scheme other (.ok value) := by
  rw [outcome_decodeAll_eq, Option.getD_some, foldlM_eq_error_iff]
  constructor
  · rintro ⟨before, table, after, codes, rfl, hcodes, hfails, hbefore⟩
    have hpresent : raw.has scheme.configTable = true := by
      refine hconfig.resolve_right fun hnone => ?_
      have hhas := hnone table (by simp)
      simp [Entries.has, hcodes] at hhas
    obtain ⟨configCodes, hconfigCodes⟩ := Option.isSome_iff_exists.mp hpresent
    refine ⟨before, table, after, rfl, ?_, fun other hother hhas => ?_⟩
    · exact (computes_iff hcodes hconfigCodes (known (by simp)) _).mpr hfails
    · obtain ⟨otherCodes, hotherCodes⟩ := Option.isSome_iff_exists.mp hhas
      obtain ⟨value, hvalue⟩ := hbefore other hother otherCodes hotherCodes
      have hknown : other ∈ scheme.encodedTables := known (List.mem_append_left _ hother)
      exact ⟨value, (computes_iff hotherCodes hconfigCodes hknown _).mpr hvalue⟩
  · rintro ⟨before, table, after, rfl, hfails, hbefore⟩
    obtain ⟨codes, configCodes, hcodes, hconfigCodes⟩ := exists_of_computes hfails
    refine ⟨before, table, after, codes, rfl, hcodes, ?_, ?_⟩
    · exact (computes_iff hcodes hconfigCodes (known (by simp)) _).mp hfails
    · intro other hother otherCodes hotherCodes
      obtain ⟨value, hvalue⟩ := hbefore other hother (by simp [Entries.has, hotherCodes])
      have hknown : other ∈ scheme.encodedTables := known (List.mem_append_left _ hother)
      exact ⟨value, (computes_iff hotherCodes hconfigCodes hknown _).mp hvalue⟩

/-- Whether decoding succeeds, and what it gives for a table, does not depend on the order in which
tables are wanted. -/
theorem outcome_of_perm {wanted wanted' : List Text} (h : wanted'.Perm wanted) :
    (decodeAll raw scheme (some wanted')).outcome.isOk =
        (decodeAll raw scheme (some wanted)).outcome.isOk ∧
      ∀ found found', (decodeAll raw scheme (some wanted)).outcome = .ok found →
        (decodeAll raw scheme (some wanted')).outcome = .ok found' →
        ∀ table, found'.get? table = found.get? table := by
  simp only [outcome_decodeAll_eq, Option.getD_some]
  have hruns : ∀ {row row' : List Text} {found : Decoded}, row'.Perm row →
      row.foldlM (decodeStep raw scheme) [] = .ok found →
      ∃ found', row'.foldlM (decodeStep raw scheme) [] = .ok found' := by
    intro row row' found hperm hrun
    refine exists_of_foldlM (fun table htable codes hcodes => ?_) []
    have htable' := hperm.mem_iff.mp htable
    obtain ⟨value, hvalue, -⟩ := (get?_of_foldlM hrun table).1 codes htable' hcodes
    exact ⟨value, hvalue⟩
  constructor
  · cases hrun : wanted.foldlM (decodeStep raw scheme) [] with
    | ok found =>
      obtain ⟨found', hrun'⟩ := hruns h hrun
      rw [hrun']
      rfl
    | error e =>
      cases hrun' : wanted'.foldlM (decodeStep raw scheme) [] with
      | ok found' =>
        obtain ⟨found, hfound⟩ := hruns h.symm hrun'
        rw [hrun] at hfound
        cases hfound
      | error e' => rfl
  · intro found found' hrun hrun' table
    have hget := get?_of_foldlM hrun table
    have hget' := get?_of_foldlM hrun' table
    rw [h.mem_iff] at hget'
    by_cases hmem : table ∈ wanted
    · cases hcodes : raw.get? table with
      | none => rw [hget.2 (.inr hcodes), hget'.2 (.inr hcodes)]
      | some codes =>
        obtain ⟨value, hvalue, hfound⟩ := hget.1 codes hmem hcodes
        obtain ⟨value', hvalue', hfound'⟩ := hget'.1 codes hmem hcodes
        rw [hfound, hfound', Except.ok.inj (hvalue.symm.trans hvalue')]
    · rw [hget.2 (.inl hmem), hget'.2 (.inl hmem)]

end

/-- What decoding the wanted tables comes to. It misses the config table exactly if that is not
there and some wanted table is. If it succeeds, the tables found are the wanted ones that have a
raw form, each with the value it comes to beside the config table; otherwise it fails with the
error of the first that comes to one. Raw forms of other tables do not matter, not even for what is
reported, nor does the order of the wanted tables for success and for values. -/
theorem outcome_decodeAll (raw : Raw) {scheme : Scheme} {wanted : List Text}
    (known : wanted ⊆ scheme.encodedTables) :
    ((∃ config table, (decodeAll raw scheme (some wanted)).outcome =
          .error (.configMissing config table)) ↔
        (∃ table ∈ wanted, raw.has table = true) ∧ raw.has scheme.configTable = false) ∧
      (∀ found, (decodeAll raw scheme (some wanted)).outcome = .ok found →
        found.keys.Nodup ∧
          (∀ table, table ∈ found.keys ↔ table ∈ wanted ∧ raw.has table = true) ∧
          ∀ table value, found.get? table = some value → Computes raw scheme table (.ok value)) ∧
      ((raw.has scheme.configTable = true ∨ ∀ table ∈ wanted, raw.has table = false) →
        ∀ e, (decodeAll raw scheme (some wanted)).outcome = .error e ↔
          ∃ before table after, wanted = before ++ table :: after ∧
            Computes raw scheme table (.error e) ∧
            ∀ other ∈ before, raw.has other = true →
              ∃ value, Computes raw scheme other (.ok value)) ∧
      (∀ raw' : Raw, (∀ table ∈ wanted, raw'.get? table = raw.get? table) →
        raw'.get? scheme.configTable = raw.get? scheme.configTable →
        decodeAll raw' scheme (some wanted) = decodeAll raw scheme (some wanted)) ∧
      ∀ wanted' : List Text, wanted'.Perm wanted →
        (decodeAll raw scheme (some wanted')).outcome.isOk =
            (decodeAll raw scheme (some wanted)).outcome.isOk ∧
          ∀ found found', (decodeAll raw scheme (some wanted)).outcome = .ok found →
            (decodeAll raw scheme (some wanted')).outcome = .ok found' →
            ∀ table, found'.get? table = found.get? table := by
  refine ⟨outcome_eq_configMissing_iff, fun found => computes_of_outcome_eq_ok known,
    fun hconfig => outcome_eq_error_iff known hconfig, fun raw' hwanted hconfig => ?_,
    fun wanted' => outcome_of_perm⟩
  exact decodeEach_congr hwanted hconfig none []

/-- Raw tables under the standard scheme, each with its name as its key. -/
def sampleRaw (tables : List (Text × Value)) : Raw :=
  let names := ["uB", "", "I", "", "z", "", "u", "", "l"]
  let keys := names.map fun name => Value.text (Base64.encode (Utf8.encode name.toText))
  ("t".toText, Code.ofUnits (Utf16.encode (Json.ascii .compact (.array keys)))) ::
    tables.map fun (table, value) => (table, encode .compact (Utf8.encode table) value)

/-- Two tables are decoded, one that is wanted twice; one that is wanted has no raw form; and a last
one has a raw form that is no JSON, so decoding fails where it is wanted. -/
theorem outcome_decodeAll_sample :
    let raw := sampleRaw
      [("uB".toText, .array [.bool true]),
        ("z".toText, .object [(.text "f".toText, .text "é".toText)])] ++
        [("l".toText, Code.ofUnits [0x7B])]
    let wanted := ["z".toText, "u".toText, "uB".toText, "z".toText]
    let more := ["u".toText, "l".toText, "z".toText]
    (∃ found, (decodeAll raw Scheme.standard (some wanted)).outcome = .ok found ∧
      found.keys = ["z".toText, "uB".toText] ∧
      ∀ table value, found.get? table = some value →
        Computes raw Scheme.standard table (.ok value)) ∧
      ∃ e before table after, (decodeAll raw Scheme.standard (some more)).outcome = .error e ∧
        more = before ++ table :: after ∧ Computes raw Scheme.standard table (.error e) := by
  intro raw wanted more
  obtain ⟨found, hfound, hkeys, hconfig, hfails⟩ :
      ∃ found, (decodeAll raw Scheme.standard (some wanted)).outcome = .ok found ∧
        found.keys = ["z".toText, "uB".toText] ∧ raw.has Scheme.standard.configTable = true ∧
        (decodeAll raw Scheme.standard (some more)).outcome.isOk = false := by
    decide +kernel
  refine ⟨⟨found, hfound, hkeys, ?_⟩, ?_⟩
  · exact ((outcome_decodeAll raw (by decide)).2.1 found hfound).2.2
  · cases hrun : (decodeAll raw Scheme.standard (some more)).outcome with
    | ok _ =>
      rw [hrun] at hfails
      cases hfails
    | error e =>
      obtain ⟨before, table, after, hmore, hcomputes, -⟩ :=
        ((outcome_decodeAll raw (by decide)).2.2.1 (.inl hconfig) e).mp hrun
      exact ⟨e, before, table, after, rfl, hmore, hcomputes⟩

end Unproxy.Table
