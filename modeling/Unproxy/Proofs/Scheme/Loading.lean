import Mathlib
import Unproxy.Scheme.File
import Unproxy.Proofs.Json.Outcome
import Unproxy.Proofs.Outcome
import Unproxy.Proofs.Table.Failure
import Unproxy.Proofs.Text.Utf8

/-!
# Unproxy.Proofs.Scheme.Loading

What loading a scheme from a file comes to. An accepted scheme is one on which extraction and
decoding can rely, and it says what the settings say. A file that cannot be read, that is no JSON or
that holds no scheme is reported as such. Two failures get past: bytes that are no UTF-8, and an
integer that has more digits than can be read.

Main definitions:

* `Scheme.WellFormed`: what the rest of the library relies on;
* `Scheme.Held`, `Scheme.Chosen`, `Scheme.Describes`: from a file to the settings of one scheme;
* `Scheme.Escapes`: the failures that get past, with what causes them.

Main statements:

* `Scheme.wellFormed_of_check`, `Scheme.describes_of_check`: accepted settings;
* `Scheme.outcome_load`: the outcomes of loading.
-/

namespace Unproxy.Scheme

/-! ### Accepted settings -/

/-- The names that a scheme cannot do without. -/
def requiredNames (s : Scheme) : List Text :=
  [s.root, s.arrayNamespace, s.proxyNamespace, s.aliasNamespace, s.configTable]

/-- What extraction and decoding rely on: there are names and tables, and no table twice. -/
structure WellFormed (s : Scheme) : Prop where
  named : ∀ name ∈ s.requiredNames, name ≠ []
  encoded : s.encodedTables ≠ []
  distinct : s.tableIds.Nodup

/-- Settings hold everything that the settings of a scheme hold. -/
def Describes (data : Value) (s : Scheme) : Prop :=
  ∀ key value, s.toValue.member? key = some value → data.member? key = some value

/-- A table and the position of its key, as settings hold them. -/
def positionMember (entry : Text × Nat) : Key × Value := (.text entry.1, .number (.int entry.2))

section

variable {name : Text} {data : Value} {s : Scheme}

theorem member?_of_requiredName {key : String} {t : Text} (h : requiredName data key = .ok t) :
    data.member? key.toText = some (.text t) ∧ t ≠ [] := by
  unfold requiredName at h
  split at h
  · rename_i t' hmember
    split at h
    · cases h
    · rename_i hempty
      cases h
      exact ⟨hmember, by simpa using hempty⟩
  · cases h

/-- The steps of a check that succeeds. -/
theorem exists_of_check (h : check name data = .ok s) :
    s.name = name ∧
      requiredName data "root" = .ok s.root ∧
      requiredName data "array_namespace" = .ok s.arrayNamespace ∧
      requiredName data "proxy_namespace" = .ok s.proxyNamespace ∧
      requiredName data "alias_namespace" = .ok s.aliasNamespace ∧
      requiredName data "config_table" = .ok s.configTable ∧
      ∃ members, data.member? "key_positions".toText = some (.object members) ∧ members ≠ [] ∧
        positions members [] = .ok s.keyPositions ∧ s.keyPositions.has s.configTable = false := by
  unfold check at h
  split at h
  · obtain ⟨root, hroot, h⟩ := exists_of_bind_eq_ok h
    obtain ⟨arrayNamespace, harray, h⟩ := exists_of_bind_eq_ok h
    obtain ⟨proxyNamespace, hproxy, h⟩ := exists_of_bind_eq_ok h
    obtain ⟨aliasNamespace, halias, h⟩ := exists_of_bind_eq_ok h
    obtain ⟨configTable, hconfig, h⟩ := exists_of_bind_eq_ok h
    split at h
    · rename_i members hmembers
      dsimp only at h
      split at h
      · cases h
      · rename_i hempty
        obtain ⟨keyPositions, hpositions, h⟩ := exists_of_bind_eq_ok h
        split at h
        · cases h
        · rename_i hhas
          cases h
          exact ⟨rfl, hroot, harray, hproxy, halias, hconfig, members, hmembers,
            by simpa using hempty, hpositions, by simpa using hhas⟩
    · cases h
  · cases h

/-- Positions are read off members one by one, and none of them is negative. -/
theorem map_positionMember_of_positions {members : List (Key × Value)}
    {found all : Entries Text Nat} (named : ∀ m ∈ members, ∃ t, m.1 = .text t)
    (nodup : (found.map positionMember ++ members |>.map Prod.fst).Nodup)
    (h : positions members found = .ok all) :
    found.map positionMember ++ members = all.map positionMember := by
  induction members generalizing found with
  | nil =>
    cases h
    rw [List.append_nil]
  | cons member members ih =>
    obtain ⟨key, position⟩ := member
    obtain ⟨table, rfl⟩ : ∃ t, key = .text t := named _ List.mem_cons_self
    have hnew : table ∉ found.keys := by
      intro hmem
      rw [List.map_append, List.nodup_append] at nodup
      obtain ⟨entry, hentry, rfl⟩ := List.mem_map.mp hmem
      refine nodup.2.2 (.text entry.1) ?_ _ List.mem_cons_self rfl
      exact List.mem_map.mpr ⟨_, List.mem_map_of_mem hentry, rfl⟩
    unfold positions at h
    split at h
    · rename_i i
      split at h
      · cases h
      · rename_i hi
        have hposition : positionMember (table, i.toNat) = (.text table, .number (.int i)) := by
          rw [positionMember, Int.toNat_of_nonneg (Int.not_lt.mp hi)]
        have hset : (Entries.set table i.toNat found).map positionMember ++ members =
            found.map positionMember ++ (.text table, .number (.int i)) :: members := by
          rw [Entries.set_of_not_mem _ hnew, List.map_append, List.append_assoc, List.map_singleton,
            hposition, List.singleton_append]
        rw [Key.toText] at h
        rw [← hset] at nodup ⊢
        exact ih (fun m hm => named m (List.mem_cons_of_mem _ hm)) nodup h
    · cases h

/-- The key positions of an accepted scheme are those of the settings, in their order. -/
theorem keyPositions_of_check (json : data.IsJson) (h : check name data = .ok s) :
    data.member? "key_positions".toText = some (.object (s.keyPositions.map positionMember)) ∧
      s.encodedTables ≠ [] := by
  obtain ⟨-, -, -, -, -, -, members, hmembers, hne, hpositions, -⟩ := exists_of_check h
  cases json.member? hmembers with
  | object named nodup all =>
    obtain rfl : members = s.keyPositions.map positionMember :=
      @map_positionMember_of_positions members [] s.keyPositions named nodup hpositions
    refine ⟨hmembers, fun hnone => hne ?_⟩
    rw [List.map_eq_nil_iff.mp hnone]
    rfl

/-- Positions are found under different names, whatever names the members have. -/
theorem nodup_keys_of_positions {members : List (Key × Value)} {found all : Entries Text Nat}
    (hfound : found.keys.Nodup) (h : positions members found = .ok all) : all.keys.Nodup := by
  induction members generalizing found with
  | nil =>
    cases h
    exact hfound
  | cons member members ih =>
    obtain ⟨key, position⟩ := member
    unfold positions at h
    split at h
    · split at h
      · cases h
      · exact ih (Entries.nodup_keys_set _ hfound) h
    · cases h

/-- An accepted scheme has no table twice. -/
theorem nodup_tableIds_of_check (h : check name data = .ok s) : s.tableIds.Nodup := by
  obtain ⟨-, -, -, -, -, -, members, -, -, hpositions, hhas⟩ := exists_of_check h
  have hnodup : s.encodedTables.Nodup :=
    @nodup_keys_of_positions members [] s.keyPositions List.nodup_nil hpositions
  refine List.nodup_cons.mpr ⟨fun hmem => ?_, hnodup⟩
  rw [Entries.has_iff.mpr hmem] at hhas
  cases hhas

theorem wellFormed_of_check (json : data.IsJson) (h : check name data = .ok s) : s.WellFormed := by
  obtain ⟨-, hroot, harray, hproxy, halias, hconfig, -⟩ := exists_of_check h
  refine ⟨?_, (keyPositions_of_check json h).2, nodup_tableIds_of_check h⟩
  simp only [requiredNames, List.forall_mem_cons, List.not_mem_nil, false_implies, implies_true,
    and_true]
  exact ⟨(member?_of_requiredName hroot).2, (member?_of_requiredName harray).2,
    (member?_of_requiredName hproxy).2, (member?_of_requiredName halias).2,
    (member?_of_requiredName hconfig).2⟩

theorem describes_of_check (json : data.IsJson) (h : check name data = .ok s) :
    Describes data s := by
  obtain ⟨-, hroot, harray, hproxy, halias, hconfig, -⟩ := exists_of_check h
  intro key value hvalue
  have hmem := Entries.mem_of_get? hvalue
  simp only [List.mem_cons, Prod.mk.injEq, Key.text.injEq, List.not_mem_nil, or_false] at hmem
  rcases hmem with ⟨rfl, rfl⟩ | ⟨rfl, rfl⟩ | ⟨rfl, rfl⟩ | ⟨rfl, rfl⟩ | ⟨rfl, rfl⟩ | ⟨rfl, rfl⟩
  · exact (member?_of_requiredName hroot).1
  · exact (member?_of_requiredName harray).1
  · exact (member?_of_requiredName hproxy).1
  · exact (member?_of_requiredName halias).1
  · exact (member?_of_requiredName hconfig).1
  · exact (keyPositions_of_check json h).1

end

/-! ### From a file to settings -/

/-- The settings that loading starts from: the built-in ones, or those in a file. -/
inductive Held (files : Files) : Option Path → Value → Prop
  | builtIn : Held files none Scheme.builtIn
  | file {path : Path} {t : Text} {settings : Value} (read : files.read path = .ok (Utf8.encode t))
      (encodable : Utf8.Encodable t) (json : Json.read (Text.joinLineBreaks t) = .ok settings) :
      Held files (some path) settings

/-- The settings of one scheme among settings: all of them, or those under its name. -/
inductive Chosen (settings : Value) (name : Text) : Value → Prop
  | bare (alone : settings.member? "schemes".toText = none ∨
      settings.member? "schemes".toText = some .null) : Chosen settings name settings
  | named {schemes data : Value} (several : settings.member? "schemes".toText = some schemes)
      (own : schemes.member? name = some data) : Chosen settings name data

theorem isJson_builtIn : builtIn.IsJson := by
  have hpositions : (Value.object (standard.keyPositions.map positionMember)).IsJson := by
    refine .object (fun m hm => ?_) (by decide) (fun m hm => ?_)
    · obtain ⟨entry, -, rfl⟩ := List.mem_map.mp hm
      exact ⟨entry.1, rfl⟩
    · obtain ⟨entry, -, rfl⟩ := List.mem_map.mp hm
      exact .int entry.2
  have hstandard : standard.toValue.IsJson := by
    refine .object ?_ (by decide) ?_
    · simp
    · simp only [List.forall_mem_cons, List.not_mem_nil, false_implies, implies_true, and_true]
      exact ⟨.text _, .text _, .text _, .text _, .text _, hpositions⟩
  have hschemes : (Value.object [(.text standardName, standard.toValue)]).IsJson :=
    .object (by simp) (by simp) (by simpa using hstandard)
  exact .object (by simp) (by simp) (by simpa using hschemes)

theorem Held.isJson {files : Files} {path : Option Path} {settings : Value}
    (h : Held files path settings) : settings.IsJson := by
  cases h with
  | builtIn => exact isJson_builtIn
  | file read encodable json => exact Json.isJson_of_read json

theorem Chosen.isJson {settings data : Value} {name : Text} (h : Chosen settings name data)
    (json : settings.IsJson) : data.IsJson := by
  cases h with
  | bare alone => exact json
  | named several own => exact (json.member? several).member? own

/-! ### Failures -/

/-- Whether a failure counts as one of the scheme or its file. -/
def LoadError.isReported : LoadError → Bool
  | .undecodable _ | .number _ => false
  | _ => true

/-- The failures that get past, with what causes them: bytes that are no UTF-8, and an integer that
is too long. -/
inductive Escapes (bytes : Bytes) : LoadError → Prop
  | undecodable {error : Utf8.DecodeError} (read : Utf8.decode bytes = .error error) :
      Escapes bytes (.undecodable error)
  | digits {t : Text} {count : Nat} (encodable : Utf8.Encodable t) (text : Utf8.encode t = bytes)
      (read : Json.read (Text.joinLineBreaks t) = .error (.number (.tooManyDigits count))) :
      Escapes bytes (.number (.tooManyDigits count))

theorem readSettings_cases (files : Files) (path : Path) :
    (∃ settings, readSettings files path = .ok settings ∧ Held files (some path) settings) ∨
      (∃ e, readSettings files path = .error e ∧ e.isReported = true) ∨
      ∃ e bytes, readSettings files path = .error e ∧ e.isReported = false ∧
        files.read path = .ok bytes ∧ Escapes bytes e := by
  unfold readSettings Files.readRaw Files.textOf
  cases hread : files.read path with
  | error error => exact .inr (.inl ⟨_, rfl, rfl⟩)
  | ok bytes =>
    dsimp only
    cases hdecode : Utf8.decode bytes with
    | error error => exact .inr (.inr ⟨_, bytes, rfl, rfl, rfl, .undecodable hdecode⟩)
    | ok t =>
      obtain ⟨hencodable, hencode⟩ := Utf8.encode_of_decodeFrom hdecode
      simp only [Except.map, Except.mapError]
      cases hjson : Json.read (Text.joinLineBreaks t) with
      | ok settings =>
        rw [← hencode] at hread
        exact .inl ⟨settings, rfl, .file hread hencodable hjson⟩
      | error error =>
        cases error with
        | syntaxError error => exact .inr (.inl ⟨_, rfl, rfl⟩)
        | number error =>
          obtain ⟨count, rfl, -⟩ := Json.exists_hasDigits_of_read hjson
          exact .inr (.inr ⟨_, bytes, rfl, rfl, rfl, .digits hencodable hencode hjson⟩)

theorem ofValue_cases (name : Text) (data : Value) :
    (∃ s, ofValue name data = .ok s ∧ check name data = .ok s) ∨
      ∃ e, ofValue name data = .error e := by
  unfold ofValue
  cases check name data with
  | ok s => exact .inl ⟨s, rfl, rfl⟩
  | error flaw => exact .inr ⟨_, rfl⟩

/-- Choosing among settings gives a scheme that was checked, or fails with a report. -/
theorem select_cases (path : Path) (name : Text) (settings : Value) :
    (∃ s data, (select path name settings).outcome = .ok s ∧ Chosen settings name data ∧
        check name data = .ok s) ∨
      ∃ e, (select path name settings).outcome = .error e ∧ e.isReported = true := by
  have hown : ∀ {data : Value}, Chosen settings name data → ∀ {outcome : Except LoadError Scheme},
      outcome = (ofValue name data).mapError .scheme →
      (∃ s data, outcome = .ok s ∧ Chosen settings name data ∧ check name data = .ok s) ∨
        ∃ e, outcome = .error e ∧ e.isReported = true := by
    intro data chosen outcome houtcome
    rcases ofValue_cases name data with ⟨s, hs, hcheck⟩ | ⟨e, he⟩
    · rw [hs] at houtcome
      exact .inl ⟨s, data, houtcome, chosen, hcheck⟩
    · rw [he] at houtcome
      exact .inr ⟨_, houtcome, rfl⟩
  unfold select
  split
  · split
    · rename_i hnone
      exact hown (.bare (.inl hnone)) rfl
    · rename_i hnull
      exact hown (.bare (.inr hnull)) rfl
    · rename_i schemes _ hseveral
      split
      · rename_i data hdata
        exact hown (.named hseveral hdata) rfl
      · exact .inr ⟨_, rfl, rfl⟩
  · exact .inr ⟨_, rfl, rfl⟩

/-- The steps of loading. -/
theorem load_cases (files : Files) (home : Path) (path : Option Path) (name : Text) :
    (∃ s settings data, (load files home path name).outcome = .ok s ∧ Held files path settings ∧
        Chosen settings name data ∧ check name data = .ok s) ∨
      (∃ e, (load files home path name).outcome = .error e ∧ e.isReported = true) ∨
      ∃ e file bytes, (load files home path name).outcome = .error e ∧ e.isReported = false ∧
        path = some file ∧ files.read file = .ok bytes ∧ Escapes bytes e := by
  cases path with
  | none =>
    rcases select_cases home name builtIn with ⟨s, data, hs, hchosen, hcheck⟩ | hfailed
    · exact .inl ⟨s, builtIn, data, hs, .builtIn, hchosen, hcheck⟩
    · exact .inr (.inl hfailed)
  | some file =>
    have hload : (load files home (some file) name).outcome =
        readSettings files file >>= fun settings => (select file name settings).outcome :=
      Log.Logged.outcome_bind _ _
    rw [hload]
    rcases readSettings_cases files file with
      ⟨settings, hsettings, hheld⟩ | ⟨e, he, hreported⟩ | ⟨e, bytes, he, hreported, hescapes⟩
    · rw [hsettings]
      rcases select_cases file name settings with ⟨s, data, hs, hchosen, hcheck⟩ | hfailed
      · exact .inl ⟨s, settings, data, hs, hheld, hchosen, hcheck⟩
      · exact .inr (.inl hfailed)
    · rw [he]
      exact .inr (.inl ⟨e, rfl, hreported⟩)
    · rw [he]
      exact .inr (.inr ⟨e, file, bytes, rfl, hreported, rfl, hescapes⟩)

/-- What gets past while a file is read gets past while a scheme is loaded from it. -/
theorem load_of_escapes {files : Files} {file : Path} {bytes : Bytes} {e : LoadError}
    (hread : files.read file = .ok bytes) (h : Escapes bytes e) (home : Path) (name : Text) :
    (load files home (some file) name).outcome = .error e ∧ e.isReported = false := by
  have hload : (load files home (some file) name).outcome =
      readSettings files file >>= fun settings => (select file name settings).outcome :=
    Log.Logged.outcome_bind _ _
  rw [hload]
  unfold readSettings Files.readRaw Files.textOf
  rw [hread]
  cases h with
  | undecodable read =>
    dsimp only
    rw [read]
    exact ⟨rfl, rfl⟩
  | digits encodable text read =>
    dsimp only
    rw [← text, Utf8.decode_encode encodable]
    simp only [Except.map, Except.mapError, read]
    exact ⟨rfl, rfl⟩

theorem exists_escapes_undecodable_iff {bytes : Bytes} :
    (∃ error, Escapes bytes (.undecodable error)) ↔
      ¬∃ t, Utf8.Encodable t ∧ Utf8.encode t = bytes := by
  rw [← Utf8.exists_decode_eq_error_iff]
  constructor
  · intro h
    obtain ⟨error, h⟩ := h
    cases h with
    | undecodable read => exact ⟨error, read⟩
  · intro h
    obtain ⟨error, read⟩ := h
    exact ⟨error, .undecodable read⟩

theorem joinLineBreaks_of_isDigit {digits : Text} (h : digits.all CodePoint.isDigit = true) :
    Text.joinLineBreaks digits = digits := by
  induction digits with
  | nil => rfl
  | cons c digits ih =>
    rw [List.all_cons, Bool.and_eq_true] at h
    have hc : c ≠ CodePoint.ofChar '\r' := by
      rintro rfl
      exact absurd h.1 (by decide)
    rw [Text.joinLineBreaks.eq_def]
    dsimp only
    rw [if_neg hc, ih h.2]

/-- Digits that are too long an integer get past. -/
theorem escapes_of_digits {digits : Text} (isDigits : digits.all CodePoint.isDigit = true)
    (first : digits.head? ≠ some (CodePoint.ofChar '0'))
    (long : Number.maxDigits < digits.length) :
    Escapes (Utf8.encode digits) (.number (.tooManyDigits digits.length)) := by
  have hascii : digits.all CodePoint.isAscii = true := by
    rw [List.all_eq_true] at isDigits ⊢
    exact fun c hc => CodePoint.isAscii_of_isDigit (isDigits c hc)
  refine .digits (Utf8.encodable_of_isAscii hascii) rfl ?_
  rw [joinLineBreaks_of_isDigit isDigits]
  exact Json.read_of_tooManyDigits isDigits first long

/-- What loading comes to. A scheme that is loaded has all its names, has encoded tables and has no
table twice, and it is described by the settings. A failure is not reported exactly where the bytes
of the file are no UTF-8, or their text, read as JSON, comes to an integer that is too long. Such a
text has more than 4300 digits in a row, and a row of that many digits is one. That an interpreter
gives up on JSON that is nested too deeply is left out. -/
theorem outcome_load (files : Files) (home : Path) (path : Option Path) (name : Text) :
    (∀ s, (load files home path name).outcome = .ok s →
        s.name = name ∧ s.WellFormed ∧ ∃ settings data,
          Held files path settings ∧ Chosen settings name data ∧ Describes data s) ∧
      (∀ e, (load files home path name).outcome = .error e ∧ e.isReported = false ↔
        ∃ file bytes, path = some file ∧ files.read file = .ok bytes ∧ Escapes bytes e) ∧
      (∀ bytes, (∃ error, Escapes bytes (.undecodable error)) ↔
        ¬∃ t, Utf8.Encodable t ∧ Utf8.encode t = bytes) ∧
      (∀ bytes error, Escapes bytes (.number error) → ∃ t count, Utf8.encode t = bytes ∧
        error = .tooManyDigits count ∧ 4300 < count ∧ (Text.joinLineBreaks t).HasDigits count) ∧
      ∀ digits : Text, digits.all CodePoint.isDigit = true →
        digits.head? ≠ some (CodePoint.ofChar '0') → 4300 < digits.length →
        Escapes (Utf8.encode digits) (.number (.tooManyDigits digits.length)) := by
  refine ⟨fun s hs => ?_, fun e => ⟨fun he => ?_, fun he => ?_⟩, fun bytes =>
    exists_escapes_undecodable_iff, fun bytes error h => ?_, fun digits isDigits first long =>
      escapes_of_digits isDigits first long⟩
  · rcases load_cases files home path name with
      ⟨s', settings, data, hs', hheld, hchosen, hcheck⟩ | ⟨e, he, -⟩ | ⟨e, _, _, he, -⟩
    · obtain rfl : s' = s := Except.ok.inj (hs'.symm.trans hs)
      have hjson := hchosen.isJson hheld.isJson
      exact ⟨(exists_of_check hcheck).1, wellFormed_of_check hjson hcheck, settings, data, hheld,
        hchosen, describes_of_check hjson hcheck⟩
    · rw [he] at hs
      cases hs
    · rw [he] at hs
      cases hs
  · obtain ⟨he, hreported⟩ := he
    rcases load_cases files home path name with
      ⟨s, _, _, hs, -⟩ | ⟨e', he', hreported'⟩ | ⟨e', file, bytes, he', -, hpath, hread, hescapes⟩
    · rw [hs] at he
      cases he
    · obtain rfl : e' = e := Except.error.inj (he'.symm.trans he)
      rw [hreported] at hreported'
      cases hreported'
    · obtain rfl : e' = e := Except.error.inj (he'.symm.trans he)
      exact ⟨file, bytes, hpath, hread, hescapes⟩
  · obtain ⟨file, bytes, rfl, hread, hescapes⟩ := he
    exact load_of_escapes hread hescapes home name
  · cases h with
    | digits encodable text read =>
      obtain ⟨count, hsame, hcount, hdigits⟩ := Json.exists_hasDigits_of_read read
      exact ⟨_, count, text, hsame, hcount, hdigits⟩

/-- A file with one scheme by name, with its line breaks in the long form, one that breaks off inside
a character, and one of 4301 ones. -/
theorem outcome_load_files :
    let settings := "\x7b\"schemes\": \x7b\"x\": \x7b\r\n\"root\": \"r\", ".toText ++
      "\"array_namespace\": \"i\",\r\n\"proxy_namespace\": \"é\", ".toText ++
      "\"alias_namespace\": \"g\", \"config_table\": \"t\",\r\n\"key_positions\": ".toText ++
      "\x7b\"q\": 3, \"p\": 0, \"q\": 4\x7d\x7d\x7d\x7d".toText
    let ones : Text := List.replicate 4301 (CodePoint.ofChar '1')
    let files : Files := ⟨[],
      [(["s".toText], .file 0), (["b".toText], .file 1), (["n".toText], .file 2)],
      [(0, Utf8.encode settings), (1, [0x7B, 0xE2, 0x82]), (2, Utf8.encode ones)], fun _ => none⟩
    let outcome := fun file : String =>
      (load files (Path.ofText "home".toText) (some (Path.ofText file.toText)) "x".toText).outcome
    (∃ s, outcome "s" = .ok s ∧ s.keyPositions = [("q".toText, 4), ("p".toText, 0)] ∧
        s.WellFormed ∧ ∃ data, Describes data s) ∧
      outcome "b" = .error (.undecodable ⟨1, [0xE2, 0x82], .truncated⟩) ∧
      outcome "n" = .error (.number (.tooManyDigits 4301)) := by
  intro settings ones files outcome
  have hload := fun file : String => outcome_load files (Path.ofText "home".toText)
    (some (Path.ofText file.toText)) "x".toText
  refine ⟨?_, ?_, ?_⟩
  · obtain ⟨s, houtcome, hpositions⟩ : ∃ s, outcome "s" = .ok s ∧
        s.keyPositions = [("q".toText, 4), ("p".toText, 0)] := by
      decide +kernel
    obtain ⟨-, hwell, _, data, -, -, hdescribes⟩ := (hload "s").1 s houtcome
    exact ⟨s, houtcome, hpositions, hwell, data, hdescribes⟩
  · have hread : files.read (Path.ofText "b".toText) = .ok [0x7B, 0xE2, 0x82] := by decide
    exact ((hload "b").2.1 _).mpr ⟨_, _, rfl, hread, .undecodable (by decide)⟩ |>.1
  · have hread : files.read (Path.ofText "n".toText) = .ok (Utf8.encode ones) := rfl
    have hdigits : ones.all CodePoint.isDigit = true := by
      rw [List.all_eq_true]
      intro c hc
      rw [List.eq_of_mem_replicate hc]
      decide
    have hfirst : ones.head? ≠ some (CodePoint.ofChar '0') := by
      rw [List.head?_replicate]
      decide
    have hlength : ones.length = 4301 := List.length_replicate
    have hescapes := (hload "n").2.2.2.2 ones hdigits hfirst (by rw [hlength]; decide)
    rw [hlength] at hescapes
    exact ((hload "n").2.1 _).mpr ⟨_, _, rfl, hread, hescapes⟩ |>.1

end Unproxy.Scheme
