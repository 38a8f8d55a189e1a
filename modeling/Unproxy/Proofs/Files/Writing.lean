import Mathlib
import Unproxy.Files.Text
import Unproxy.Proofs.Files.Store
import Unproxy.Proofs.Text.Utf8

/-!
# Unproxy.Proofs.Files.Writing

Writing a text: it goes to a temporary file first, which takes the place of the target or is
taken away again. Either the target holds the text, or no file has changed. The temporary file is
left only if the system refuses to take it away.

Main definitions:

* `Files.Obliging`, `Files.Removes`: the system refuses nothing, or no removal;
* `Files.IsTemporary`, `Files.Spares`: no file is touched, up to a temporary one that is left;
* `Files.Holds`: a path leads to a file with some bytes, and not to the log.

Main statements:

* `Files.keeps_openEmpty`: opening a file touches no other;
* `Files.entryAt_temporary`: the name of a temporary file is new;
* `Files.spares_discard`: what taking it away does;
* `Files.writeText_cases`: what writing a text does to the files;
* `Files.writeText_again`: what was written once can be written again;
* `Files.holds_of_writeText`, `Files.Holds.keeps`: what was written stays.
-/

namespace Unproxy.Files

variable {f g h : Files} {p : Path} {t : Text} {name place : List Text} {id : Nat} {bytes : Bytes}

/-! ### A file that is new -/

/-- The files with a new one, under a full name. -/
def withFile (f : Files) (name : List Text) (id : Nat) (bytes : Bytes) : Files :=
  { f with
    entries := Entries.set name (.file id) f.entries
    contents := Entries.set id bytes f.contents }

/-- The files with a new one that has no name. -/
def withNameless (f : Files) (id : Nat) (bytes : Bytes) : Files :=
  { f with contents := Entries.set id bytes f.contents }

theorem fresh_le_withNameless (f : Files) (id : Nat) (bytes : Bytes) :
    f.fresh ≤ (f.withNameless id bytes).fresh :=
  fresh_le_of_subset (List.Subset.refl _) fun _ hk => (Entries.mem_keys_set _).mpr (.inr hk)

/-- A file without a name touches no other. -/
theorem keeps_withNameless (f : Files) (bytes : Bytes) :
    Keeps none [] f (f.withNameless f.fresh bytes) :=
  ⟨⟨rfl, rfl, fun h => h, fun h => h⟩, fun _ => Iff.rfl,
    fun hid _ => content_set_ne (Nat.ne_of_lt hid) bytes, fresh_le_withNameless f _ _⟩

theorem content_withFile (f : Files) (name : List Text) (id : Nat) (bytes : Bytes) :
    (f.withFile name id bytes).content id = bytes :=
  content_set_self { f with entries := Entries.set name (.file id) f.entries } id bytes

theorem entryAt_withFile (hname : f.entryAt name ≠ some .directory) (other : List Text) :
    (f.withFile name id bytes).entryAt other =
      if other = name then some (.file id) else f.entryAt other :=
  entryAt_set (not_above_of_entryAt hname) (.file id) other

/-- A new file touches no other but the one whose name it takes. -/
theorem keeps_withFile (hname : f.entryAt name ≠ some .directory) (bytes : Bytes) :
    Keeps none [name] f (f.withFile name f.fresh bytes) := by
  have hentry : ∀ other, (f.withFile name f.fresh bytes).entryAt other =
      if other = name then some (.file f.fresh) else f.entryAt other := entryAt_withFile hname
  refine ⟨⟨rfl, rfl, fun {other} hother => ?_, fun {other} hother => ?_⟩,
    fun {other} hother id => ?_, fun hid _ => content_set_ne (Nat.ne_of_lt hid) bytes, ?_⟩
  · rw [hentry, if_neg (by rintro rfl; exact hname hother), hother]
  · rw [hentry]
    split
    · rfl
    · exact hother
  · rw [hentry, if_neg (by simpa using hother)]
  · -- The number of the new file stands above all numbers there were.
    have hmem : f.fresh ∈ (f.withFile name f.fresh bytes).contents.keys :=
      (Entries.mem_keys_set _).mpr (.inl rfl)
    exact (lt_fresh_of_mem_keys hmem).le

/-- Opening a file empties it or makes a new one. -/
theorem openEmpty_cases (h : f.openEmpty p = .ok (id, g)) :
    (∃ place, f.find p = .ok (place, some (.file id)) ∧ g = f.withNameless id []) ∨
      ∃ place, f.find p = .ok (place, none) ∧ id = f.fresh ∧ g = f.withFile place f.fresh [] := by
  unfold openEmpty at h
  split at h
  · cases h
  · cases h
  · rename_i place entry hdirectory hfind
    cases hrefusal : f.refusal (.openEmpty place) with
    | some refusal =>
      rw [hrefusal] at h
      cases h
    | none =>
      rw [hrefusal] at h
      cases entry with
      | none =>
        cases h
        exact .inr ⟨place, hfind, rfl, rfl⟩
      | some entry =>
        cases entry with
        | directory => exact absurd rfl hdirectory
        | file id' =>
          cases h
          exact .inl ⟨place, hfind, rfl⟩

theorem length_lt_temporaryPart {part : Text}
    (h : part ∈ f.current ∨ ∃ name ∈ f.entries.keys, part ∈ name) :
    part.length < f.temporaryPart.length := by
  have hmem : part ∈ f.current ++ f.entries.flatMap Prod.fst := by
    rcases h with h | ⟨name, hname, h⟩
    · exact List.mem_append_left _ h
    · obtain ⟨pair, hpair, rfl⟩ := List.mem_map.mp hname
      exact List.mem_append_right _ (List.mem_flatMap.mpr ⟨pair, hpair, h⟩)
  have hle := ((foldl_max_le_iff ((f.current ++ f.entries.flatMap Prod.fst).map List.length) 0 _).mp
    (Nat.le_refl _)).2 _ (List.mem_map_of_mem hmem)
  have hfixed : 0 < ".tmp-".toText.length := by decide
  simp only [temporaryPart, List.length_append, List.length_replicate]
  omega

theorem temporaryPart_ne_points (f : Files) : f.temporaryPart ≠ "..".toText := by
  intro h
  have hlength := congrArg List.length h
  have hfixed : ".tmp-".toText.length = 5 ∧ "..".toText.length = 2 := by decide
  simp only [temporaryPart, List.length_append, hfixed] at hlength
  omega

/-- The name of a temporary file is new. -/
theorem entryAt_temporary (f : Files) (directory : List Text) :
    f.entryAt (directory ++ [f.temporaryPart]) = none := by
  unfold entryAt
  split
  · rename_i h
    have hmem := (List.isPrefixOf_iff_prefix.mp h).subset
      (List.mem_append_right directory (List.mem_singleton_self f.temporaryPart))
    exact absurd (length_lt_temporaryPart (.inl hmem)) (Nat.lt_irrefl _)
  · rw [Option.eq_none_iff_forall_ne_some]
    intro entry hentry
    have hpart := List.mem_append_right directory (List.mem_singleton_self f.temporaryPart)
    exact absurd
      (length_lt_temporaryPart (.inr ⟨_, Entries.mem_keys_of_get? hentry, hpart⟩))
      (Nat.lt_irrefl _)

/-- The place of a temporary file is in the directory of the file next to it. -/
theorem locate_temporary :
    f.locate (f.temporaryFor p) = .ok place ↔
      ∃ directory, f.locate p.parent = .ok directory ∧
        f.entryAt directory = some .directory ∧ place = directory ++ [f.temporaryPart] := by
  have hsplit : f.locate (f.temporaryFor p) =
      (f.locate p.parent).bind fun name => f.descend name [f.temporaryPart] :=
    descend_append f _ _ _
  rw [hsplit]
  cases f.locate p.parent with
  | error cause => simp [Except.bind]
  | ok directory =>
    simp only [Except.bind, descend_singleton, if_neg (temporaryPart_ne_points f),
      Except.ok.injEq, exists_eq_left']

theorem entryAt_of_locate_temporary (h : f.locate (f.temporaryFor p) = .ok place) :
    f.entryAt place = none := by
  obtain ⟨directory, -, -, rfl⟩ := locate_temporary.mp h
  exact entryAt_temporary f directory

/-- A file can be made next to one that can be reached. -/
theorem exists_locate_temporary (hp : p.parts ≠ []) (h : f.locate p = .ok name) :
    ∃ place, f.locate (f.temporaryFor p) = .ok place := by
  have hsplit : f.locate p =
      (f.locate p.parent).bind fun name => f.descend name [p.parts.getLast hp] := by
    have happend := descend_append f (if p.root.isEmpty then f.current else []) p.parts.dropLast
      [p.parts.getLast hp]
    rwa [List.dropLast_append_getLast] at happend
  rw [hsplit] at h
  cases hparent : f.locate p.parent with
  | error cause =>
    rw [hparent] at h
    cases h
  | ok directory =>
    rw [hparent] at h
    exact ⟨_, locate_temporary.mpr ⟨directory, hparent, (descend_singleton.mp h).1, rfl⟩⟩

/-- Opening a temporary file makes a new one. -/
theorem openEmpty_temporary (h : f.openEmpty (f.temporaryFor p) = .ok (id, g)) :
    ∃ place, f.locate (f.temporaryFor p) = .ok place ∧ f.entryAt place = none ∧ id = f.fresh ∧
      g = f.withFile place f.fresh [] := by
  rcases openEmpty_cases h with ⟨place, hfind, -⟩ | ⟨place, hfind, rfl, rfl⟩
  · obtain ⟨hlocate, hentry⟩ := find_eq_ok_iff.mp hfind
    rw [entryAt_of_locate_temporary hlocate] at hentry
    cases hentry
  · obtain ⟨hlocate, hnone⟩ := find_eq_ok_iff.mp hfind
    exact ⟨place, hlocate, hnone, rfl, rfl⟩

/-! ### Refusals -/

/-- The system refuses nothing. -/
def Obliging (f : Files) : Prop := ∀ operation, f.refusal operation = none

/-- The system lets every file be taken away. -/
def Removes (f : Files) : Prop := ∀ name, f.refusal (.unlink name) = none

/-- A name for a temporary file, where there is nothing. -/
def IsTemporary (f : Files) (name : List Text) : Prop :=
  f.entryAt name = none ∧ ∃ directory filling,
    name = directory ++ [".tmp-".toText ++ filling ++ ".partial".toText]

/-- No file is touched, and none is made but for a temporary one. That is left only on a system
that refuses to take some file away. -/
def Spares (log : Option Nat) (f g : Files) : Prop :=
  ∃ left : Option (List Text), (f.Removes → left = none) ∧ (∀ name ∈ left, f.IsTemporary name) ∧
    Keeps log left.toList f g

theorem Removes.of_grows (hgrows : Grows f g) (h : f.Removes) : g.Removes := by
  rwa [Removes, hgrows.refusal]

theorem IsTemporary.of_grows (hgrows : Grows f g) (h : g.IsTemporary name) :
    f.IsTemporary name := by
  refine ⟨Option.not_isSome_iff_eq_none.mp fun hsome => ?_, h.2⟩
  exact absurd (hgrows.there hsome) (by simp [h.1])

section

variable {log : Option Nat}

theorem Keeps.spares (h : Keeps log [] f g) : Spares log f g :=
  ⟨none, fun _ => rfl, fun _ h => absurd h (by simp), h⟩

theorem Spares.of_none (h : Spares none f g) (log : Option Nat) : Spares log f g := by
  obtain ⟨left, hremoves, htemporary, hkeeps⟩ := h
  exact ⟨left, hremoves, htemporary, hkeeps.of_none log⟩

theorem Keeps.trans_spares (hfg : Keeps log [] f g) (hgh : Spares log g h) : Spares log f h := by
  obtain ⟨left, hremoves, htemporary, hkeeps⟩ := hgh
  exact ⟨left, fun h => hremoves (h.of_grows hfg.toGrows),
    fun name hname => (htemporary name hname).of_grows hfg.toGrows, hfg.trans hkeeps⟩

end

/-! ### Steps of writing -/

/-- Filling a file that is new. -/
theorem fill_withFile (f : Files) (place : List Text) (id : Nat) (t : Text) :
    (∃ error bytes,
        (f.withFile place id []).fill id t = (.error error, f.withFile place id bytes)) ∨
      (Utf8.Encodable t ∧
        (f.withFile place id []).fill id t = (.ok (), f.withFile place id (Utf8.encode t))) := by
  have hextend : ∀ bytes, (f.withFile place id []).extend id bytes = f.withFile place id bytes := by
    intro bytes
    rw [extend, content_withFile, List.nil_append]
    simp only [withFile, Entries.set_set]
  unfold fill
  split
  · exact .inl ⟨_, [], rfl⟩
  · rename_i hcheck
    rcases (f.withFile place id []).append_cases id (Utf8.encode t) with
      ⟨hok, hfiles⟩ | ⟨cause, some, hcause, hfiles⟩
    · exact .inr ⟨Utf8.checkEncodable_eq_ok_iff.mp hcheck,
        Prod.ext (congrArg (Except.mapError WriteError.brokenOff) hok) (hfiles.trans (hextend _))⟩
    · exact .inl ⟨.brokenOff cause, some, Prod.ext
        (congrArg (Except.mapError WriteError.brokenOff) hcause) (hfiles.trans (hextend _))⟩

section

variable (hlocate : f.locate p = .ok place) (hnone : f.entryAt place = none)

include hlocate hnone

/-- A new file is found where it was made. -/
theorem find_withFile (bytes : Bytes) :
    (f.withFile place f.fresh bytes).find p = .ok (place, some (.file f.fresh)) := by
  have hname : f.entryAt place ≠ some .directory := ne_directory_of_entryAt hnone
  refine find_eq_ok_iff.mpr ⟨locate_of_grows (keeps_withFile hname bytes).toGrows hlocate, ?_⟩
  rw [entryAt_withFile hname, if_pos rfl]

/-- A new file that takes another name. -/
theorem rename_withFile {new : Path}
    (h : (f.withFile place f.fresh bytes).rename p new = .ok g) :
    endsInPoints new = false ∧ ∃ name, f.entryAt name ≠ some .directory ∧
      g = f.withFile name f.fresh bytes ∧ g.find new = .ok (name, some (.file f.fresh)) := by
  have hplace : f.entryAt place ≠ some .directory := ne_directory_of_entryAt hnone
  have hentry : ∀ other, (f.withFile place f.fresh bytes).entryAt other =
      if other = place then some (.file f.fresh) else f.entryAt other := entryAt_withFile hplace
  unfold rename at h
  simp only [find_withFile hlocate hnone] at h
  split at h
  · cases h
  · rename_i hends
    split at h
    · cases h
    · cases h
    · rename_i name entry hdirectory hfind
      split at h
      · cases h
      obtain ⟨hnew, rfl⟩ := find_eq_ok_iff.mp hfind
      have hname : f.entryAt name ≠ some .directory := by
        intro hname
        refine hdirectory ?_
        rw [hentry, if_neg (by rintro rfl; exact hplace hname), hname]
      have hg : g = f.withFile name f.fresh bytes := by
        cases h
        simp only [withFile, Entries.without_set_of_not_mem _ (not_mem_keys_of_entryAt hnone)]
      refine ⟨by simpa using hends, name, hname, hg, ?_⟩
      rw [hg]
      refine find_eq_ok_iff.mpr ⟨?_, by rw [entryAt_withFile hname, if_pos rfl]⟩
      -- A directory on the way is neither the temporary file nor the target.
      refine descend_of_directories (fun {other} hother => ?_) hnew
      rw [hentry] at hother
      split at hother
      · cases hother
      · rw [entryAt_withFile hname, if_neg (by rintro rfl; exact hname hother), hother]

end

/-- A temporary file that is taken away again leaves all as it was; it stays if the system refuses
to take it away. -/
theorem spares_discard (hlocate : f.locate (f.temporaryFor p) = .ok place) (bytes : Bytes)
    (error : WriteError) :
    let result := (f.withFile place f.fresh bytes).discard (f.temporaryFor p) error
    ∃ error, result.1 = .error error ∧ Spares none f result.2 := by
  intro result
  have hresult : result = (f.withFile place f.fresh bytes).discard (f.temporaryFor p) error := rfl
  have hnone := entryAt_of_locate_temporary hlocate
  unfold discard unlink at hresult
  simp only [find_withFile hlocate hnone] at hresult
  cases hrefusal : (f.withFile place f.fresh bytes).refusal (.unlink place) with
  | some refusal =>
    simp only [hrefusal] at hresult
    refine ⟨_, by rw [hresult], some place, fun hremoves => ?_, fun name hname => ?_, ?_⟩
    · exact absurd (hrefusal.symm.trans (hremoves place)) (by simp)
    · obtain rfl := Option.some.inj hname
      obtain ⟨directory, -, -, rfl⟩ := locate_temporary.mp hlocate
      exact ⟨hnone, directory, _, rfl⟩
    · rw [hresult]
      exact keeps_withFile (ne_directory_of_entryAt hnone) bytes
  | none =>
    simp only [hrefusal] at hresult
    have hfiles : result.2 = f.withNameless f.fresh bytes := by
      rw [hresult]
      simp only [withFile, withNameless,
        Entries.without_set_of_not_mem _ (not_mem_keys_of_entryAt hnone)]
    exact ⟨error, by rw [hresult], hfiles ▸ (keeps_withNameless f bytes).spares⟩

/-! ### Writing -/

/-- What writing through a temporary file does: the target holds the text, or no file has
changed. -/
theorem writeThrough_cases (f : Files) (p : Path) (t : Text) :
    let result := f.writeThrough (f.temporaryFor p) p t
    (∃ error, result.1 = .error error ∧ Spares none f result.2) ∨
      (result.1 = .ok () ∧ Utf8.Encodable t ∧ endsInPoints p = false ∧
        ∃ name, result.2.find p = .ok (name, some (.file f.fresh)) ∧
          result.2.content f.fresh = Utf8.encode t ∧ Keeps none [name] f result.2) := by
  intro result
  have hresult : result = f.writeThrough (f.temporaryFor p) p t := rfl
  unfold writeThrough at hresult
  split at hresult
  · rw [hresult]
    exact .inl ⟨_, rfl, (Keeps.refl _ _ _).spares⟩
  · rename_i id f₁ hopen
    obtain ⟨place, hlocate, hnone, rfl, rfl⟩ := openEmpty_temporary hopen
    rcases f.fill_withFile place f.fresh t with ⟨error, bytes, hfill⟩ | ⟨hencodable, hfill⟩
    · simp only [hfill] at hresult
      rw [hresult]
      exact .inl (spares_discard hlocate bytes error)
    · simp only [hfill] at hresult
      split at hresult
      · rw [hresult]
        exact .inl (spares_discard hlocate _ _)
      · rename_i f₃ hrename
        obtain ⟨hends, name, hname, rfl, hfind⟩ := rename_withFile hlocate hnone hrename
        rw [hresult]
        exact .inr ⟨rfl, hencodable, hends, name, hfind, content_withFile _ _ _ _,
          keeps_withFile hname _⟩

/-- A text can be written in place of a file on a system that refuses nothing. -/
theorem writeThrough_eq_ok (hobliging : f.Obliging) (hencodable : Utf8.Encodable t)
    (hends : endsInPoints p = false) (hfind : f.find p = .ok (name, some (.file id))) :
    (f.writeThrough (f.temporaryFor p) p t).1 = .ok () := by
  obtain ⟨hlocate, hentry⟩ := find_eq_ok_iff.mp hfind
  have hparts : p.parts ≠ [] := by
    intro hparts
    rw [endsInPoints, hparts] at hends
    cases hends
  obtain ⟨place, hplace⟩ := exists_locate_temporary hparts hlocate
  have hnone := entryAt_of_locate_temporary hplace
  have hopen : f.openEmpty (f.temporaryFor p) = .ok (f.fresh, f.withFile place f.fresh []) := by
    rw [openEmpty, find_eq_ok_iff.mpr ⟨hplace, hnone⟩]
    simp only [hobliging (.openEmpty place)]
    rfl
  have hdirectory : f.entryAt place ≠ some .directory := ne_directory_of_entryAt hnone
  have htarget : (f.withFile place f.fresh (Utf8.encode t)).find p =
      .ok (name, some (.file id)) := by
    refine find_eq_ok_iff.mpr ⟨locate_of_grows (keeps_withFile hdirectory _).toGrows hlocate, ?_⟩
    rw [entryAt_withFile hdirectory, if_neg (by rintro rfl; rw [hnone] at hentry; cases hentry),
      hentry]
  have happend : (f.withFile place f.fresh []).refusal (.append f.fresh (Utf8.encode t)) = none :=
    hobliging _
  have hrename : (f.withFile place f.fresh (Utf8.encode t)).refusal (.rename place name) = none :=
    hobliging _
  rcases f.fill_withFile place f.fresh t with ⟨error, bytes, hfill⟩ | ⟨-, hfill⟩
  · rw [fill, Utf8.checkEncodable_eq_ok_iff.mpr hencodable, append, happend] at hfill
    cases congrArg Prod.fst hfill
  · rw [writeThrough, hopen]
    simp only [hfill]
    rw [rename, find_withFile hplace hnone]
    simp only [hends, htarget, hrename, Bool.false_eq_true, if_false]

/-- What writing a text does: the target holds the text, or no file has changed. -/
theorem writeText_cases (f : Files) (p : Path) (t : Text) :
    let result := f.writeText p t
    (∃ error, result.1 = .error error ∧ Spares none f result.2) ∨
      (result.1 = .ok () ∧
        ∃ name id, result.2.find p = .ok (name, some (.file id)) ∧ f.fresh ≤ id ∧
          result.2.content id = Utf8.encode t ∧ Keeps none [name] f result.2) := by
  intro result
  have hresult : result = f.writeText p t := rfl
  unfold writeText at hresult
  split at hresult
  · rw [hresult]
    exact .inl ⟨_, rfl, (Keeps.refl _ _ _).spares⟩
  · rename_i f₁ hmade
    have hkeeps := keeps_makeDirectory hmade
    rw [hresult]
    rcases writeThrough_cases f₁ p t with ⟨error, herror, h⟩ | ⟨hok, -, -, name, hfind, hcontent, h⟩
    · exact .inl ⟨error, herror, hkeeps.trans_spares h⟩
    · exact .inr ⟨hok, name, f₁.fresh, hfind, hkeeps.fresh, hcontent, hkeeps.trans h⟩

/-- A path leads to a name, of a file with these bytes that is not the log. -/
def Holds (log : Option Nat) (f : Files) (p : Path) (name : List Text) (bytes : Bytes) : Prop :=
  ∃ id, f.find p = .ok (name, some (.file id)) ∧ f.content id = bytes ∧ log ≠ some id

theorem Holds.locate {log : Option Nat} (h : Holds log f p name bytes) : f.locate p = .ok name := by
  obtain ⟨id, hfind, -, -⟩ := h
  exact (find_eq_ok_iff.mp hfind).1

/-- What a path holds stays where its name is not set apart. -/
theorem Holds.keeps {log : Option Nat} {apart : List (List Text)} (h : Holds log f p name bytes)
    (hkeeps : Keeps log apart f g) (hname : name ∉ apart) : Holds log g p name bytes := by
  obtain ⟨id, hfind, hcontent, hlog⟩ := h
  obtain ⟨hlocate, hentry⟩ := find_eq_ok_iff.mp hfind
  refine ⟨id, ?_, ?_, hlog⟩
  · exact find_eq_ok_iff.mpr
      ⟨locate_of_grows hkeeps.toGrows hlocate, (hkeeps.file hname).mpr hentry⟩
  · rw [hkeeps.content (lt_fresh_of_entryAt hentry) hlog, hcontent]

/-- A text that was written is there, whatever the log is. -/
theorem holds_of_writeText {log : Option Nat} (hlog : ∀ id, log = some id → id < f.fresh)
    (hok : (f.writeText p t).1 = .ok ()) :
    ∃ name, Holds log (f.writeText p t).2 p name (Utf8.encode t) ∧
      Keeps log [name] f (f.writeText p t).2 := by
  rcases f.writeText_cases p t with ⟨error, herror, -⟩ | ⟨-, name, id, hfind, hid, hcontent, hkeeps⟩
  · rw [herror] at hok
    cases hok
  · refine ⟨name, ⟨id, hfind, hcontent, fun h => ?_⟩, hkeeps.of_none log⟩
    exact absurd (hlog id h) (Nat.not_lt.mpr hid)

/-- A text that was written to a path can be written there again, if the system refuses nothing. -/
theorem writeText_again {log : Option Nat} (hok : (f.writeText p t).1 = .ok ())
    (hkeeps : Keeps log [] (f.writeText p t).2 g) (hobliging : g.Obliging) :
    (g.writeText p t).1 = .ok () := by
  unfold writeText at hok hkeeps
  split at hok
  · cases hok
  · rename_i f₁ hmade
    rcases writeThrough_cases f₁ p t with
      ⟨error, herror, -⟩ | ⟨-, hencodable, hends, name, hfind, -, hwritten⟩
    · rw [herror] at hok
      cases hok
    · rw [hmade] at hkeeps
      have hagain := makeDirectory_again hmade (hwritten.toGrows.trans hkeeps.toGrows)
      obtain ⟨hlocate, hentry⟩ := find_eq_ok_iff.mp hfind
      rw [writeText, hagain]
      exact writeThrough_eq_ok hobliging hencodable hends (find_eq_ok_iff.mpr
        ⟨locate_of_grows hkeeps.toGrows hlocate, (hkeeps.file List.not_mem_nil).mpr hentry⟩)

end Unproxy.Files
