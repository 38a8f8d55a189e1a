import Mathlib
import Unproxy.Files.Store
import Unproxy.Proofs.Value.Entries

/-!
# Unproxy.Proofs.Files.Store

What the operations on files leave alone.

Main definitions:

* `Files.bytesAt`, `Files.held`: the bytes under a full name, and at a path;
* `Files.Grows`: nothing that is there goes, and directories stay directories;
* `Files.Keeps`: moreover, files keep their names and their bytes, up to some names and one
  open file.

Main statements:

* `Files.Keeps.trans`, `Files.Keeps.bytesAt_eq`: operations one after the other, and what they
  mean for a file;
* `Files.locate_of_grows`: a path leads to the same name;
* `Files.keeps_makeDirectory`, `Files.keeps_ensurePath`: making directories touches no file;
* `Files.makeDirectory_again`: a directory that was made needs not be made again.
-/

namespace Unproxy.Files

/-! ### Numbers of files -/

theorem foldl_max_le_iff (ns : List Nat) (start bound : Nat) :
    ns.foldl max start ≤ bound ↔ start ≤ bound ∧ ∀ n ∈ ns, n ≤ bound := by
  induction ns generalizing start with
  | nil => simp
  | cons n ns ih =>
    rw [List.foldl_cons, ih, List.forall_mem_cons, max_le_iff, and_assoc]

theorem fresh_le_iff {f : Files} {bound : Nat} :
    f.fresh ≤ bound ↔
      (∀ pair ∈ f.entries, Entry.bound pair.2 ≤ bound) ∧ ∀ pair ∈ f.contents, pair.1 < bound := by
  simp only [fresh, foldl_max_le_iff, Nat.zero_le, true_and, List.forall_mem_append,
    List.forall_mem_map]
  rfl

theorem lt_fresh_of_mem_keys {f : Files} {id : Nat} (h : id ∈ f.contents.keys) : id < f.fresh := by
  obtain ⟨pair, hpair, rfl⟩ := List.mem_map.mp h
  exact (fresh_le_iff.mp (Nat.le_refl f.fresh)).2 pair hpair

theorem lt_fresh_of_entryAt {f : Files} {name : List Text} {id : Nat}
    (h : f.entryAt name = some (.file id)) : id < f.fresh := by
  unfold entryAt at h
  split at h
  · cases h
  · exact (fresh_le_iff.mp (Nat.le_refl f.fresh)).1 _ (Entries.mem_of_get? h)

/-- No more is numbered in `f` than in `g`. -/
theorem fresh_le_of_subset {f g : Files} (hentries : f.entries ⊆ g.entries)
    (hcontents : f.contents.keys ⊆ g.contents.keys) : f.fresh ≤ g.fresh := by
  refine fresh_le_iff.mpr ⟨fun pair hpair => ?_, fun pair hpair => ?_⟩
  · exact (fresh_le_iff.mp (Nat.le_refl g.fresh)).1 pair (hentries hpair)
  · exact lt_fresh_of_mem_keys (hcontents (List.mem_map_of_mem hpair))

/-! ### Bytes -/

theorem content_set_self (f : Files) (id : Nat) (bytes : Bytes) :
    content { f with contents := Entries.set id bytes f.contents } id = bytes := by
  rw [content, Entries.get?_set_self]
  rfl

theorem content_set_ne {f : Files} {id other : Nat} (h : other ≠ id) (bytes : Bytes) :
    content { f with contents := Entries.set id bytes f.contents } other = f.content other := by
  rw [content, Entries.get?_set_ne h, content]

/-! ### Names -/

/-- What a name stands for after some name was given an entry. -/
theorem entryAt_set {f : Files} {name : List Text} (hname : ¬name <+: f.current) (entry : Entry)
    (other : List Text) :
    entryAt { f with entries := Entries.set name entry f.entries } other =
      if other = name then some entry else f.entryAt other := by
  by_cases hother : other = name
  · subst hother
    rw [if_pos rfl, entryAt, if_neg fun h => hname (List.isPrefixOf_iff_prefix.mp h),
      Entries.get?_set_self]
  · rw [if_neg hother, entryAt, entryAt, Entries.get?_set_ne hother]

/-- A name that stands for no directory is not one of those above the current directory. -/
theorem ne_directory_of_entryAt {f : Files} {name : List Text} (h : f.entryAt name = none) :
    f.entryAt name ≠ some .directory := by
  simp [h]

theorem not_above_of_entryAt {f : Files} {name : List Text}
    (h : f.entryAt name ≠ some .directory) : ¬name <+: f.current :=
  fun hname => h (if_pos (List.isPrefixOf_iff_prefix.mpr hname))

theorem not_mem_keys_of_entryAt {f : Files} {name : List Text} (h : f.entryAt name = none) :
    name ∉ f.entries.keys := by
  have hname : ¬name <+: f.current := not_above_of_entryAt (ne_directory_of_entryAt h)
  rw [entryAt, if_neg fun h => hname (List.isPrefixOf_iff_prefix.mp h)] at h
  intro hmem
  obtain ⟨entry, hentry⟩ := Entries.exists_get?_of_mem_keys hmem
  rw [h] at hentry
  cases hentry

/-! ### What operations leave alone -/

/-- Nothing that is there in `f` is gone in `g`, and directories stay directories. -/
structure Grows (f g : Files) : Prop where
  current : g.current = f.current
  refusal : g.refusal = f.refusal
  directory : ∀ {name : List Text}, f.entryAt name = some .directory →
    g.entryAt name = some .directory
  there : ∀ {name : List Text}, (f.entryAt name).isSome = true → (g.entryAt name).isSome = true

/-- Moreover, every file keeps its names and its bytes. Names that are set `apart` may stand for
anything else, and the file with the number `log` may have other bytes. -/
structure Keeps (log : Option Nat) (apart : List (List Text)) (f g : Files) : Prop
    extends Grows f g where
  file : ∀ {name : List Text}, name ∉ apart →
    ∀ {id : Nat}, g.entryAt name = some (.file id) ↔ f.entryAt name = some (.file id)
  content : ∀ {id : Nat}, id < f.fresh → log ≠ some id → g.content id = f.content id
  fresh : f.fresh ≤ g.fresh

theorem Grows.refl (f : Files) : Grows f f := ⟨rfl, rfl, id, id⟩

theorem Grows.trans {f g h : Files} (hfg : Grows f g) (hgh : Grows g h) : Grows f h :=
  ⟨hgh.current.trans hfg.current, hgh.refusal.trans hfg.refusal,
    fun h => hgh.directory (hfg.directory h), fun h => hgh.there (hfg.there h)⟩

namespace Keeps

variable {log : Option Nat} {apart apart' : List (List Text)} {f g h : Files}

theorem refl (log : Option Nat) (apart : List (List Text)) (f : Files) : Keeps log apart f f :=
  ⟨.refl f, fun _ => Iff.rfl, fun _ _ => rfl, Nat.le_refl _⟩

theorem trans (hfg : Keeps log apart f g) (hgh : Keeps log apart' g h) :
    Keeps log (apart ++ apart') f h where
  toGrows := hfg.toGrows.trans hgh.toGrows
  file hname := by
    rw [List.mem_append, not_or] at hname
    exact (hgh.file hname.2).trans (hfg.file hname.1)
  content hid hlog := (hgh.content (hid.trans_le hfg.fresh) hlog).trans (hfg.content hid hlog)
  fresh := hfg.fresh.trans hgh.fresh

/-- What leaves every open file alone leaves all but one alone. -/
theorem of_none (hfg : Keeps none apart f g) (log : Option Nat) : Keeps log apart f g :=
  ⟨hfg.toGrows, hfg.file, fun hid _ => hfg.content hid (by simp), hfg.fresh⟩

end Keeps

/-- Giving a name to a directory where nothing was. -/
theorem keeps_setDirectory {f : Files} {name : List Text} (h : f.entryAt name = none) :
    Keeps none [] f { f with entries := Entries.set name .directory f.entries } := by
  have hname : ¬name <+: f.current := not_above_of_entryAt (ne_directory_of_entryAt h)
  have hentry := entryAt_set hname .directory
  have hne : ∀ {other : List Text} {entry : Entry}, f.entryAt other = some entry →
      other ≠ name := by
    rintro other entry hother rfl
    rw [h] at hother
    cases hother
  refine ⟨⟨rfl, rfl, fun hother => ?_, fun {other} hother => ?_⟩, fun {other} _ id => ?_,
    fun _ _ => rfl, ?_⟩
  · rw [hentry, if_neg (hne hother), hother]
  · rw [hentry]
    split
    · rfl
    · exact hother
  · rw [hentry]
    constructor
    · intro hother
      split at hother
      · cases hother
      · exact hother
    · intro hother
      rw [if_neg (hne hother), hother]
  · refine fresh_le_of_subset ?_ (List.Subset.refl _)
    rw [Entries.set_of_not_mem _ (not_mem_keys_of_entryAt h)]
    exact List.subset_append_left _ _

/-- Adding bytes to an open file, all or some of them. -/
theorem append_cases (f : Files) (id : Nat) (bytes : Bytes) :
    ((f.append id bytes).1 = .ok () ∧ (f.append id bytes).2 = f.extend id bytes) ∨
      ∃ cause some, (f.append id bytes).1 = .error cause ∧
        (f.append id bytes).2 = f.extend id some := by
  unfold append
  split
  · exact .inr ⟨_, _, rfl, rfl⟩
  · exact .inl ⟨rfl, rfl⟩

theorem keeps_extend (f : Files) (id : Nat) (bytes : Bytes) :
    Keeps (some id) [] f (f.extend id bytes) := by
  refine ⟨⟨rfl, rfl, fun h => h, fun h => h⟩, fun _ => Iff.rfl, fun _ hlog => ?_, ?_⟩
  · exact content_set_ne (fun h => hlog (by rw [h])) _
  · refine fresh_le_of_subset (List.Subset.refl _) fun k hk => ?_
    exact (Entries.mem_keys_set _).mpr (.inr hk)

theorem keeps_append (f : Files) (id : Nat) (bytes : Bytes) :
    Keeps (some id) [] f (f.append id bytes).2 := by
  rcases f.append_cases id bytes with ⟨-, h⟩ | ⟨_, _, -, h⟩ <;> exact h ▸ keeps_extend f id _

/-! ### Paths -/

theorem descend_append (f : Files) (name : List Text) (parts parts' : List Text) :
    f.descend name (parts ++ parts') =
      (f.descend name parts).bind fun name => f.descend name parts' := by
  induction parts generalizing name with
  | nil => rfl
  | cons part parts ih =>
    rw [List.cons_append, descend, descend]
    split
    · rfl
    · rfl
    · exact ih _

/-- One more part leads on from a directory. -/
theorem descend_singleton {f : Files} {name place : List Text} {part : Text} :
    f.descend name [part] = .ok place ↔ f.entryAt name = some .directory ∧
      place = if part = "..".toText then name.dropLast else name ++ [part] := by
  rw [descend]
  split
  · rename_i h
    simp [h]
  · rename_i h
    simp [h]
  · rename_i h
    simp only [descend, Except.ok.injEq, h, true_and]
    exact eq_comm

/-- A way leads on as long as directories stay directories. -/
theorem descend_of_directories {f g : Files}
    (h : ∀ {name : List Text}, f.entryAt name = some .directory →
      g.entryAt name = some .directory)
    {name place : List Text} {parts : List Text} (hplace : f.descend name parts = .ok place) :
    g.descend name parts = .ok place := by
  induction parts generalizing name with
  | nil => exact hplace
  | cons part parts ih =>
    rw [descend] at hplace ⊢
    split at hplace
    · cases hplace
    · cases hplace
    · rename_i hname
      rw [h hname]
      exact ih hplace

/-- A path leads to the same name as long as nothing goes. -/
theorem locate_of_grows {f g : Files} (h : Grows f g) {p : Path} {name : List Text}
    (hname : f.locate p = .ok name) : g.locate p = .ok name := by
  rw [locate, h.current]
  exact descend_of_directories h.directory hname

theorem Grows.absolute {f g : Files} (h : Grows f g) (p : Path) : g.absolute p = f.absolute p := by
  rw [Files.absolute, Files.absolute, h.current]

theorem find_eq_ok_iff {f : Files} {p : Path} {name : List Text} {entry : Option Entry} :
    f.find p = .ok (name, entry) ↔ f.locate p = .ok name ∧ f.entryAt name = entry := by
  rw [find]
  cases f.locate p with
  | error cause => simp [Except.map]
  | ok place =>
    simp only [Except.map, Except.ok.injEq, Prod.mk.injEq]
    constructor
    · rintro ⟨rfl, h⟩
      exact ⟨rfl, h⟩
    · rintro ⟨rfl, h⟩
      exact ⟨rfl, h⟩

theorem isDirectory_iff {f : Files} {p : Path} :
    f.isDirectory p = true ↔ ∃ name, f.find p = .ok (name, some .directory) := by
  rw [isDirectory]
  split
  · rename_i name h
    exact ⟨fun _ => ⟨name, h⟩, fun _ => rfl⟩
  · rename_i h
    simp only [Bool.false_eq_true, false_iff, not_exists]
    exact h

theorem isThere_iff {f : Files} {p : Path} :
    f.isThere p = true ↔ ∃ name entry, f.find p = .ok (name, some entry) := by
  rw [isThere]
  split
  · rename_i name entry h
    exact ⟨fun _ => ⟨name, entry, h⟩, fun _ => rfl⟩
  · rename_i h
    simp only [Bool.false_eq_true, false_iff, not_exists]
    exact h

theorem Grows.isDirectory {f g : Files} (h : Grows f g) {p : Path} (hp : f.isDirectory p = true) :
    g.isDirectory p = true := by
  obtain ⟨name, hfind⟩ := isDirectory_iff.mp hp
  obtain ⟨hlocate, hentry⟩ := find_eq_ok_iff.mp hfind
  exact isDirectory_iff.mpr
    ⟨name, find_eq_ok_iff.mpr ⟨locate_of_grows h hlocate, h.directory hentry⟩⟩

theorem Grows.isThere {f g : Files} (h : Grows f g) {p : Path} (hp : f.isThere p = true) :
    g.isThere p = true := by
  obtain ⟨name, entry, hfind⟩ := isThere_iff.mp hp
  obtain ⟨hlocate, hentry⟩ := find_eq_ok_iff.mp hfind
  have hthere : (g.entryAt name).isSome = true := h.there (by rw [hentry]; rfl)
  obtain ⟨entry', hentry'⟩ := Option.isSome_iff_exists.mp hthere
  exact isThere_iff.mpr
    ⟨name, entry', find_eq_ok_iff.mpr ⟨locate_of_grows h hlocate, hentry'⟩⟩

/-! ### Making directories -/

theorem keeps_makeOne {f g : Files} {p : Path} (h : f.makeOne p = .ok g) :
    Keeps none [] f g ∧ g.isDirectory p = true := by
  unfold makeOne at h
  split at h
  · cases h
  · cases h
  · rename_i name hfind
    split at h
    · cases h
    · cases h
      obtain ⟨hlocate, hnone⟩ := find_eq_ok_iff.mp hfind
      have hkeeps := keeps_setDirectory hnone
      refine ⟨hkeeps, isDirectory_iff.mpr ⟨name, find_eq_ok_iff.mpr ⟨?_, ?_⟩⟩⟩
      · exact locate_of_grows hkeeps.toGrows hlocate
      · rw [entryAt_set (not_above_of_entryAt (ne_directory_of_entryAt hnone)), if_pos rfl]

theorem keeps_ensureOne {f g : Files} {p : Path} (h : f.ensureOne p = .ok g) :
    Keeps none [] f g ∧ g.isDirectory p = true := by
  unfold ensureOne at h
  split at h
  · rename_i hmade
    cases h
    exact keeps_makeOne hmade
  · split at h
    · rename_i hdirectory
      cases h
      exact ⟨.refl _ _ _, hdirectory⟩
    · cases h

/-- What is a directory already is left alone. -/
theorem ensureOne_of_isDirectory {f : Files} {p : Path} (h : f.isDirectory p = true) :
    f.ensureOne p = .ok f := by
  obtain ⟨name, hfind⟩ := isDirectory_iff.mp h
  have hmade : f.makeOne p = .error ⟨.exists, p.toText, none⟩ := by
    rw [makeOne, hfind]
  rw [ensureOne, hmade]
  exact if_pos h

theorem keeps_ensureBelow {f g : Files} {base : Path} {parts : List Text}
    (h : f.ensureBelow base parts = .ok g) : Keeps none [] f g := by
  induction parts generalizing f base with
  | nil =>
    cases h
    exact .refl _ _ _
  | cons part parts ih =>
    rw [ensureBelow] at h
    split at h
    · exact ih h
    · split at h
      · cases h
      · rename_i hensured
        exact (keeps_ensureOne hensured).1.trans (ih h)

theorem keeps_makeDirectory {f g : Files} {p : Path} (h : f.makeDirectory p = .ok g) :
    Keeps none [] f g := by
  unfold makeDirectory at h
  split at h
  · cases h
    exact .refl _ _ _
  · exact keeps_ensureBelow h

theorem ensureBelow_again {f g h : Files} {base : Path} {parts : List Text}
    (hmade : f.ensureBelow base parts = .ok g) (hgrows : Grows g h) :
    h.ensureBelow base parts = .ok h := by
  induction parts generalizing f base with
  | nil => rfl
  | cons part parts ih =>
    rw [ensureBelow] at hmade ⊢
    split at hmade
    · -- The directory was there, and so it is now.
      rename_i hthere
      rw [Bool.and_eq_true] at hthere
      have hkept := (keeps_ensureBelow hmade).toGrows.trans hgrows
      rw [if_pos (by rw [Bool.and_eq_true]; exact ⟨hkept.isThere hthere.1, hthere.2⟩)]
      exact ih hmade
    · split at hmade
      · cases hmade
      · rename_i hensured
        have hkept := (keeps_ensureBelow hmade).toGrows.trans hgrows
        have hdirectory := hkept.isDirectory (keeps_ensureOne hensured).2
        split
        · exact ih hmade
        · rw [ensureOne_of_isDirectory hdirectory]
          exact ih hmade

/-- A directory that was made needs not be made again, as long as nothing goes. -/
theorem makeDirectory_again {f g h : Files} {p : Path} (hmade : f.makeDirectory p = .ok g)
    (hgrows : Grows g h) : h.makeDirectory p = .ok h := by
  unfold makeDirectory at hmade ⊢
  split at hmade
  · rw [if_pos ‹_›]
  · rw [if_neg ‹_›]
    exact ensureBelow_again hmade hgrows

end Unproxy.Files
