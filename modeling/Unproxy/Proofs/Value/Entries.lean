import Mathlib
import Unproxy.Value.Basic

/-!
# Unproxy.Proofs.Value.Entries

Pairs in the order in which their keys were first set.

Main definitions:

* `Entries.restrict`: the pairs whose keys are picked;
* `Entries.setAll`: one key after the other is set.

Main statements:

* `Entries.set_of_not_mem`: a key that is new goes to the end;
* `Entries.get?_set_self`, `Entries.get?_set_ne`: what is found after a key is set;
* `Entries.nodup_keys_set`, `Entries.mem_keys_set`: the keys after a key is set;
* `Entries.restrict_set_of_picked`, `Entries.restrict_set_of_not_picked`: the picked keys
  after a key is set;
* `Entries.without_set_of_not_mem`: taking a key away undoes setting it;
* `Entries.get?_setAll`, `Entries.without_setAll`: what is found and what is left after keys are set
  one after the other;
* `Value.ofPairs_of_nodup`: pairs with different names are an object as they are.
-/

namespace Unproxy

namespace Entries

variable {κ α : Type}

theorem keys_cons (k : κ) (e : α) (rest : Entries κ α) :
    keys ((k, e) :: rest) = k :: keys rest := rfl

theorem keys_append (xs ys : Entries κ α) : keys (xs ++ ys) = keys xs ++ keys ys :=
  List.map_append

/-- The pairs whose keys are picked. -/
def restrict (picked : κ → Bool) (entries : Entries κ α) : Entries κ α :=
  entries.filter fun entry => picked entry.1

theorem restrict_cons (picked : κ → Bool) (k : κ) (e : α) (rest : Entries κ α) :
    restrict picked ((k, e) :: rest) =
      if picked k then (k, e) :: restrict picked rest else restrict picked rest :=
  List.filter_cons

section

variable [BEq κ]

theorem get?_cons (k : κ) (e : α) (rest : Entries κ α) (key : κ) :
    get? key ((k, e) :: rest) = if k == key then some e else get? key rest := rfl

theorem set_cons (k : κ) (e : α) (rest : Entries κ α) (key : κ) (entry : α) :
    set key entry ((k, e) :: rest) =
      if k == key then (k, entry) :: rest else (k, e) :: set key entry rest := rfl

end

/-! ### Setting a key -/

variable [BEq κ] [LawfulBEq κ]

/-- A key that is new goes to the end. -/
theorem set_of_not_mem {key : κ} {entries : Entries κ α} (entry : α) (h : key ∉ entries.keys) :
    set key entry entries = entries ++ [(key, entry)] := by
  induction entries with
  | nil => rfl
  | cons pair rest ih =>
    obtain ⟨k, e⟩ := pair
    rw [keys_cons, List.mem_cons, not_or] at h
    have hne : (k == key) = false := by
      rw [beq_eq_false_iff_ne]
      exact fun heq => h.1 heq.symm
    rw [set_cons, hne, ih h.2]
    rfl

/-- Setting a key that is there changes no key. -/
theorem keys_set_of_mem {key : κ} {entries : Entries κ α} (entry : α) (h : key ∈ entries.keys) :
    (set key entry entries).keys = entries.keys := by
  induction entries with
  | nil => cases h
  | cons pair rest ih =>
    obtain ⟨k, e⟩ := pair
    rw [set_cons]
    split
    · rfl
    · rename_i hne
      rw [keys_cons, List.mem_cons] at h
      have hrest : key ∈ keys rest := by
        rcases h with rfl | h
        · exact absurd BEq.rfl hne
        · exact h
      rw [keys_cons, keys_cons, ih hrest]

theorem mem_keys_set {key k : κ} {entries : Entries κ α} (entry : α) :
    k ∈ (set key entry entries).keys ↔ k = key ∨ k ∈ entries.keys := by
  by_cases h : key ∈ entries.keys
  · rw [keys_set_of_mem entry h]
    constructor
    · exact .inr
    · rintro (rfl | hk)
      · exact h
      · exact hk
  · rw [set_of_not_mem entry h, keys_append, List.mem_append]
    constructor
    · rintro (hk | hk)
      · exact .inr hk
      · exact .inl (List.mem_singleton.mp hk)
    · rintro (rfl | hk)
      · exact .inr (List.mem_singleton.mpr rfl)
      · exact .inl hk

theorem nodup_keys_set {key : κ} {entries : Entries κ α} (entry : α) (h : entries.keys.Nodup) :
    (set key entry entries).keys.Nodup := by
  by_cases hkey : key ∈ entries.keys
  · rw [keys_set_of_mem entry hkey]
    exact h
  · rw [set_of_not_mem entry hkey, keys_append]
    refine List.nodup_append.mpr ⟨h, List.nodup_singleton key, ?_⟩
    rintro a ha b hb rfl
    rw [List.mem_singleton.mp hb] at ha
    exact hkey ha

/-- What stands among the pairs after a key is set. -/
theorem mem_set {key : κ} {entry : α} {entries : Entries κ α} {pair : κ × α}
    (h : pair ∈ set key entry entries) : pair = (key, entry) ∨ pair ∈ entries := by
  induction entries with
  | nil => exact .inl (List.mem_singleton.mp h)
  | cons first rest ih =>
    obtain ⟨k, e⟩ := first
    rw [set_cons] at h
    split at h
    · rename_i hk
      rcases List.mem_cons.mp h with rfl | h
      · exact .inl (by rw [eq_of_beq hk])
      · exact .inr (List.mem_cons_of_mem _ h)
    · rcases List.mem_cons.mp h with rfl | h
      · exact .inr List.mem_cons_self
      · exact (ih h).imp_right (List.mem_cons_of_mem _)

/-! ### Looking a key up -/

theorem get?_set_self (key : κ) (entry : α) (entries : Entries κ α) :
    get? key (set key entry entries) = some entry := by
  induction entries with
  | nil => simp [set, setBy, get?]
  | cons pair rest ih =>
    obtain ⟨k, e⟩ := pair
    rw [set_cons]
    split
    · rename_i h
      rw [get?_cons, if_pos h]
    · rename_i h
      rw [get?_cons, if_neg h, ih]

theorem get?_set_ne {key k : κ} (h : k ≠ key) (entry : α) (entries : Entries κ α) :
    get? k (set key entry entries) = get? k entries := by
  have hne : ¬((key == k) = true) := by
    rw [beq_iff_eq]
    exact fun heq => h heq.symm
  induction entries with
  | nil => simp [set, setBy, get?, hne]
  | cons pair rest ih =>
    obtain ⟨j, e⟩ := pair
    rw [set_cons]
    split
    · rename_i hj
      rw [beq_iff_eq] at hj
      subst hj
      rw [get?_cons, get?_cons, if_neg hne, if_neg hne]
    · rw [get?_cons, get?_cons, ih]

theorem get?_isSome_iff {key : κ} {entries : Entries κ α} :
    (get? key entries).isSome = true ↔ key ∈ entries.keys := by
  induction entries with
  | nil => simp [get?, keys]
  | cons pair rest ih =>
    obtain ⟨k, e⟩ := pair
    rw [get?_cons, keys_cons, List.mem_cons]
    split
    · rename_i h
      simp [beq_iff_eq.mp h]
    · rename_i h
      rw [ih]
      constructor
      · exact .inr
      · rintro (rfl | hk)
        · exact absurd BEq.rfl h
        · exact hk

theorem has_iff {key : κ} {entries : Entries κ α} : has key entries = true ↔ key ∈ entries.keys :=
  get?_isSome_iff

theorem mem_of_get? {key : κ} {entry : α} {entries : Entries κ α}
    (h : get? key entries = some entry) : (key, entry) ∈ entries := by
  induction entries with
  | nil => cases h
  | cons pair rest ih =>
    obtain ⟨k, e⟩ := pair
    rw [get?_cons] at h
    split at h
    · rename_i hk
      cases h
      rw [beq_iff_eq.mp hk]
      exact List.mem_cons_self
    · exact List.mem_cons_of_mem _ (ih h)

theorem mem_keys_of_get? {key : κ} {entry : α} {entries : Entries κ α}
    (h : get? key entries = some entry) : key ∈ entries.keys :=
  get?_isSome_iff.mp (by rw [h]; rfl)

theorem exists_get?_of_mem_keys {key : κ} {entries : Entries κ α} (h : key ∈ entries.keys) :
    ∃ entry, get? key entries = some entry :=
  Option.isSome_iff_exists.mp (get?_isSome_iff.mpr h)

/-! ### Some of the keys -/

variable {picked : κ → Bool} {key : κ}

theorem get?_restrict (h : picked key = true) (entries : Entries κ α) :
    get? key (restrict picked entries) = get? key entries := by
  induction entries with
  | nil => rfl
  | cons pair rest ih =>
    obtain ⟨k, e⟩ := pair
    rw [restrict_cons]
    by_cases hk : picked k = true
    · rw [if_pos hk, get?_cons, get?_cons, ih]
    · have hne : ¬((k == key) = true) := by
        rw [beq_iff_eq]
        rintro rfl
        exact hk h
      rw [if_neg hk, get?_cons, if_neg hne, ih]

/-- Setting a key that is picked. -/
theorem restrict_set_of_picked (h : picked key = true) (entry : α) (entries : Entries κ α) :
    restrict picked (set key entry entries) = set key entry (restrict picked entries) := by
  induction entries with
  | nil => simp [restrict, set, setBy, h]
  | cons pair rest ih =>
    obtain ⟨k, e⟩ := pair
    rw [set_cons, restrict_cons]
    by_cases hk : (k == key) = true
    · have hpicked : picked k = true := by rwa [beq_iff_eq.mp hk]
      rw [if_pos hk, if_pos hpicked, restrict_cons, if_pos hpicked, set_cons, if_pos hk]
    · rw [if_neg hk, restrict_cons, ih]
      by_cases hpicked : picked k = true
      · rw [if_pos hpicked, if_pos hpicked, set_cons, if_neg hk]
      · rw [if_neg hpicked, if_neg hpicked]

/-- Setting a key that is not picked. -/
theorem restrict_set_of_not_picked (h : ¬picked key = true) (entry : α) (entries : Entries κ α) :
    restrict picked (set key entry entries) = restrict picked entries := by
  induction entries with
  | nil => simp [restrict, set, setBy, h]
  | cons pair rest ih =>
    obtain ⟨k, e⟩ := pair
    rw [set_cons, restrict_cons]
    by_cases hk : (k == key) = true
    · have hpicked : ¬picked k = true := by rwa [beq_iff_eq.mp hk]
      rw [if_pos hk, restrict_cons, if_neg hpicked, if_neg hpicked]
    · rw [if_neg hk, restrict_cons, ih]

/-! ### Setting again, and taking away -/

theorem set_set (key : κ) (entry entry' : α) (entries : Entries κ α) :
    set key entry' (set key entry entries) = set key entry' entries := by
  induction entries with
  | nil => simp [set, setBy]
  | cons pair rest ih =>
    obtain ⟨k, e⟩ := pair
    by_cases hk : (k == key) = true
    · rw [set_cons, if_pos hk, set_cons, if_pos hk, set_cons, if_pos hk]
    · rw [set_cons, if_neg hk, set_cons, if_neg hk, set_cons, if_neg hk, ih]

omit [LawfulBEq κ] in
/-- Setting what is there already changes nothing. -/
theorem set_of_get? {key : κ} {entry : α} {entries : Entries κ α}
    (h : get? key entries = some entry) : set key entry entries = entries := by
  induction entries with
  | nil => cases h
  | cons pair rest ih =>
    obtain ⟨k, e⟩ := pair
    rw [get?_cons] at h
    by_cases hk : (k == key) = true
    · rw [if_pos hk] at h
      cases h
      rw [set_cons, if_pos hk]
    · rw [if_neg hk] at h
      rw [set_cons, if_neg hk, ih h]

omit [LawfulBEq κ] in
theorem without_eq_restrict (key : κ) (entries : Entries κ α) :
    without key entries = restrict (fun k => !(k == key)) entries := rfl

/-- A key that was taken away is gone. -/
theorem not_mem_keys_without (key : κ) (entries : Entries κ α) :
    key ∉ (without key entries).keys := by
  intro hkey
  obtain ⟨⟨k, e⟩, hpair, rfl⟩ := List.mem_map.mp hkey
  simpa using (List.mem_filter.mp hpair).2

theorem without_of_not_mem {key : κ} {entries : Entries κ α} (h : key ∉ entries.keys) :
    without key entries = entries := by
  rw [without, List.filter_eq_self]
  intro pair hpair
  simp only [Bool.not_eq_true', beq_eq_false_iff_ne]
  rintro rfl
  exact h (List.mem_map_of_mem hpair)

/-- Taking a key away undoes setting it, if it was new. -/
theorem without_set_of_not_mem {key : κ} {entries : Entries κ α} (entry : α)
    (h : key ∉ entries.keys) : without key (set key entry entries) = entries := by
  have hold := without_of_not_mem h
  unfold without at hold
  rw [set_of_not_mem entry h, without, List.filter_append, hold]
  simp

/-! ### Setting one key after the other -/

omit [LawfulBEq κ] in
theorem map_set {β : Type} (f : α → β) (key : κ) (entry : α) (entries : Entries κ α) :
    (set key entry entries).map (Prod.map id f) =
      set key (f entry) (entries.map (Prod.map id f)) := by
  induction entries with
  | nil => rfl
  | cons pair rest ih =>
    obtain ⟨k, e⟩ := pair
    rw [set_cons, List.map_cons, Prod.map_apply, id, set_cons]
    split
    · rfl
    · rw [List.map_cons, ih]
      rfl

/-- Sets keys one after the other. -/
def setAll (pairs : List (κ × α)) (entries : Entries κ α) : Entries κ α :=
  pairs.foldl (fun entries pair => set pair.1 pair.2 entries) entries

omit [LawfulBEq κ] in
theorem setAll_cons (pair : κ × α) (pairs : List (κ × α)) (entries : Entries κ α) :
    setAll (pair :: pairs) entries = setAll pairs (set pair.1 pair.2 entries) := rfl

omit [LawfulBEq κ] in
theorem map_setAll {β : Type} (f : α → β) (pairs : List (κ × α)) (entries : Entries κ α) :
    (setAll pairs entries).map (Prod.map id f) =
      setAll (pairs.map (Prod.map id f)) (entries.map (Prod.map id f)) := by
  induction pairs generalizing entries with
  | nil => rfl
  | cons pair pairs ih =>
    rw [setAll_cons, ih, map_set]
    rfl

/-- Taking a key away is the same before and after. -/
theorem without_setAll (key : κ) (pairs : List (κ × α)) (entries : Entries κ α) :
    without key (setAll pairs entries) = setAll (without key pairs) (without key entries) := by
  induction pairs generalizing entries with
  | nil => rfl
  | cons pair pairs ih =>
    obtain ⟨k, e⟩ := pair
    rw [setAll_cons, ih, without_eq_restrict key ((k, e) :: pairs), restrict_cons]
    by_cases hk : (k == key) = true
    · rw [without_eq_restrict key (set k e entries),
        restrict_set_of_not_picked (by simp [hk])]
      simp [hk, without_eq_restrict]
    · rw [without_eq_restrict key (set k e entries), restrict_set_of_picked (by simp [hk])]
      simp [hk, without_eq_restrict, setAll_cons]

/-- The last of the pairs for a key decides. -/
theorem get?_setAll (key : κ) (pairs : List (κ × α)) (entries : Entries κ α) :
    get? key (setAll pairs entries) =
      match (pairs.filter fun pair => pair.1 == key).getLast? with
      | some pair => some pair.2
      | none => get? key entries := by
  induction pairs generalizing entries with
  | nil => rfl
  | cons pair pairs ih =>
    rw [setAll_cons, ih, List.filter_cons]
    by_cases hk : (pair.1 == key) = true
    · rw [if_pos hk, List.getLast?_cons, beq_iff_eq.mp hk, get?_set_self]
      cases (pairs.filter fun pair => pair.1 == key).getLast? <;> rfl
    · have hne : key ≠ pair.1 := fun heq => hk (beq_iff_eq.mpr heq.symm)
      rw [if_neg hk, get?_set_ne hne]

theorem get?_setAll_of_mem {pairs : List (κ × α)} (h : (pairs.map Prod.fst).Nodup) {pair : κ × α}
    (hpair : pair ∈ pairs) (entries : Entries κ α) :
    get? pair.1 (setAll pairs entries) = some pair.2 := by
  induction pairs generalizing entries with
  | nil => cases hpair
  | cons first pairs ih =>
    obtain ⟨hfirst, hothers⟩ := List.nodup_cons.mp h
    rw [setAll_cons]
    rcases List.mem_cons.mp hpair with rfl | hpair
    · have hnone : pairs.filter (fun other => other.1 == pair.1) = [] := by
        rw [List.filter_eq_nil_iff]
        intro other hother heq
        exact hfirst (beq_iff_eq.mp heq ▸ List.mem_map_of_mem hother)
      rw [get?_setAll, hnone]
      exact get?_set_self _ _ _
    · exact ih hothers hpair _

omit [LawfulBEq κ] in
/-- Setting what is there already changes nothing. -/
theorem setAll_of_get? {pairs : List (κ × α)} {entries : Entries κ α}
    (h : ∀ pair ∈ pairs, get? pair.1 entries = some pair.2) : setAll pairs entries = entries := by
  induction pairs with
  | nil => rfl
  | cons pair pairs ih =>
    obtain ⟨hpair, hpairs⟩ := List.forall_mem_cons.mp h
    rw [setAll_cons, set_of_get? hpair]
    exact ih hpairs

/-- Setting the same keys again changes nothing. -/
theorem setAll_setAll {pairs : List (κ × α)} (h : (pairs.map Prod.fst).Nodup)
    (entries : Entries κ α) : setAll pairs (setAll pairs entries) = setAll pairs entries :=
  setAll_of_get? fun _ hpair => get?_setAll_of_mem h hpair entries

end Entries

namespace Value

theorem same_text (s t : Text) : Key.same (.text s) (.text t) = decide (s = t) := by
  simp [Key.same, Key.number?, Bool.beq_eq_decide_eq]

theorem setBy_same_of_not_mem {name : Text} {value : Value} :
    ∀ {members : List (Key × Value)}, (∀ m ∈ members, ∃ t, m.1 = .text t) →
      Key.text name ∉ members.map Prod.fst →
      Entries.setBy Key.same (.text name) value members = members ++ [(.text name, value)]
  | [], _, _ => rfl
  | (key, old) :: members, htext, hnew => by
    obtain ⟨t, rfl⟩ := htext _ List.mem_cons_self
    simp only [List.map_cons, List.mem_cons, not_or] at hnew
    have hne : Key.same (.text t) (.text name) = false := by
      rw [same_text, decide_eq_false_iff_not]
      rintro rfl
      exact hnew.1 rfl
    rw [Entries.setBy, hne,
      setBy_same_of_not_mem (fun m hm => htext m (List.mem_cons_of_mem _ hm)) hnew.2]
    rfl

theorem setBy_same_of_text {name : Text} (value : Value) {members : List (Key × Value)}
    (h : ∀ m ∈ members, ∃ t, m.1 = .text t) :
    Entries.setBy Key.same (.text name) value members =
      Entries.set (Key.text name) value members := by
  induction members with
  | nil => rfl
  | cons m members ih =>
    obtain ⟨⟨key, old⟩, rfl⟩ : ∃ pair, m = pair := ⟨m, rfl⟩
    obtain ⟨t, rfl⟩ := h _ List.mem_cons_self
    have hbeq : Key.same (.text t) (.text name) = (Key.text t == Key.text name) := by
      simp [same_text, Bool.beq_eq_decide_eq]
    rw [Entries.set_cons, Entries.setBy, hbeq, ih fun m hm => h m (List.mem_cons_of_mem _ hm)]

/-- Pairs with different names are an object as they are. -/
theorem ofPairs_of_nodup {members : List (Key × Value)} (htext : ∀ m ∈ members, ∃ t, m.1 = .text t)
    (hnodup : (members.map Prod.fst).Nodup) : ofPairs members = .object members := by
  have hfold : ∀ (later earlier : List (Key × Value)),
      (∀ m ∈ earlier ++ later, ∃ t, m.1 = .text t) → ((earlier ++ later).map Prod.fst).Nodup →
      later.foldl (fun members m => Entries.setBy Key.same m.1 m.2 members) earlier =
        earlier ++ later := by
    intro later
    induction later with
    | nil => simp
    | cons m later ih =>
      intro earlier htext hnodup
      obtain ⟨key, value⟩ := m
      obtain ⟨t, rfl⟩ : ∃ t, key = .text t := htext (key, value) (by simp)
      have hnew : Key.text t ∉ earlier.map Prod.fst := by
        rw [List.map_append, List.map_cons] at hnodup
        intro hmem
        exact (List.nodup_append.mp hnodup).2.2 _ hmem _ List.mem_cons_self rfl
      simp only [List.foldl_cons]
      rw [setBy_same_of_not_mem (fun m hm => htext m (by simp [hm])) hnew,
        ih _ (by simpa using htext) (by simpa using hnodup)]
      simp
  have hall := hfold members [] (by simpa using htext) (by simpa using hnodup)
  exact congrArg Value.object (hall.trans (List.nil_append members))

end Value

end Unproxy
