import Mathlib
import Unproxy.Proofs.Syntax.Scan

/-!
# Unproxy.Proofs.Syntax.Gap

White space and comments between two tokens: where they end depends on the text alone, and
what they end at may be exchanged for anything that is neither.

Main definitions:

* `IsSolid`: a text that begins with neither white space nor a comment;
* `Opens`: a text that stays solid and makes nothing else of what stands before it;
* `Passage.step?`: how a passage goes on over one code point.

Main statements:

* `Scan.betweenFrom_congr`: where a passage ends depends on the text alone;
* `Scan.betweenFrom_append`: what it ends at is solid, and may be exchanged.
-/

namespace Unproxy.Syntax

/-! ### White space and comments -/

/-- A text that begins with neither white space nor a comment. -/
def IsSolid : Text → Prop
  | [] => False
  | c :: t => c.isBlank = false ∧ (c = CodePoint.ofChar '/' →
      t.head? ≠ some (CodePoint.ofChar '/') ∧ t.head? ≠ some (CodePoint.ofChar '*'))

/-- A text that begins with neither white space nor a code point that could make a comment or
an interpreter line of the one before it. -/
def Opens (t : Text) : Prop :=
  ∃ c ∈ t.head?, c.isBlank = false ∧ c ∉ "/*#!".toText

namespace Passage

/-- Two passages that stand alike, whatever the place where a comment began. -/
inductive Alike : Passage → Passage → Prop
  | blank : Alike .blank .blank
  | lineComment {start start' : Nat} {reversed reversed' : Text} :
      Alike (.lineComment start reversed) (.lineComment start' reversed')
  | blockComment {start start' : Nat} {reversed : Text} :
      Alike (.blockComment start reversed) (.blockComment start' reversed)

/-- How a passage goes on over a code point with another one behind it, unless it ends. -/
def step? (offset : Nat) (c : CodePoint) (second : Option CodePoint) : Passage → Option Passage
  | .blank =>
    if c.isBlank then some .blank
    else if c = '/' && second == some (CodePoint.ofChar '/') then some (.lineComment offset [c])
    else if c = '/' && second == some (CodePoint.ofChar '*') then some (.blockComment offset [c])
    else none
  | .lineComment start reversed =>
    some (if c.endsLine then .blank else .lineComment start (c :: reversed))
  | .blockComment start reversed =>
    some (if c = '/' && Scan.closesBlock reversed then .blank
      else .blockComment start (c :: reversed))

variable {passage passage' : Passage} {offset : Nat} {c : CodePoint} {second : Option CodePoint}

theorem Alike.refl (passage : Passage) : passage.Alike passage := by
  cases passage with
  | blank => exact .blank
  | lineComment => exact .lineComment
  | blockComment => exact .blockComment

theorem Alike.step? (h : passage.Alike passage') (offset offset' : Nat) (c : CodePoint)
    (second : Option CodePoint) :
    (passage.step? offset c second = none ∧ passage'.step? offset' c second = none) ∨
      ∃ next next', passage.step? offset c second = some next ∧
        passage'.step? offset' c second = some next' ∧ next.Alike next' := by
  cases h with
  | blank =>
    simp only [Passage.step?]
    split_ifs
    · exact .inr ⟨_, _, rfl, rfl, .blank⟩
    · exact .inr ⟨_, _, rfl, rfl, .lineComment⟩
    · exact .inr ⟨_, _, rfl, rfl, .blockComment⟩
    · exact .inl ⟨rfl, rfl⟩
  | lineComment =>
    refine .inr ⟨_, _, rfl, rfl, ?_⟩
    split_ifs
    · exact .blank
    · exact .lineComment
  | blockComment =>
    refine .inr ⟨_, _, rfl, rfl, ?_⟩
    split_ifs
    · exact .blank
    · exact .blockComment

/-- White space, and the end of a comment, are told by one code point. -/
theorem step?_blank (h : passage.step? offset c second = some .blank)
    (second' : Option CodePoint) : passage.step? offset c second' = some .blank := by
  cases passage with
  | blank =>
    have hblank : c.isBlank = true := by
      by_contra hblank
      rw [step?, if_neg hblank] at h
      split_ifs at h <;> cases h
    rw [step?, if_pos hblank]
  | lineComment => exact h
  | blockComment => exact h

end Passage

section

variable {u x x' : Text}

theorem Opens.isSolid (h : Opens x) : IsSolid x := by
  obtain ⟨c, hc, hblank, hplain⟩ := h
  obtain ⟨t, rfl⟩ := List.head?_eq_some_iff.mp hc
  refine ⟨hblank, ?_⟩
  rintro rfl
  exact absurd (by decide) hplain

theorem Opens.append (h : Opens u) (x : Text) : Opens (u ++ x) := by
  obtain ⟨c, hc, hplain⟩ := h
  obtain ⟨t, rfl⟩ := List.head?_eq_some_iff.mp hc
  exact ⟨c, rfl, hplain⟩

/-- Whether a text is solid is told by its first code point and the one behind it. -/
theorem IsSolid.append (h : IsSolid (u ++ x)) (hne : u ≠ []) (hx' : Opens x') :
    IsSolid (u ++ x') := by
  obtain ⟨c, u, rfl⟩ := List.exists_cons_of_ne_nil hne
  cases u with
  | nil =>
    obtain ⟨d, hd, -, hplain⟩ := hx'
    refine ⟨h.1, fun _ => ?_⟩
    change x'.head? ≠ _ ∧ x'.head? ≠ _
    rw [hd]
    constructor
    · rintro ⟨⟩
      exact absurd (by decide) hplain
    · rintro ⟨⟩
      exact absurd (by decide) hplain
  | cons d u => exact h

end

namespace Scan

section

variable {passage passage' : Passage} {offset : Nat} {gap : Gap} {comments : List Tree}
  {c : CodePoint} {u r r' t : Text}

theorem betweenFrom_of_ends (h : passage.step? offset c t.head? = none) :
    betweenFrom passage offset gap comments (c :: t) =
      ⟨c :: t, offset, Token.ofText (c :: t), gap, comments⟩ := by
  cases passage with
  | blank =>
    rw [betweenFrom.eq_def]
    simp only [Passage.step?] at h ⊢
    split_ifs at h ⊢
    rfl
  | lineComment => cases h
  | blockComment => cases h

theorem betweenFrom_of_step (h : passage.step? offset c t.head? = some passage') (gap : Gap)
    (comments : List Tree) :
    ∃ offset' gap' comments', betweenFrom passage offset gap comments (c :: t) =
      betweenFrom passage' offset' gap' comments' t := by
  rw [betweenFrom.eq_def]
  cases passage with
  | blank =>
    simp only [Passage.step?] at h ⊢
    split_ifs at h ⊢
    all_goals
      cases h
      exact ⟨_, _, _, rfl⟩
  | lineComment start reversed | blockComment start reversed =>
    obtain rfl := Option.some.inj h
    dsimp only
    split <;> exact ⟨_, _, _, rfl⟩

/-- Where a passage ends depends on the text alone. -/
theorem betweenFrom_congr {passage passage' : Passage} (h : passage.Alike passage')
    (offset offset' : Nat) (gap gap' : Gap) (comments comments' : List Tree) (t : Text) :
    (betweenFrom passage offset gap comments t).rest =
        (betweenFrom passage' offset' gap' comments' t).rest ∧
      (betweenFrom passage offset gap comments t).next =
        (betweenFrom passage' offset' gap' comments' t).next := by
  induction t generalizing passage passage' offset offset' gap gap' comments comments' with
  | nil => cases h <;> exact ⟨rfl, rfl⟩
  | cons c t ih =>
    rcases h.step? offset offset' c t.head? with ⟨hend, hend'⟩ | ⟨_, _, hstep, hstep', halike⟩
    · rw [betweenFrom_of_ends hend, betweenFrom_of_ends hend']
      exact ⟨rfl, rfl⟩
    · obtain ⟨_, _, _, heq⟩ := betweenFrom_of_step hstep gap comments
      obtain ⟨_, _, _, heq'⟩ := betweenFrom_of_step hstep' gap' comments'
      rw [heq, heq']
      exact ih halike ..

theorem between_congr (offset offset' : Nat) (comments comments' : List Tree) (t : Text) :
    (between offset comments t).rest = (between offset' comments' t).rest ∧
      (between offset comments t).next = (between offset' comments' t).next :=
  betweenFrom_congr .blank ..

/-- A passage ends before what is solid. -/
theorem isSolid_iff (offset : Nat) :
    IsSolid (c :: t) ↔ Passage.blank.step? offset c t.head? = none := by
  simp only [IsSolid, Passage.step?]
  split_ifs with hblank hline hblock
  · simp [hblank]
  · simp only [Bool.and_eq_true, decide_eq_true_eq, beq_iff_eq] at hline
    simp [hline.1, hline.2]
  · simp only [Bool.and_eq_true, decide_eq_true_eq, beq_iff_eq] at hblock
    simp [hblock.1, hblock.2]
  · simp only [Bool.and_eq_true, decide_eq_true_eq, beq_iff_eq] at hline hblock
    simp only [iff_true]
    exact ⟨by simpa using hblank, fun hc => ⟨fun h => hline ⟨hc, h⟩, fun h => hblock ⟨hc, h⟩⟩⟩

theorem betweenFrom_of_isSolid (h : IsSolid t) :
    (betweenFrom .blank offset gap comments t).rest = t := by
  cases t with
  | nil => cases h
  | cons c t => rw [betweenFrom_of_ends ((isSolid_iff offset).mp h)]

/-- A passage that takes nothing stands between tokens, before something solid. -/
theorem eq_blank_of_betweenFrom (hr : r ≠ [])
    (h : (betweenFrom passage offset gap comments r).rest = r) : passage = .blank ∧ IsSolid r := by
  obtain ⟨c, t, rfl⟩ := List.exists_cons_of_ne_nil hr
  cases hstep : passage.step? offset c t.head? with
  | some next =>
    obtain ⟨offset', gap', comments', heq⟩ := betweenFrom_of_step hstep gap comments
    have hle := (suffix_betweenFrom next offset' gap' comments' t).length_le
    rw [← heq, h, List.length_cons] at hle
    omega
  | none =>
    cases passage with
    | blank => exact ⟨rfl, (isSolid_iff offset).mpr hstep⟩
    | lineComment => cases hstep
    | blockComment => cases hstep

/-- What a passage ends at is solid, and may be exchanged for anything else that is. -/
theorem betweenFrom_append (hr : r ≠ [])
    (h : (betweenFrom passage offset gap comments (u ++ r)).rest = r) :
    IsSolid r ∧ ∀ r', IsSolid r' →
      (betweenFrom passage offset gap comments (u ++ r')).rest = r' := by
  induction u generalizing passage offset gap comments with
  | nil =>
    obtain ⟨rfl, hsolid⟩ := eq_blank_of_betweenFrom hr h
    exact ⟨hsolid, fun r' hr' => betweenFrom_of_isSolid hr'⟩
  | cons c u ih =>
    rw [List.cons_append] at h
    cases hstep : passage.step? offset c (u ++ r).head? with
    | none =>
      rw [betweenFrom_of_ends hstep] at h
      have hlength := congrArg List.length h
      simp only [List.length_cons, List.length_append] at hlength
      omega
    | some next =>
      obtain ⟨_, _, _, heq⟩ := betweenFrom_of_step hstep gap comments
      rw [heq] at h
      obtain ⟨hsolid, hih⟩ := ih h
      refine ⟨hsolid, fun r' hr' => ?_⟩
      have hstep' : passage.step? offset c (u ++ r').head? = some next := by
        cases u with
        | nil =>
          obtain ⟨rfl, -⟩ := eq_blank_of_betweenFrom hr h
          exact Passage.step?_blank hstep _
        | cons d u => exact hstep
      obtain ⟨_, _, _, heq'⟩ := betweenFrom_of_step hstep' gap comments
      rw [List.cons_append, heq']
      exact (betweenFrom_congr (.refl next) ..).1.trans (hih r' hr')

/-- The passage from one token to the next begins with white space or a slash. -/
theorem isBlank_or_slash (h : (betweenFrom .blank offset gap comments (c :: (u ++ r))).rest = r) :
    c.isBlank = true ∨ c = CodePoint.ofChar '/' := by
  by_contra hc
  rw [not_or, Bool.not_eq_true] at hc
  have hsolid : IsSolid (c :: (u ++ r)) := ⟨hc.1, fun h => absurd h hc.2⟩
  rw [betweenFrom_of_isSolid hsolid] at h
  have hlength := congrArg List.length h
  simp only [List.length_cons, List.length_append] at hlength
  omega

end

end Scan

end Unproxy.Syntax
