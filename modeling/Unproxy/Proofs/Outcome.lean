import Mathlib
import Unproxy.Counting
import Unproxy.Log.Record

/-!
# Unproxy.Proofs.Outcome

Computations that may fail, taken apart step by step: plain ones, those that report
and those that keep a tally.

Main definitions:

* `Counting.Gives`: a scan that succeeds with the same result from any tally on.
-/

namespace Unproxy

/-- A sequence that succeeds has a first step that does. -/
theorem exists_of_bind_eq_ok {ε α β : Type} {x : Except ε α} {f : α → Except ε β} {b : β}
    (h : x >>= f = .ok b) : ∃ a, x = .ok a ∧ f a = .ok b := by
  cases x with
  | error e => cases h
  | ok a => exact ⟨a, rfl, h⟩

/-- A row of computations that succeeds has each of its members succeed. -/
theorem exists_mem_of_mapM_eq_ok {ε α β : Type} {f : α → Except ε β} {as : List α} {bs : List β}
    (h : as.mapM f = .ok bs) {a : α} (ha : a ∈ as) : ∃ b, f a = .ok b ∧ b ∈ bs := by
  induction as generalizing bs with
  | nil => cases ha
  | cons first as ih =>
    rw [List.mapM_cons] at h
    obtain ⟨b, hb, h⟩ := exists_of_bind_eq_ok h
    obtain ⟨others, hothers, h⟩ := exists_of_bind_eq_ok h
    cases h
    rcases List.mem_cons.mp ha with rfl | ha
    · exact ⟨b, hb, List.mem_cons_self⟩
    · obtain ⟨b', hb', hmem⟩ := ih hothers ha
      exact ⟨b', hb', List.mem_cons_of_mem b hmem⟩

theorem exists_mapM_eq_ok {ε α β : Type} {f : α → Except ε β} {as : List α}
    (h : ∀ a ∈ as, ∃ b, f a = .ok b) : ∃ bs, as.mapM f = .ok bs := by
  induction as with
  | nil => exact ⟨[], rfl⟩
  | cons a as ih =>
    obtain ⟨ha, has⟩ := List.forall_mem_cons.mp h
    obtain ⟨b, hb⟩ := ha
    obtain ⟨bs, hbs⟩ := ih has
    exact ⟨b :: bs, by rw [List.mapM_cons, hb, hbs]; rfl⟩

/-- What a computation gives can be looked at. -/
instance decidableExistsOk {ε α : Type} (x : Except ε α) (P : α → Prop) [DecidablePred P] :
    Decidable (∃ a, x = .ok a ∧ P a) :=
  decidable_of_iff (x.toOption.any (fun a => decide (P a)) = true)
    (by cases x <;> simp [Except.toOption])

instance decidableExistsSome {α : Type} (x : Option α) (P : α → Prop) [DecidablePred P] :
    Decidable (∃ a, x = some a ∧ P a) :=
  decidable_of_iff (x.any (fun a => decide (P a)) = true) (by cases x <;> simp)

/-- What a computation that succeeds gives. -/
theorem eq_ok_of_isOk {ε α : Type} {x : Except ε α} (h : x.isOk = true) (other : α) :
    x = .ok (x.toOption.getD other) := by
  cases x with
  | error e => cases h
  | ok a => rfl

namespace Log.Logged

variable {ε α β : Type}

theorem outcome_bind (x : Logged ε α) (f : α → Logged ε β) :
    (x >>= f).outcome = x.outcome >>= fun a => (f a).outcome := by
  simp only [bind, Except.bind]
  cases x.outcome <;> rfl

/-- A step that succeeds hands its result on. -/
theorem outcome_bind_of_ok {x : Logged ε α} {a : α} (f : α → Logged ε β)
    (h : x.outcome = .ok a) : (x >>= f).outcome = (f a).outcome := by
  simp only [bind, h]

/-- A sequence that succeeds has a first step that does. -/
theorem exists_of_outcome_bind {x : Logged ε α} {f : α → Logged ε β} {b : β}
    (h : (x >>= f).outcome = .ok b) : ∃ a, x.outcome = .ok a ∧ (f a).outcome = .ok b := by
  cases hx : x.outcome with
  | error e => simp only [bind, hx] at h; cases h
  | ok a => exact ⟨a, rfl, by rwa [outcome_bind_of_ok f hx] at h⟩

end Log.Logged

namespace Counting

variable {ε σ α β γ : Type}

theorem tallied_bind (x : Counting ε σ α) (f : α → Counting ε σ β) (tally : σ) :
    tallied (x >>= f) tally =
      match tallied x tally with
      | (.ok a, tally') => tallied (f a) tally'
      | (.error e, tally') => (.error e, tally') := by
  simp only [tallied, ExceptT.run, StateT.run, bind, ExceptT.bind, ExceptT.mk, ExceptT.bindCont,
    StateT.bind]
  rcases x tally with ⟨e | a, tally'⟩ <;> rfl

/-- A sequence that succeeds has a first step that does. -/
theorem exists_of_tallied_bind {x : Counting ε σ α} {f : α → Counting ε σ β} {tally tally'' : σ}
    {b : β} (h : tallied (x >>= f) tally = (.ok b, tally'')) :
    ∃ a tally', tallied x tally = (.ok a, tally') ∧ tallied (f a) tally' = (.ok b, tally'') := by
  rw [tallied_bind] at h
  rcases hx : tallied x tally with ⟨e | a, tally'⟩
  · rw [hx] at h
    cases h
  · rw [hx] at h
    exact ⟨a, tally', rfl, h⟩

/-- A sequence that fails does so in its first step or behind it. -/
theorem tallied_bind_eq_error {x : Counting ε σ α} {f : α → Counting ε σ β} {tally tally' : σ} {e : ε}
    (h : tallied (x >>= f) tally = (.error e, tally')) :
    tallied x tally = (.error e, tally') ∨
      ∃ a middle, tallied x tally = (.ok a, middle) ∧ tallied (f a) middle = (.error e, tally') := by
  rw [tallied_bind] at h
  rcases hx : tallied x tally with ⟨e' | a, middle⟩
  · rw [hx] at h
    cases h
    exact .inl rfl
  · rw [hx] at h
    exact .inr ⟨a, middle, rfl, h⟩

theorem eq_ok_of_tallied_ofExcept {δ : Type} {f : δ → ε} {x : Except δ α} {a : α} {tally tally' : σ}
    (h : tallied (ofExcept f x : Counting ε σ α) tally = (.ok a, tally')) : x = .ok a := by
  cases x with
  | error e => cases h
  | ok b => cases h; rfl

theorem ofExcept_bind {δ : Type} (f : δ → ε) (x : Except δ α) (g : α → Except δ β) :
    (ofExcept f (x >>= g) : Counting ε σ β) = ofExcept f x >>= fun a => ofExcept f (g a) := by
  cases x <;> rfl

/-- A computation without a tally that succeeds hands its result on. -/
theorem ofExcept_ok_bind {δ : Type} (f : δ → ε) (a : α) (g : α → Counting ε σ β) :
    (ofExcept f (.ok a) >>= g) = g a := rfl

/-- A scan that succeeds with a result whatever the tally is, and keeps what `view`
shows of the tally. -/
def Gives (view : σ → γ) (x : Counting ε σ α) (a : α) : Prop :=
  ∀ tally, ∃ tally', tallied x tally = (.ok a, tally') ∧ view tally' = view tally

namespace Gives

variable {view : σ → γ}

theorem pure (view : σ → γ) (a : α) : Gives view (Pure.pure a : Counting ε σ α) a :=
  fun tally => ⟨tally, rfl, rfl⟩

theorem bind {x : Counting ε σ α} {f : α → Counting ε σ β} {a : α} {b : β} (hx : Gives view x a)
    (hf : Gives view (f a) b) : Gives view (x >>= f) b := by
  intro tally
  obtain ⟨tally', hrun, hview⟩ := hx tally
  obtain ⟨tally'', hrun', hview'⟩ := hf tally'
  refine ⟨tally'', ?_, hview'.trans hview⟩
  rw [tallied_bind, hrun]
  exact hrun'

theorem ofExcept {δ : Type} (view : σ → γ) (f : δ → ε) {x : Except δ α} {a : α} (h : x = .ok a) :
    Gives view (Counting.ofExcept f x : Counting ε σ α) a := by
  subst h
  exact fun tally => ⟨tally, rfl, rfl⟩

/-- Counting what does not show changes nothing. -/
theorem count_bind {change : σ → σ} {f : Unit → Counting ε σ β} {b : β}
    (h : ∀ tally, view (change tally) = view tally) (hf : Gives view (f ()) b) :
    Gives view (Counting.count change >>= f) b :=
  bind (fun tally => ⟨change tally, rfl, h tally⟩) hf

end Gives

end Counting

end Unproxy
