import Mathlib
import Unproxy.Syntax.Cursor
import Unproxy.Proofs.Outcome

/-!
# Unproxy.Proofs.Syntax.Walk

Walks over trees, one level at a time. The walks that keep a stack go on below a node as walks from
the nodes right below it do, and a walk that keeps a tally is compared with one that only knows what
each visit gives.

Main definitions:

* `Cursor.collectRow`: visiting walks from the nodes of a row, one after the other;
* `Cursor.gathered`: what a walk gathers if it is known what each visit gives.

Main statements:

* `Cursor.walk_eq`, `Cursor.collect_eq`, `Cursor.gathered_eq`: a node, then what is below it;
* `Cursor.walkStack_eq`, `Cursor.collectRow_cons`: the subtrees on a stack do not get mixed up;
* `Cursor.induction_below`: what holds of a node whenever it holds right below it holds
  everywhere;
* `Cursor.gathered_eq_filterMap`: when a walk passes nothing over;
* `Cursor.gives_collect`, `Cursor.eq_of_tallied_collect`: a walk with a tally gathers
  what one without a tally does;
* `Cursor.collect_congr`: a walk depends on its visits alone;
* `Cursor.exists_part_of_collect`, `Cursor.exists_of_mem_collect`: where what a walk gathers comes from;
* `Cursor.exists_error_of_collect`, `Cursor.measure_of_collect`: how a walk fails, and what it counts.
-/

namespace Unproxy

namespace Syntax.Cursor

/-! ### Levels -/

theorem mem_below {c d : Cursor} :
    d ∈ c.below ↔ d.node ∈ c.node.children ∧ d.node.isNamed = true ∧
      d.ancestors = c.node :: c.ancestors := by
  constructor
  · intro h
    obtain ⟨t, ht, rfl⟩ := List.mem_map.mp h
    exact ⟨(List.mem_filter.mp ht).1, (List.mem_filter.mp ht).2, rfl⟩
  · rintro ⟨hmem, hnamed, hancestors⟩
    refine List.mem_map.mpr ⟨d.node, List.mem_filter.mpr ⟨hmem, hnamed⟩, ?_⟩
    rw [← hancestors]

theorem sizeOf_lt_of_below {c d : Cursor} (hd : d ∈ c.below) : sizeOf d.node < sizeOf c.node := by
  have hlist := List.sizeOf_lt_of_mem (mem_below.mp hd).1
  obtain ⟨⟨kind, role, start, stop, text, children⟩, ancestors⟩ := c
  dsimp only at hlist
  simp only [Tree.mk.sizeOf_spec]
  omega

/-- What holds of a node whenever it holds of the nodes right below it holds of every
node. -/
theorem induction_below {motive : Cursor → Prop}
    (step : ∀ c, (∀ d ∈ c.below, motive d) → motive c) (c : Cursor) : motive c :=
  step c fun d hd => have := sizeOf_lt_of_below hd; induction_below step d
termination_by sizeOf c.node

/-! ### The recursion behind the stacks -/

theorem walkStack_append (stack others : List Cursor) :
    walkStack (stack ++ others) = walkStack stack ++ walkStack others := by
  fun_induction walkStack stack with
  | case1 => rfl
  | case2 c stack ih => rw [List.cons_append, walkStack, ← List.append_assoc, ih, List.cons_append]

/-- The subtrees on a stack are walked one after the other. -/
theorem walkStack_eq (stack : List Cursor) : walkStack stack = stack.flatMap walk := by
  induction stack with
  | nil => rw [walkStack, List.flatMap_nil]
  | cons c stack ih => rw [← List.singleton_append, walkStack_append, ih]; rfl

/-- A walk begins with the node itself and goes on below it. -/
theorem walk_eq (c : Cursor) : c.walk = c :: c.below.flatMap walk := by
  rw [walk, walkStack, List.append_nil, walkStack_eq]

/-- What a walk comes to does not depend on the nodes around it. -/
theorem map_node_walk (c : Cursor) : c.walk.map node = c.node.preorder := by
  suffices h : ∀ ancestors, c.walk.map node = (walk ⟨c.node, ancestors⟩).map node from h []
  induction c using induction_below with
  | step c ih =>
    intro ancestors
    rw [walk_eq, walk_eq, List.map_cons, List.map_cons, List.map_flatMap, List.map_flatMap, below,
      below, List.flatMap_map, List.flatMap_map]
    refine congrArg _ (List.flatMap_congr fun t ht => ?_)
    exact ih ⟨t, _⟩ (List.mem_map.mpr ⟨t, ht, rfl⟩) _

section

variable {m : Type → Type} [Monad m] [LawfulMonad m] {α : Type} (visit : Cursor → m (Option (List α)))

theorem collectStack_append (found : List α) (stack others : List Cursor) :
    collectStack visit found (stack ++ others) =
      collectStack visit found stack >>= fun found => collectStack visit found others := by
  fun_induction collectStack visit found stack with
  | case1 found => rw [List.nil_append, pure_bind]
  | case2 found c stack ih ih' =>
    rw [List.cons_append, collectStack, bind_assoc]
    refine bind_congr fun r => ?_
    cases r with
    | some more => exact ih more
    | none => exact (congrArg _ (List.append_assoc ..).symm).trans ih'

/-- What was found before does not matter for the visits. -/
theorem collectStack_append_found (more found : List α) (stack : List Cursor) :
    collectStack visit (more ++ found) stack = (more ++ ·) <$> collectStack visit found stack := by
  fun_induction collectStack visit found stack with
  | case1 found => rw [collectStack, map_pure]
  | case2 found c stack ih ih' =>
    rw [collectStack, map_bind]
    refine bind_congr fun r => ?_
    cases r with
    | some first =>
      exact (congrArg (collectStack visit · stack) (List.append_assoc ..)).trans (ih first)
    | none => exact ih'

/-- The visits of a row of subtrees, one after the other. -/
def collectRow (cs : List Cursor) : m (List α) := collectStack visit [] cs

omit [LawfulMonad m] in
theorem collectRow_nil : collectRow visit [] = pure [] := by
  rw [collectRow, collectStack]

theorem collectRow_cons (c : Cursor) (cs : List Cursor) :
    collectRow visit (c :: cs) = do
      let found ← c.collect visit
      let others ← collectRow visit cs
      return found ++ others := by
  rw [collectRow, ← List.singleton_append, collectStack_append]
  refine bind_congr fun found => ?_
  rw [← List.append_nil found, collectStack_append_found, List.append_nil, bind_pure_comp]
  rfl

omit [LawfulMonad m] in
/-- A node whose visit gives nothing is gone into. -/
theorem collect_eq (c : Cursor) :
    c.collect visit = visit c >>= fun
      | some found => pure found
      | none => collectRow visit c.below := by
  rw [collect, collectStack]
  refine bind_congr fun r => ?_
  cases r with
  | some found =>
    show collectStack visit found [] = pure found
    rw [collectStack]
  | none => exact congrArg (collectStack visit []) (List.append_nil c.below)

end

/-! ### Nodes that a walk comes to -/

theorem mem_walk_self (c : Cursor) : c ∈ c.walk := by
  rw [walk_eq]
  exact List.mem_cons_self

theorem mem_walk {c d : Cursor} : d ∈ c.walk ↔ d = c ∨ ∃ e ∈ c.below, d ∈ e.walk := by
  rw [walk_eq, List.mem_cons, List.mem_flatMap]

theorem mem_walk_of_below {c d e : Cursor} (hd : d ∈ c.below) (he : e ∈ d.walk) : e ∈ c.walk :=
  mem_walk.mpr (.inr ⟨d, hd, he⟩)

/-- What a walk comes to from a node that it comes to. -/
theorem mem_walk_trans {c d e : Cursor} (hd : d ∈ c.walk) (he : e ∈ d.walk) : e ∈ c.walk := by
  induction c using induction_below with
  | step c ih =>
    rcases mem_walk.mp hd with rfl | ⟨b, hb, hd⟩
    · exact he
    · exact mem_walk_of_below hb (ih b hb hd)

/-- A walk comes to a node from the one above it. -/
theorem exists_above_of_mem_walk {c d : Cursor} (h : d ∈ c.walk) :
    d = c ∨ ∃ a ∈ c.walk, d ∈ a.below := by
  induction c using induction_below with
  | step c ih =>
    rcases mem_walk.mp h with rfl | ⟨b, hb, hd⟩
    · exact .inl rfl
    · rcases ih b hb hd with rfl | ⟨a, ha, hd⟩
      · exact .inr ⟨c, mem_walk_self c, hb⟩
      · exact .inr ⟨a, mem_walk_of_below hb ha, hd⟩

/-- Nodes below one another are deeper down. -/
theorem eq_or_length_lt_of_mem_walk {c d : Cursor} (h : d ∈ c.walk) :
    d = c ∨ c.ancestors.length < d.ancestors.length := by
  induction c using induction_below with
  | step c ih =>
    rcases mem_walk.mp h with rfl | ⟨b, hb, hd⟩
    · exact .inl rfl
    · have hlength : b.ancestors.length = c.ancestors.length + 1 := by
        rw [(mem_below.mp hb).2.2, List.length_cons]
      rcases ih b hb hd with rfl | hlt
      · exact .inr (by omega)
      · exact .inr (by omega)

/-- Two nodes that are below each other are the same. -/
theorem mem_walk_antisymm {c d : Cursor} (h : d ∈ c.walk) (h' : c ∈ d.walk) : d = c := by
  rcases eq_or_length_lt_of_mem_walk h with heq | hlt
  · exact heq
  · rcases eq_or_length_lt_of_mem_walk h' with heq | hlt'
    · exact heq.symm
    · omega

/-! ### Collecting -/

section

variable {m : Type → Type} [Monad m] [LawfulMonad m] {α : Type}
  {visit visit' : Cursor → m (Option (List α))}

theorem collectRow_congr {cs : List Cursor} (h : ∀ c ∈ cs, c.collect visit = c.collect visit') :
    collectRow visit cs = collectRow visit' cs := by
  induction cs with
  | nil => rw [collectRow_nil, collectRow_nil]
  | cons c cs ih =>
    rw [List.forall_mem_cons] at h
    rw [collectRow_cons, collectRow_cons, h.1, ih h.2]

/-- A walk depends on nothing but what its visits do at the nodes it may come to. -/
theorem collect_congr {c : Cursor} (h : ∀ d ∈ c.walk, visit d = visit' d) :
    c.collect visit = c.collect visit' := by
  induction c using induction_below with
  | step c ih =>
    have hrow : collectRow visit c.below = collectRow visit' c.below :=
      collectRow_congr fun d hd => ih d hd fun e he => h e (mem_walk_of_below hd he)
    rw [collect_eq, collect_eq, h c (mem_walk_self c), hrow]

end

section

variable {α : Type} (result : Cursor → Option (List α))

/-- What a walk gathers below a cursor if it is known what each visit gives. -/
def gathered (c : Cursor) : List α := Id.run (c.collect (m := Id) result)

theorem collectRow_id (cs : List Cursor) :
    Id.run (collectRow (m := Id) result cs) = cs.flatMap (gathered result) := by
  induction cs with
  | nil =>
    rw [collectRow_nil]
    rfl
  | cons c cs ih =>
    rw [collectRow_cons, List.flatMap_cons, ← ih]
    rfl

/-- A node whose visit gives nothing is gone into. -/
theorem gathered_eq (c : Cursor) :
    c.gathered result = (result c).getD (c.below.flatMap (gathered result)) := by
  rw [← collectRow_id, gathered, collect_eq]
  cases hc : result c <;> simp [bind]

variable {result}

/-- If every visit gives either all that counts in its subtree, or nothing where the node
itself does not count, then a walk gathers all that counts. -/
theorem gathered_eq_filterMap {f : Cursor → Option α} {c : Cursor}
    (hsome : ∀ d ∈ c.walk, ∀ found, result d = some found → found = d.walk.filterMap f)
    (hnone : ∀ d ∈ c.walk, result d = none → f d = none) :
    c.gathered result = c.walk.filterMap f := by
  induction c using induction_below with
  | step c ih =>
    rw [gathered_eq]
    cases hc : result c with
    | some found => exact hsome c (mem_walk_self c) found hc
    | none =>
      rw [walk_eq, List.filterMap_cons, hnone c (mem_walk_self c) hc, List.filterMap_flatMap]
      exact List.flatMap_congr fun d hd =>
        ih d hd (fun e he => hsome e (mem_walk_of_below hd he))
          (fun e he => hnone e (mem_walk_of_below hd he))

/-- Where nothing counts below a node that counts, it is all that counts there. -/
theorem filterMap_walk_of_below {f : Cursor → Option α} {c : Cursor} {a : α} (hc : f c = some a)
    (hbelow : ∀ d ∈ c.below, ∀ e ∈ d.walk, f e = none) : c.walk.filterMap f = [a] := by
  have hnil : (c.below.flatMap walk).filterMap f = [] := by
    rw [List.filterMap_eq_nil_iff]
    intro e he
    obtain ⟨d, hd, he⟩ := List.mem_flatMap.mp he
    exact hbelow d hd e he
  rw [walk_eq, List.filterMap_cons, hc, hnil]

variable {ε σ γ : Type} {visit : Cursor → Counting ε σ (Option (List α))} {view : σ → γ}

theorem gives_collectRow {cs : List Cursor}
    (h : ∀ c ∈ cs, Counting.Gives view (c.collect visit) (c.gathered result)) :
    Counting.Gives view (collectRow visit cs) (Id.run (collectRow (m := Id) result cs)) := by
  induction cs with
  | nil =>
    rw [collectRow_nil, collectRow_nil]
    exact .pure view []
  | cons c cs ih =>
    rw [List.forall_mem_cons] at h
    rw [collectRow_cons, collectRow_cons]
    exact h.1.bind ((ih h.2).bind (.pure view _))

/-- A walk whose visits give what is known beforehand gathers it, whatever the tally. -/
theorem gives_collect {c : Cursor} (h : ∀ d ∈ c.walk, Counting.Gives view (visit d) (result d)) :
    Counting.Gives view (c.collect visit) (c.gathered result) := by
  induction c using induction_below with
  | step c ih =>
    have hrow := gives_collectRow fun d hd => ih d hd fun e he => h e (mem_walk_of_below hd he)
    rw [gathered, collect_eq, collect_eq]
    refine (h c (mem_walk_self c)).bind ?_
    cases hc : result c with
    | some found => exact .pure view found
    | none => exact hrow

/-- A row that succeeds is a walk that does and then the others. -/
theorem exists_of_tallied_row {c : Cursor} {cs : List Cursor} {found : List α} {tally tally' : σ}
    (hrun : Counting.tallied (collectRow visit (c :: cs)) tally = (.ok found, tally')) :
    ∃ part others middle, found = part ++ others ∧
      Counting.tallied (c.collect visit) tally = (.ok part, middle) ∧
      Counting.tallied (collectRow visit cs) middle = (.ok others, tally') := by
  rw [collectRow_cons] at hrun
  obtain ⟨part, middle, hpart, hrun⟩ := Counting.exists_of_tallied_bind hrun
  obtain ⟨others, last, hothers, hrun⟩ := Counting.exists_of_tallied_bind hrun
  cases hrun
  exact ⟨part, others, middle, rfl, hpart, hothers⟩

theorem eq_of_tallied_collectRow {cs : List Cursor}
    (h : ∀ c ∈ cs, ∀ found tally tally', Counting.tallied (c.collect visit) tally = (.ok found, tally') →
      found = c.gathered result) {found : List α} {tally tally' : σ}
    (hrun : Counting.tallied (collectRow visit cs) tally = (.ok found, tally')) :
    found = Id.run (collectRow (m := Id) result cs) := by
  induction cs generalizing found tally with
  | nil =>
    rw [collectRow_nil] at hrun ⊢
    cases hrun
    rfl
  | cons c cs ih =>
    rw [List.forall_mem_cons] at h
    obtain ⟨first, others, middle, rfl, hfirst, hothers⟩ := exists_of_tallied_row hrun
    rw [h.1 _ _ _ hfirst, ih h.2 hothers, collectRow_cons]
    rfl

/-- A walk that succeeds, each of whose visits gives what is known beforehand if it
succeeds, gathers it. -/
theorem eq_of_tallied_collect {c : Cursor} {found : List α} {tally tally' : σ}
    (h : ∀ d ∈ c.walk, ∀ r tally tally',
      Counting.tallied (visit d) tally = (.ok r, tally') → r = result d)
    (hrun : Counting.tallied (c.collect visit) tally = (.ok found, tally')) :
    found = c.gathered result := by
  induction c using induction_below generalizing found tally tally' with
  | step c ih =>
    rw [collect_eq] at hrun
    obtain ⟨r, middle, hvisit, hrun⟩ := Counting.exists_of_tallied_bind hrun
    rw [h c (mem_walk_self c) _ _ _ hvisit] at hrun
    rw [gathered, collect_eq]
    cases hc : result c with
    | some first =>
      rw [hc] at hrun
      cases hrun
      simp [bind]
    | none =>
      rw [hc] at hrun
      simp only [bind]
      exact eq_of_tallied_collectRow (fun d hd found tally tally' =>
        ih d hd fun e he => h e (mem_walk_of_below hd he)) hrun

/-- What a row of subtrees gives comes from one of them. -/
theorem exists_of_mem_collectRow {cs : List Cursor} {found : List α} {tally tally' : σ}
    (hrun : Counting.tallied (collectRow visit cs) tally = (.ok found, tally')) {a : α}
    (ha : a ∈ found) :
    ∃ c ∈ cs, ∃ part first last, Counting.tallied (c.collect visit) first = (.ok part, last) ∧
      a ∈ part := by
  induction cs generalizing found tally with
  | nil =>
    rw [collectRow_nil] at hrun
    cases hrun
    cases ha
  | cons c cs ih =>
    obtain ⟨part, others, middle, rfl, hpart, hothers⟩ := exists_of_tallied_row hrun
    rcases List.mem_append.mp ha with ha | ha
    · exact ⟨c, List.mem_cons_self, part, _, _, hpart, ha⟩
    · obtain ⟨d, hd, h⟩ := ih hothers ha
      exact ⟨d, List.mem_cons_of_mem c hd, h⟩

/-- What one of a row of subtrees gives is among what the row gives. -/
theorem exists_part_of_collectRow {cs : List Cursor} {found : List α} {tally tally' : σ}
    (hrun : Counting.tallied (collectRow visit cs) tally = (.ok found, tally')) {d : Cursor}
    (hd : d ∈ cs) :
    ∃ part first last, Counting.tallied (d.collect visit) first = (.ok part, last) ∧
      ∀ a ∈ part, a ∈ found := by
  induction cs generalizing found tally with
  | nil => cases hd
  | cons c cs ih =>
    obtain ⟨part, others, middle, rfl, hpart, hothers⟩ := exists_of_tallied_row hrun
    rcases List.mem_cons.mp hd with rfl | hd
    · exact ⟨part, _, _, hpart, fun a ha => List.mem_append_left others ha⟩
    · obtain ⟨part', first, last, hpart', hmem⟩ := ih hothers hd
      exact ⟨part', first, last, hpart', fun a ha => List.mem_append_right part (hmem a ha)⟩

/-- If the visit of the first node gives nothing, what walks right below gather is among what
the walk gathers. -/
theorem exists_part_of_collect {c : Cursor} {found : List α} {tally tally' middle : σ}
    (hrun : Counting.tallied (c.collect visit) tally = (.ok found, tally'))
    (hvisit : Counting.tallied (visit c) tally = (.ok none, middle)) {d : Cursor}
    (hd : d ∈ c.below) :
    ∃ part first last, Counting.tallied (d.collect visit) first = (.ok part, last) ∧
      ∀ a ∈ part, a ∈ found := by
  rw [collect_eq, Counting.tallied_bind, hvisit] at hrun
  exact exists_part_of_collectRow hrun hd

/-- What a walk gathers comes from the visit of its first node or, if that gives nothing,
from a walk right below. -/
theorem exists_of_mem_collect {c : Cursor} {found : List α} {tally tally' : σ}
    (hrun : Counting.tallied (c.collect visit) tally = (.ok found, tally')) :
    ∃ r middle, Counting.tallied (visit c) tally = (.ok r, middle) ∧
      match r with
      | some first => found = first
      | none => ∀ a ∈ found, ∃ d ∈ c.below, ∃ part first last,
          Counting.tallied (d.collect visit) first = (.ok part, last) ∧ a ∈ part := by
  rw [collect_eq] at hrun
  obtain ⟨r, middle, hvisit, hrun⟩ := Counting.exists_of_tallied_bind hrun
  refine ⟨r, middle, hvisit, ?_⟩
  cases r with
  | some first =>
    cases hrun
    rfl
  | none => exact fun a ha => exists_of_mem_collectRow hrun ha

end

section

variable {α ε σ : Type} {visit : Cursor → Counting ε σ (Option (List α))}

/-! ### Failures and tallies -/

theorem exists_error_of_collectRow {cs : List Cursor} {tally tally' : σ} {e : ε}
    (hrun : Counting.tallied (collectRow visit cs) tally = (.error e, tally')) :
    ∃ c ∈ cs, ∃ first last, Counting.tallied (c.collect visit) first = (.error e, last) := by
  induction cs generalizing tally with
  | nil =>
    rw [collectRow_nil] at hrun
    cases hrun
  | cons c cs ih =>
    rw [collectRow_cons] at hrun
    rcases Counting.tallied_bind_eq_error hrun with hfirst | ⟨part, middle, -, hrun⟩
    · exact ⟨c, List.mem_cons_self, tally, tally', hfirst⟩
    · rcases Counting.tallied_bind_eq_error hrun with hothers | ⟨others, last, -, hrun⟩
      · obtain ⟨d, hd, h⟩ := ih hothers
        exact ⟨d, List.mem_cons_of_mem c hd, h⟩
      · cases hrun

/-- A walk fails only where one of its visits does. -/
theorem exists_error_of_collect {c : Cursor} {tally tally' : σ} {e : ε}
    (hrun : Counting.tallied (c.collect visit) tally = (.error e, tally')) :
    ∃ d ∈ c.walk, ∃ first last, Counting.tallied (visit d) first = (.error e, last) := by
  induction c using induction_below generalizing tally tally' with
  | step c ih =>
    rw [collect_eq] at hrun
    rcases Counting.tallied_bind_eq_error hrun with hvisit | ⟨r, middle, -, hrun⟩
    · exact ⟨c, mem_walk_self c, tally, tally', hvisit⟩
    · cases r with
      | some found => cases hrun
      | none =>
        obtain ⟨b, hb, first, last, hbelow⟩ := exists_error_of_collectRow hrun
        obtain ⟨d, hd, hfails⟩ := ih b hb hbelow
        exact ⟨d, mem_walk_of_below hb hd, hfails⟩

variable {measure : σ → Nat} {counted : Cursor → Bool}

theorem measure_of_collectRow {cs : List Cursor}
    (h : ∀ c ∈ cs, ∀ found tally tally', Counting.tallied (c.collect visit) tally = (.ok found, tally') →
      measure tally' = measure tally + c.walk.countP counted) {found : List α} {tally tally' : σ}
    (hrun : Counting.tallied (collectRow visit cs) tally = (.ok found, tally')) :
    measure tally' = measure tally + (cs.flatMap walk).countP counted := by
  induction cs generalizing found tally with
  | nil =>
    rw [collectRow_nil] at hrun
    cases hrun
    rfl
  | cons c cs ih =>
    rw [List.forall_mem_cons] at h
    obtain ⟨part, others, middle, rfl, hpart, hothers⟩ := exists_of_tallied_row hrun
    rw [List.flatMap_cons, List.countP_append, ih h.2 hothers, h.1 _ _ _ hpart, Nat.add_assoc]

/-- A walk that succeeds, each of whose visits counts its node or does not, and counts nothing below a
node for which something was found, counts all the nodes it may come to. -/
theorem measure_of_collect {c : Cursor}
    (h : ∀ d ∈ c.walk, ∀ r tally tally', Counting.tallied (visit d) tally = (.ok r, tally') →
      measure tally' = measure tally + (if counted d then 1 else 0) ∧
        (r.isSome = true → ∀ e ∈ d.below, ∀ x ∈ e.walk, counted x = false))
    {found : List α} {tally tally' : σ}
    (hrun : Counting.tallied (c.collect visit) tally = (.ok found, tally')) :
    measure tally' = measure tally + c.walk.countP counted := by
  induction c using induction_below generalizing found tally tally' with
  | step c ih =>
    rw [collect_eq] at hrun
    obtain ⟨r, middle, hvisit, hrun⟩ := Counting.exists_of_tallied_bind hrun
    obtain ⟨hcount, hnone⟩ := h c (mem_walk_self c) r tally middle hvisit
    rw [walk_eq, List.countP_cons]
    cases r with
    | some first =>
      cases hrun
      have hzero : (c.below.flatMap walk).countP counted = 0 := by
        rw [List.countP_eq_zero]
        intro x hx
        obtain ⟨e, he, hx⟩ := List.mem_flatMap.mp hx
        simp [hnone rfl e he x hx]
      rw [hcount, hzero]
      omega
    | none =>
      have hrow := measure_of_collectRow (fun d hd found tally tally' =>
        ih d hd fun e he => h e (mem_walk_of_below hd he)) hrun
      rw [hrow, hcount]
      omega

end

end Syntax.Cursor

end Unproxy
