import Mathlib
import Unproxy.Proofs.Syntax.Walk

/-!
# Unproxy.Proofs.Syntax.Traversal

What the walks with a stack come to, and in which order, said without a stack. A node is known by its
address, the positions of the children on the way down to it, since two nodes of a tree may look the
same. Addresses are compared like words in a dictionary, which puts a parent before its children and
the children from left to right.

Main definitions:

* `Cursor.at?`: the node at an address;
* `Cursor.places`: the named nodes of a subtree with their addresses;
* `Cursor.isOpen`: no visit of a node further up gave a list;
* `Cursor.Visits`, `Cursor.Traversed`: visits one after the other, and what a traversal does.

Main statements:

* `Cursor.mem_places`, `Cursor.pairwise_places`: every named node has its place, once and in order;
* `Cursor.traversed_collect`: which nodes are visited, in which order, and what is gathered;
* `Cursor.traversals_of_tree`: the two walks are what the recursions on the tree are.
-/

namespace Unproxy.Syntax.Cursor

/-! ### Places -/

/-- A node with its address. -/
abbrev Place := List Nat × Cursor

/-- The node at an address below a cursor. -/
def at? : List Nat → Cursor → Option Cursor
  | [], c => some c
  | i :: address, c => (c.below[i]?).bind (at? address)

/-- A place below a child, seen from its parent. -/
def under (i : Nat) (place : Place) : Place := (i :: place.1, place.2)

/-- The named nodes below a cursor with their addresses, the node itself first. -/
def places (c : Cursor) : List Place :=
  ([], c) :: c.below.zipIdx.attach.flatMap fun entry => (places entry.1.1).map (under entry.1.2)
termination_by sizeOf c.node
decreasing_by exact sizeOf_lt_of_below (List.fst_mem_of_mem_zipIdx entry.2)

/-- The named nodes of a row of subtrees, the first of which has the given position. -/
def placesRow (first : Nat) (cs : List Cursor) : List Place :=
  (cs.zipIdx first).flatMap fun entry => (places entry.1).map (under entry.2)

theorem places_eq (c : Cursor) : c.places = ([], c) :: placesRow 0 c.below := by
  rw [places, placesRow]
  conv_rhs => rw [← List.attach_map_subtype_val c.below.zipIdx, List.flatMap_map]

theorem placesRow_cons (first : Nat) (c : Cursor) (cs : List Cursor) :
    placesRow first (c :: cs) = c.places.map (under first) ++ placesRow (first + 1) cs := rfl

theorem mem_placesRow {cs : List Cursor} {first : Nat} {place : Place} :
    place ∈ placesRow first cs ↔ ∃ i c below, first ≤ i ∧ cs[i - first]? = some c ∧
      below ∈ c.places ∧ under i below = place := by
  simp only [placesRow, List.mem_flatMap, Prod.exists, List.mk_mem_zipIdx_iff_le_and_getElem?_sub,
    List.mem_map]
  constructor
  · rintro ⟨c, i, ⟨hfirst, hc⟩, p, d, hplace, heq⟩
    exact ⟨i, c, p, d, hfirst, hc, hplace, heq⟩
  · rintro ⟨i, c, p, d, hfirst, hc, hplace, heq⟩
    exact ⟨c, i, ⟨hfirst, hc⟩, p, d, hplace, heq⟩

/-- The addresses in a row begin with the position of their subtree. -/
theorem exists_head_of_mem_placesRow {cs : List Cursor} {first : Nat} {place : Place}
    (h : place ∈ placesRow first cs) : ∃ i p, place.1 = i :: p ∧ first ≤ i := by
  obtain ⟨i, c, below, hfirst, -, -, rfl⟩ := mem_placesRow.mp h
  exact ⟨i, below.1, rfl, hfirst⟩

/-- The places are the addresses at which a node is. -/
theorem mem_places {p : List Nat} {c d : Cursor} : (p, d) ∈ c.places ↔ c.at? p = some d := by
  induction c using induction_below generalizing p with
  | step c ih =>
    rw [places_eq, List.mem_cons, mem_placesRow]
    cases p with
    | nil =>
      constructor
      · rintro (heq | ⟨i, b, below, -, -, -, heq⟩)
        · cases heq
          rfl
        · cases heq
      · intro h
        cases h
        exact .inl rfl
    | cons i p =>
      rw [at?, Option.bind_eq_some_iff]
      constructor
      · rintro (heq | ⟨j, b, below, -, hb, hplace, heq⟩)
        · cases heq
        · cases heq
          exact ⟨b, hb, (ih b (List.mem_of_getElem? hb)).mp hplace⟩
      · rintro ⟨b, hb, hat⟩
        exact .inr ⟨i, b, (p, d), Nat.zero_le i, hb, (ih b (List.mem_of_getElem? hb)).mpr hat, rfl⟩

theorem pairwise_placesRow {cs : List Cursor} (h : ∀ c ∈ cs, c.places.Pairwise fun a b => a.1 < b.1)
    (first : Nat) : (placesRow first cs).Pairwise fun a b => a.1 < b.1 := by
  induction cs generalizing first with
  | nil => exact .nil
  | cons c cs ih =>
    rw [List.forall_mem_cons] at h
    rw [placesRow_cons, List.pairwise_append, List.pairwise_map]
    refine ⟨h.1.imp fun hlt => ?_, ih h.2 _, fun a ha b hb => ?_⟩
    · exact List.cons_lt_cons_iff.mpr (.inr ⟨rfl, hlt⟩)
    · obtain ⟨below, -, rfl⟩ := List.mem_map.mp ha
      obtain ⟨i, p, hb, hi⟩ := exists_head_of_mem_placesRow hb
      rw [hb]
      exact List.cons_lt_cons_iff.mpr (.inl hi)

/-- The places come in the order of their addresses, none twice. -/
theorem pairwise_places (c : Cursor) : c.places.Pairwise fun a b => a.1 < b.1 := by
  induction c using induction_below with
  | step c ih =>
    rw [places_eq, List.pairwise_cons]
    refine ⟨fun b hb => ?_, pairwise_placesRow ih 0⟩
    obtain ⟨i, p, hb, -⟩ := exists_head_of_mem_placesRow hb
    rw [hb]
    exact List.nil_lt_cons i p

theorem map_placesRow {cs : List Cursor} (h : ∀ c ∈ cs, c.places.map Prod.snd = c.walk) (first : Nat) :
    (placesRow first cs).map Prod.snd = cs.flatMap walk := by
  induction cs generalizing first with
  | nil => rfl
  | cons c cs ih =>
    rw [List.forall_mem_cons] at h
    rw [placesRow_cons, List.map_append, List.map_map, ih h.2, List.flatMap_cons, ← h.1]
    rfl

/-- A walk comes to the nodes at the places, one after the other. -/
theorem map_places (c : Cursor) : c.places.map Prod.snd = c.walk := by
  induction c using induction_below with
  | step c ih => rw [places_eq, walk_eq, List.map_cons, map_placesRow ih]

/-! ### Visits -/

section

variable {ε σ α : Type} {visit : Cursor → Counting ε σ (Option (List α))}
  {answers : List Nat → Option (List α)}

/-- Whether no node further up gave a list, if the answers are what the nodes at the addresses give. -/
def isOpen (answers : List Nat → Option (List α)) (address : List Nat) : Bool :=
  address.inits.dropLast.all fun above => (answers above).isNone

/-- The places above which no node gave a list. -/
def opened (answers : List Nat → Option (List α)) (places : List Place) : List Place :=
  places.filter fun place => isOpen answers place.1

/-- What the nodes at the places give, put together. -/
def given (answers : List Nat → Option (List α)) (places : List Place) : List α :=
  places.flatMap fun place => (answers place.1).getD []

variable (visit) in
/-- Visits one after the other that give the answers. Each goes on from the tally that the one before
it left. -/
inductive Visits (answers : List Nat → Option (List α)) : σ → List Place → σ → Prop
  | nil (tally : σ) : Visits answers tally [] tally
  | cons {tally middle last : σ} (place : Place) {places : List Place}
      (call : Counting.tallied (visit place.2) tally = (.ok (answers place.1), middle))
      (rest : Visits answers middle places last) : Visits answers tally (place :: places) last

variable (visit) in
/-- What comes of visiting, in their order, just those places above which no visit gave a list. Either
all these visits succeed and what they give is put together, or one of them fails and is the last. -/
inductive Traversed (answers : List Nat → Option (List α)) (places : List Place) (tally : σ) :
    Except ε (List α) × σ → Prop
  | done {last : σ} (visits : Visits visit answers tally (opened answers places) last) :
      Traversed answers places tally (.ok (given answers (opened answers places)), last)
  | failed {before after : List Place} {place : Place} {middle last : σ} {e : ε}
      (order : opened answers places = before ++ place :: after)
      (visits : Visits visit answers tally before middle)
      (fails : Counting.tallied (visit place.2) middle = (.error e, last)) :
      Traversed answers places tally (.error e, last)

theorem Visits.append {tally middle last : σ} {places others : List Place}
    (h : Visits visit answers tally places middle) (h' : Visits visit answers middle others last) :
    Visits visit answers tally (places ++ others) last := by
  induction h with
  | nil => exact h'
  | cons place call rest ih => exact .cons place call (ih h')

/-- The same nodes may be visited under other addresses, if the answers are the same. -/
theorem Visits.map {answers' : List Nat → Option (List α)} {tally last : σ} {places : List Place}
    (h : Visits visit answers tally places last) {f : Place → Place}
    (hf : ∀ place ∈ places, (f place).2 = place.2 ∧ answers' (f place).1 = answers place.1) :
    Visits visit answers' tally (places.map f) last := by
  induction h with
  | nil => exact .nil _
  | cons place call rest ih =>
    rw [List.forall_mem_cons] at hf
    exact .cons (f place) (by rw [hf.1.1, hf.1.2, call]) (ih hf.2)

theorem given_map {answers' : List Nat → Option (List α)} {places : List Place} {f : Place → Place}
    (hf : ∀ place ∈ places, (f place).2 = place.2 ∧ answers' (f place).1 = answers place.1) :
    given answers' (places.map f) = given answers places := by
  rw [given, List.flatMap_map]
  exact List.flatMap_congr fun place hplace => by rw [(hf place hplace).2]

theorem opened_root (answers : List Nat → Option (List α)) (c : Cursor) (row : List Place) :
    opened answers (([], c) :: row) = ([], c) :: opened answers row :=
  List.filter_cons_of_pos rfl

theorem isOpen_cons (answers : List Nat → Option (List α)) (i : Nat) (p : List Nat) :
    isOpen answers (i :: p) = ((answers []).isNone && isOpen (fun q => answers (i :: q)) p) := by
  have hne : p.inits.map (i :: ·) ≠ [] := by cases p <;> simp
  rw [isOpen, isOpen, List.inits_cons, List.dropLast_cons_of_ne_nil hne, ← List.map_dropLast,
    List.all_cons, List.all_map]
  rfl

/-- The answers of one child and of those further to the right. -/
def beside (first : Nat) (f g : List Nat → Option (List α)) : List Nat → Option (List α)
  | [] => none
  | i :: p => if i = first then f p else g (i :: p)

section

variable {first : Nat} {f g : List Nat → Option (List α)}

theorem beside_under (place : Place) : beside first f g (under first place).1 = f place.1 :=
  if_pos rfl

theorem beside_of_lt {place : Place} (h : ∃ j p, place.1 = j :: p ∧ first < j) :
    beside first f g place.1 = g place.1 := by
  obtain ⟨j, p, hp, hj⟩ := h
  rw [hp]
  exact if_neg (by omega)

/-- The answers below one child decide about the places there, and those further to the right about the
places further to the right. -/
theorem opened_beside (hg : g [] = none) {row : List Place}
    (hrow : ∀ place ∈ row, ∃ j p, place.1 = j :: p ∧ first < j) (places : List Place) :
    opened (beside first f g) (places.map (under first) ++ row) =
      (opened f places).map (under first) ++ opened g row := by
  rw [opened, List.filter_append, List.filter_map]
  congr 1
  · refine congrArg _ (List.filter_congr fun place _ => ?_)
    show isOpen _ (first :: place.1) = _
    rw [isOpen_cons]
    exact congrArg (isOpen · place.1) (funext fun q => if_pos rfl)
  · refine List.filter_congr fun place hplace => ?_
    obtain ⟨j, p, hp, hj⟩ := hrow place hplace
    rw [hp, isOpen_cons, isOpen_cons, hg]
    exact congrArg (isOpen · p) (funext fun q => if_neg (by omega))

end

/-- The visits of a row are those of its subtrees one after the other. -/
theorem traversed_row {cs : List Cursor}
    (h : ∀ c ∈ cs, ∀ tally, ∃ answers,
      Traversed visit answers c.places tally (Counting.tallied (c.collect visit) tally))
    (first : Nat) (tally : σ) :
    ∃ answers, answers [] = none ∧ Traversed visit answers (placesRow first cs) tally
      (Counting.tallied (collectRow visit cs) tally) := by
  induction cs generalizing first tally with
  | nil =>
    rw [collectRow_nil]
    exact ⟨fun _ => none, rfl, .done (.nil tally)⟩
  | cons c cs ih =>
    rw [List.forall_mem_cons] at h
    have hrow : ∀ place ∈ placesRow (first + 1) cs, ∃ j p, place.1 = j :: p ∧ first < j :=
      fun place hplace => exists_head_of_mem_placesRow hplace
    have hunder : ∀ {f g : List Nat → Option (List α)} {ps : List Place},
        ∀ place ∈ ps, (under first place).2 = place.2 ∧
          beside first f g (under first place).1 = f place.1 := fun place _ =>
      ⟨rfl, beside_under place⟩
    obtain ⟨f, hfirst⟩ := h.1 tally
    rw [placesRow_cons, collectRow_cons, Counting.tallied_bind]
    generalize Counting.tallied (c.collect visit) tally = outcome at hfirst ⊢
    cases hfirst with
    | @failed before after place _ _ _ order visits fails =>
      have horder := opened_beside rfl hrow c.places (f := f) (g := fun _ => none)
      rw [order, List.map_append, List.append_assoc] at horder
      exact ⟨_, rfl, .failed horder (visits.map hunder) fails⟩
    | @done middle visits =>
      obtain ⟨g, hg, hothers⟩ := ih h.2 (first + 1) middle
      have horder := opened_beside hg hrow c.places (f := f)
      have hbeside : ∀ {ps : List Place}, (∀ place ∈ ps, place ∈ opened g _) → ∀ place ∈ ps,
          (id place).2 = place.2 ∧ beside first f g (id place).1 = g place.1 :=
        fun hps place hplace =>
          ⟨rfl, beside_of_lt (hrow place (List.mem_filter.mp (hps place hplace)).1)⟩
      refine ⟨beside first f g, rfl, ?_⟩
      dsimp only
      rw [Counting.tallied_bind]
      generalize Counting.tallied (collectRow visit cs) middle = outcome at hothers ⊢
      cases hothers with
      | failed order visits' fails =>
        have hvisits := visits'.map (hbeside fun a ha => order ▸ List.mem_append_left _ ha)
        rw [order, ← List.append_assoc] at horder
        rw [List.map_id] at hvisits
        exact .failed horder ((visits.map hunder).append hvisits) fails
      | done visits' =>
        have hvisits := visits'.map (hbeside fun a ha => ha)
        have hgiven := given_map (hbeside fun a ha => ha)
        rw [List.map_id] at hvisits hgiven
        have hdone := Traversed.done (horder ▸ (visits.map hunder).append hvisits)
        rw [horder, given, List.flatMap_append, ← given, ← given, given_map hunder,
          hgiven] at hdone
        exact hdone

/-- Which nodes a walk visits, in which order, and what it gathers. -/
theorem traversed_collect (c : Cursor) (tally : σ) :
    ∃ answers, Traversed visit answers c.places tally (Counting.tallied (c.collect visit) tally) := by
  induction c using induction_below generalizing tally with
  | step c ih =>
    have hrow := fun tally => traversed_row (fun d hd => ih d hd) 0 tally
    have hbelow : ∀ place ∈ placesRow 0 c.below, ∃ i p, place.1 = i :: p := fun place hplace =>
      (exists_head_of_mem_placesRow hplace).imp fun i => .imp fun p => And.left
    rw [places_eq, collect_eq, Counting.tallied_bind]
    generalize placesRow 0 c.below = row at hrow hbelow ⊢
    rcases hvisit : Counting.tallied (visit c) tally with ⟨e | answer, middle⟩
    · have horder : _ = [] ++ ([], c) :: _ := opened_root (fun _ => (none : Option (List α))) c row
      exact ⟨_, .failed horder (.nil tally) hvisit⟩
    · cases answer with
      | some found =>
        -- Everything further down is below a node that gave a list.
        let answers := fun p : List Nat => if p = [] then some found else none
        have hopened : opened answers (([], c) :: row) = [([], c)] := by
          rw [opened_root, opened, List.filter_eq_nil_iff.mpr]
          intro place hplace
          obtain ⟨i, p, hp⟩ := hbelow place hplace
          simp [answers, hp, isOpen_cons]
        have hvisits : Visits visit answers tally [([], c)] middle :=
          .cons ([], c) hvisit (.nil middle)
        rw [← hopened] at hvisits
        have hdone := Traversed.done hvisits
        rw [hopened, given, List.flatMap_singleton] at hdone
        exact ⟨answers, hdone⟩
      | none =>
        obtain ⟨answers, hnone, hlist⟩ := hrow middle
        have horder := opened_root answers c row
        rw [← hnone] at hvisit
        refine ⟨answers, ?_⟩
        dsimp only
        generalize Counting.tallied (collectRow visit _) middle = outcome at hlist ⊢
        cases hlist with
        | failed order visits fails =>
          rw [order, ← List.cons_append] at horder
          exact .failed horder (.cons ([], c) hvisit visits) fails
        | done visits =>
          have hvisits := Visits.cons ([], c) hvisit visits
          rw [← horder] at hvisits
          have hdone := Traversed.done hvisits
          rw [horder, given, List.flatMap_cons, hnone] at hdone
          exact hdone

theorem collectRow_eq_mapM (visit : Cursor → Counting ε σ (Option (List α))) (cs : List Cursor) :
    collectRow visit cs = List.flatten <$> cs.mapM (collect visit) := by
  induction cs with
  | nil => rw [collectRow_nil, List.mapM_nil, map_pure, List.flatten_nil]
  | cons c cs ih =>
    rw [collectRow_cons, ih, List.mapM_cons]
    simp only [map_bind, bind_map_left, map_pure, List.flatten_cons]

end

/-- The walks that keep a stack are the recursive ones. A walk comes to every named node once, a parent
before its children and these from left to right; and a walk that visits nodes, whatever state the
visits keep and whether they fail or not, visits just the nodes above which no visit gave a list, once
each and in that order, and puts together what the visits give. -/
theorem traversals_of_tree (root : Tree) :
    let c := ofRoot root
    c.walk = c.places.map Prod.snd ∧ root.preorder = c.places.map (·.2.node) ∧
      (∀ p d, (p, d) ∈ c.places ↔ c.at? p = some d) ∧
      c.places.Pairwise (fun a b => a.1 < b.1) ∧
      (∀ d : Cursor, d.walk = d :: d.below.flatMap walk) ∧
      ∀ {ε σ α : Type} (visit : Cursor → Counting ε σ (Option (List α))),
        (∀ d : Cursor, d.collect visit = visit d >>= fun answer =>
          answer.elim (List.flatten <$> d.below.mapM (collect visit)) pure) ∧
        ∀ tally, ∃ answers,
          Traversed visit answers c.places tally (Counting.tallied (c.collect visit) tally) := by
  intro c
  refine ⟨(map_places c).symm, ?_, fun p d => mem_places, pairwise_places c, walk_eq,
    fun visit => ⟨fun d => ?_, fun tally => traversed_collect c tally⟩⟩
  · rw [Tree.preorder, ← map_places, List.map_map]
    rfl
  · rw [collect_eq, ← collectRow_eq_mapM]
    refine bind_congr fun answer => ?_
    cases answer <;> rfl

end Unproxy.Syntax.Cursor
