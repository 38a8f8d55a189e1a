import Mathlib
import Unproxy.Proofs.Alias.Action

/-!
# Unproxy.Proofs.Alias.Termination

Putting aliases in place comes to an end, also where aliases stand for each other or for
themselves.

A visit leads on to the nodes below, or to another expression that may be larger than the node
it is scanned for. Then, however, one more alias is under way. So the pair of how many aliases
may still come under way and the size of the node becomes smaller from visit to visit.

Main definitions:

* `Alias.Visit`: a visit with the reads that are being replaced meanwhile;
* `Alias.Visit.next`, `Alias.Visit.all`: the visits it leads to right away, and all of them;
* `Alias.Visit.Accounted`: what is true of every visit of a scan;
* `Alias.Visit.Ran`: visits that succeed one after the other, and what they count.

Main statements:

* `Alias.Visit.wellFounded_next`: visits do not lead on forever;
* `Alias.Visit.Accounted.next`, `Alias.Visit.accounted_of_mem_all`: one visit and all visits;
* `Alias.Visit.ran_of_collect`: what a scan counts is counted by its visits;
* `Alias.expansion_terminates`: all of it together.
-/

namespace Unproxy

open Syntax

namespace Syntax.Cursor

/-- The way up from a node, the node itself first. -/
def path (c : Cursor) : List Tree := c.node :: c.ancestors

/-- The node is the other one, or the way up from it leads through the other. -/
def IsIn (c d : Cursor) : Prop := d.path <:+ c.path

theorem IsIn.refl (c : Cursor) : c.IsIn c := List.suffix_refl _

theorem IsIn.trans {c d e : Cursor} (h : c.IsIn d) (h' : d.IsIn e) : c.IsIn e :=
  List.IsSuffix.trans h' h

theorem isIn_of_ancestors {c d : Cursor} (h : d.ancestors = c.path) : d.IsIn c := by
  show c.path <:+ d.node :: d.ancestors
  rw [h]
  exact List.suffix_cons _ _

theorem isIn_of_below {c d : Cursor} (h : d ∈ c.below) : d.IsIn c :=
  isIn_of_ancestors (mem_below.mp h).2.2

theorem isIn_of_child? {c d : Cursor} {role : Role} (h : c.child? role = some d) : d.IsIn c := by
  obtain ⟨t, -, rfl⟩ := Option.map_eq_some_iff.mp h
  exact isIn_of_ancestors rfl

end Syntax.Cursor

namespace Alias

/-! ### Visits that lead to visits -/

/-- A visit of a node. `chain` holds the reads that are being replaced meanwhile, each with its
alias and the latest first; `active` holds the aliases whose replacement or assignment is under
way. -/
structure Visit where
  chain : List (Text × Cursor)
  active : List Text
  node : Cursor

namespace Visit

/-- The visit with which the scan of a program begins. -/
def first (root : Tree) : Visit := ⟨[], [], Cursor.ofRoot root⟩

/-- The visits that a visit leads to right away: of the expression that it enters, or else of
the nodes below. A visit that fails leads nowhere. -/
def next (s : Setting) (v : Visit) : List Visit :=
  match s.action v.active v.node with
  | .error _ => []
  | .ok (.assign key right) => [⟨v.chain, key :: v.active, right⟩]
  | .ok (.replace key right) => [⟨(key, v.node) :: v.chain, key :: v.active, right⟩]
  | .ok _ => v.node.below.map fun d => { v with node := d }

variable {s : Setting}

/-- All that a visit can lead to right away. -/
theorem next_cases {v w : Visit} (h : w ∈ v.next s) :
    (∃ d ∈ v.node.below, w = { v with node := d }) ∨
      (∃ key right, s.action v.active v.node = .ok (.assign key right) ∧
        w = ⟨v.chain, key :: v.active, right⟩) ∨
      ∃ key right, s.action v.active v.node = .ok (.replace key right) ∧
        w = ⟨(key, v.node) :: v.chain, key :: v.active, right⟩ := by
  unfold next at h
  split at h
  · cases h
  · rename_i key right haction
    exact .inr (.inl ⟨key, right, haction, List.mem_singleton.mp h⟩)
  · rename_i key right haction
    exact .inr (.inr ⟨key, right, haction, List.mem_singleton.mp h⟩)
  · obtain ⟨d, hd, rfl⟩ := List.mem_map.mp h
    exact .inl ⟨d, hd, rfl⟩

theorem next_of_entered_none {v : Visit} {action : Action}
    (h : s.action v.active v.node = .ok action) (hentered : action.entered = none) :
    v.next s = v.node.below.map fun d => { v with node := d } := by
  cases action with
  | pass => simp only [next, h]
  | write => simp only [next, h]
  | leave => simp only [next, h]
  | assign key right => cases hentered
  | replace key right => cases hentered

/-- How much there is to do from a visit on: the aliases that may still come under way, and the
size of the node. -/
def rank (s : Setting) (v : Visit) : Nat × Nat :=
  ((s.pending v.active v.node.node).card, v.node.node.size)

/-- Entering an expression leaves fewer aliases that may come under way, and going on below
leaves no more of them and a smaller node. -/
theorem rank_lt_of_next {v w : Visit} (h : w ∈ v.next s) :
    Prod.Lex (· < ·) (· < ·) (w.rank s) (v.rank s) := by
  rcases next_cases h with ⟨d, hd, rfl⟩ | ⟨key, right, haction, rfl⟩ | ⟨key, right, haction, rfl⟩
  · have hmem := Cursor.node_mem_nodes (Cursor.mem_walk_of_below hd (Cursor.mem_walk_self d))
    have hsize := Tree.size_lt_of_mem_children (Cursor.mem_below.mp hd).1
    exact Prod.Lex.right' _ (Setting.card_pending_le hmem) hsize
  · exact .left _ _ (Setting.card_pending_lt_of_action haction rfl)
  · exact .left _ _ (Setting.card_pending_lt_of_action haction rfl)

/-- Visits do not lead on forever. -/
theorem wellFounded_next (s : Setting) : WellFounded fun w v : Visit => w ∈ v.next s :=
  Subrelation.wf (fun h => rank_lt_of_next h)
    (InvImage.wf (rank s) (WellFounded.prod_lex wellFounded_lt wellFounded_lt))

/-- All visits from a visit on, in the order in which they are made. -/
def all (s : Setting) (v : Visit) : List Visit :=
  v :: (v.next s).attach.flatMap fun w => all s w.1
termination_by v.rank s
decreasing_by exact rank_lt_of_next w.2

theorem all_eq (s : Setting) (v : Visit) : v.all s = v :: (v.next s).flatMap (all s) := by
  rw [all, List.flatMap_subtype (fun w _ => rfl), List.unattach_attach]

theorem mem_all_self (s : Setting) (v : Visit) : v ∈ v.all s := by
  rw [all_eq]
  exact List.mem_cons_self

theorem mem_all {v w : Visit} : w ∈ v.all s ↔ w = v ∨ ∃ u ∈ v.next s, w ∈ u.all s := by
  rw [all_eq, List.mem_cons, List.mem_flatMap]

theorem mem_all_of_next {u v w : Visit} (hu : u ∈ v.next s) (hw : w ∈ u.all s) : w ∈ v.all s :=
  mem_all.mpr (.inr ⟨u, hu, hw⟩)

/-- What every visit hands on to those it leads to is true of all visits. -/
theorem forall_mem_all {P : Visit → Prop} (step : ∀ v w, P v → w ∈ v.next s → P w) {v w : Visit}
    (hv : P v) (hw : w ∈ v.all s) : P w := by
  induction v using (wellFounded_next s).induction with
  | h v ih =>
    rcases mem_all.mp hw with rfl | ⟨u, hu, hw⟩
    · exact hv
    · exact ih u hu (step v u hv hu) hw

theorem mem_all_trans {u v w : Visit} (hu : u ∈ v.all s) (hw : w ∈ u.all s) : w ∈ v.all s := by
  induction v using (wellFounded_next s).induction with
  | h v ih =>
    rcases mem_all.mp hu with rfl | ⟨b, hb, hu⟩
    · exact hw
    · exact mem_all_of_next hb (ih b hb hu)

/-! ### What is under way -/

/-- The node, or a read that is being replaced meanwhile, stands in an expression assigned to
the alias. -/
def IsAssigned (s : Setting) (v : Visit) (key : Text) : Prop :=
  ∃ place ∈ v.node :: v.chain.map Prod.snd, ∃ d right, Assigns s.scheme d key right ∧
    place.IsIn right

/-- The reads that are being replaced are of different aliases of the program, and whatever is
under way is one of these or is being assigned. -/
structure Accounted (s : Setting) (v : Visit) : Prop where
  nodup : (v.chain.map Prod.fst).Nodup
  known : v.chain.map Prod.fst ⊆ s.aliases.keys
  chain_active : v.chain.map Prod.fst ⊆ v.active
  active_chain : ∀ key ∈ v.active, key ∈ v.chain.map Prod.fst ∨ v.IsAssigned s key

theorem accounted_first (s : Setting) (root : Tree) : (first root).Accounted s where
  nodup := List.nodup_nil
  known := List.nil_subset _
  chain_active := List.nil_subset _
  active_chain _ h := absurd h List.not_mem_nil

/-- Further inside, what is assigned around stays assigned around. -/
theorem IsAssigned.mono {v w : Visit} {key : Text} (h : v.IsAssigned s key)
    (hnode : w.node.IsIn v.node ∨ v.node ∈ w.chain.map Prod.snd)
    (hchain : v.chain.map Prod.snd ⊆ w.chain.map Prod.snd) : w.IsAssigned s key := by
  obtain ⟨place, hplace, d, right, ha, hin⟩ := h
  rcases List.mem_cons.mp hplace with rfl | hplace
  · rcases hnode with hnode | hnode
    · exact ⟨w.node, List.mem_cons_self, d, right, ha, hnode.trans hin⟩
    · exact ⟨v.node, List.mem_cons_of_mem _ hnode, d, right, ha, hin⟩
  · exact ⟨place, List.mem_cons_of_mem _ (hchain hplace), d, right, ha, hin⟩

/-- One visit hands on what is known of it. -/
theorem Accounted.next {v w : Visit} (h : v.Accounted s) (hw : w ∈ v.next s) : w.Accounted s := by
  rcases next_cases hw with ⟨d, hd, rfl⟩ | ⟨key, right, haction, rfl⟩ | ⟨key, right, haction, rfl⟩
  · -- Going on below changes the node only.
    have hin := Cursor.isIn_of_below hd
    refine ⟨h.nodup, h.known, h.chain_active, fun key hkey => ?_⟩
    exact (h.active_chain key hkey).imp_right fun ha => ha.mono (.inl hin) (List.Subset.refl _)
  · -- The alias that comes under way is the target of the assignment around the expression.
    obtain ⟨ha, -⟩ := Setting.suits_of_action haction
    have hin : right.IsIn v.node := Cursor.isIn_of_child? ha.source
    refine ⟨h.nodup, h.known, List.subset_cons_of_subset _ h.chain_active, fun other hother => ?_⟩
    rcases List.mem_cons.mp hother with rfl | hother
    · exact .inr ⟨right, List.mem_cons_self, v.node, right, ha, .refl right⟩
    · exact (h.active_chain other hother).imp_right fun ha =>
        ha.mono (.inl hin) (List.Subset.refl _)
  · -- The alias that comes under way was not under way before, so it is not on the chain.
    obtain ⟨hreads, hright, hactive⟩ := Setting.suits_of_action haction
    refine ⟨?_, ?_, ?_, fun other hother => ?_⟩
    · exact List.nodup_cons.mpr ⟨fun hkey => hactive (h.chain_active hkey), h.nodup⟩
    · exact List.cons_subset.mpr ⟨Entries.mem_keys_of_get? hright, h.known⟩
    · exact List.cons_subset_cons key h.chain_active
    · rcases List.mem_cons.mp hother with rfl | hother
      · exact .inl List.mem_cons_self
      · refine (h.active_chain other hother).imp (List.mem_cons_of_mem _) fun ha => ?_
        exact ha.mono (.inr List.mem_cons_self) (List.subset_cons_self _ _)

theorem accounted_of_mem_all {root : Tree} {v : Visit} (h : v ∈ (first root).all s) :
    v.Accounted s :=
  forall_mem_all (fun _ _ hv hw => hv.next hw) (accounted_first s root) h

/-- No more reads are being replaced at a time than there are aliases. -/
theorem Accounted.length_le {v : Visit} (h : v.Accounted s) :
    v.chain.length ≤ s.aliases.length := by
  have hle := (h.nodup.subperm h.known).length_le
  rwa [List.length_map, Entries.keys, List.length_map] at hle

/-! ### What is counted -/

/-- Whether a visit is of a read that stays, because its alias is under way. -/
def isLeft (s : Setting) (v : Visit) : Bool :=
  match v.node.node.aliasKey s.scheme with
  | .ok (some key) => !v.node.isWritten && s.aliases.has key && v.active.contains key
  | _ => false

theorem isLeft_iff {v : Visit} :
    v.isLeft s = true ↔ ∃ key ∈ s.aliases.keys, Reads s.scheme v.node key ∧ key ∈ v.active := by
  unfold isLeft
  constructor
  · intro h
    split at h
    · rename_i key hname
      simp only [Bool.and_eq_true, Bool.not_eq_true', List.contains_iff_mem] at h
      exact ⟨key, Entries.has_iff.mp h.1.2, ⟨hname, h.1.1⟩, h.2⟩
    · cases h
  · rintro ⟨key, hkey, hreads, hactive⟩
    rw [hreads.name]
    simp [hreads.unwritten, Entries.has_iff.mpr hkey, hactive]

/-- Visits that succeed one after the other, and what they make of a tally. -/
inductive Ran (s : Setting) : List Visit → Tally → Tally → Prop
  | nil {tally : Tally} : Ran s [] tally tally
  | cons {v : Visit} {vs : List Visit} {action : Action} {tally tally' : Tally}
      (decided : s.action v.active v.node = .ok action)
      (rest : Ran s vs (action.counted tally) tally') : Ran s (v :: vs) tally tally'

theorem Ran.append {vs ws : List Visit} {first middle last : Tally} (h : Ran s vs first middle)
    (h' : Ran s ws middle last) : Ran s (vs ++ ws) first last := by
  induction h with
  | nil => exact h'
  | cons decided rest ih => exact .cons decided (ih h')

theorem Ran.exists_action {vs : List Visit} {tally tally' : Tally} (h : Ran s vs tally tally')
    {v : Visit} (hv : v ∈ vs) : ∃ action, s.action v.active v.node = .ok action := by
  induction h with
  | nil => cases hv
  | cons decided rest ih =>
    rcases List.mem_cons.mp hv with rfl | hv
    · exact ⟨_, decided⟩
    · exact ih hv

/-- A visit counts a cycle if it leaves a read of an alias under way, and only then. -/
theorem cycles_counted {v : Visit} {action : Action} (h : s.action v.active v.node = .ok action)
    (tally : Tally) :
    (action.counted tally).cycles = tally.cycles + if v.isLeft s then 1 else 0 := by
  have hsuits := Setting.suits_of_action h
  by_cases hleft : v.isLeft s = true
  · obtain ⟨key, hkey, hreads, hactive⟩ := isLeft_iff.mp hleft
    obtain ⟨right, hright⟩ := Entries.exists_get?_of_mem_keys hkey
    rw [Setting.action_of_reads hreads hright, if_pos (List.contains_iff_mem.mpr hactive)] at h
    cases h
    rw [if_pos hleft]
    rfl
  · rw [if_neg hleft]
    cases action with
    | pass => rfl
    | write => rfl
    | leave => exact absurd (isLeft_iff.mpr hsuits) hleft
    | assign key right => rfl
    | replace key right => rfl

theorem Ran.cycles {vs : List Visit} {tally tally' : Tally} (h : Ran s vs tally tally') :
    tally'.cycles = tally.cycles + vs.countP (isLeft s) := by
  induction h with
  | nil => rfl
  | cons decided rest ih => rw [ih, cycles_counted decided, List.countP_cons]; omega

theorem ran_of_collectRow {visit : Cursor → Counting Error Tally (Option (List Edit))}
    {visits : Cursor → List Visit} {cs : List Cursor}
    (h : ∀ c ∈ cs, ∀ found tally tally', Counting.tallied (c.collect visit) tally = (.ok found, tally') →
      Ran s (visits c) tally tally')
    {found : List Edit} {tally tally' : Tally}
    (hrun : Counting.tallied (Cursor.collectRow visit cs) tally = (.ok found, tally')) :
    Ran s (cs.flatMap visits) tally tally' := by
  induction cs generalizing found tally with
  | nil =>
    rw [Cursor.collectRow_nil] at hrun
    cases hrun
    exact .nil
  | cons c cs ih =>
    rw [List.forall_mem_cons] at h
    obtain ⟨part, others, middle, -, hpart, hlast⟩ := Cursor.exists_of_tallied_row hrun
    exact (h.1 part _ _ hpart).append (ih h.2 hlast)

/-- A scan that succeeds makes all visits, in their order, and counts what they count. -/
theorem ran_of_collect {v : Visit} {found : List Edit} {tally tally' : Tally}
    (hrun : Counting.tallied (v.node.collect (s.explore v.active)) tally = (.ok found, tally')) :
    Ran s (v.all s) tally tally' := by
  induction v using (wellFounded_next s).induction generalizing found tally tally' with
  | h v ih =>
    rw [Cursor.collect_eq] at hrun
    obtain ⟨r, middle, hvisit, hrun⟩ := Counting.exists_of_tallied_bind hrun
    rw [s.unbounded_explore v.active v.node] at hvisit
    cases haction : s.action v.active v.node with
    | error e =>
      rw [haction] at hvisit
      cases hvisit
    | ok action =>
      rw [haction, Counting.ofExcept_ok_bind] at hvisit
      rw [all_eq]
      refine .cons haction ?_
      -- An expression that is entered is scanned, and nothing below the node is.
      have hentered : ∀ w : Visit, v.next s = [w] → ∀ part,
          Counting.tallied (w.node.collect (s.explore w.active)) (action.counted tally) =
            (.ok part, tally') →
          Ran s ((v.next s).flatMap (all s)) (action.counted tally) tally' := by
        intro w hnext part hpart
        rw [hnext, List.flatMap_singleton]
        exact ih w (by rw [hnext]; exact List.mem_singleton_self w) hpart
      rcases Action.perform_cases hvisit with ⟨hnone, rfl, rfl⟩ |
        ⟨key, right, part, rfl, rfl, hpart⟩ | ⟨key, right, inner, text, rfl, rfl, hinner, -⟩
      · have hnext := next_of_entered_none haction hnone
        rw [hnext, List.flatMap_map]
        refine ran_of_collectRow (fun d hd part first last hpart => ?_) hrun
        refine ih { v with node := d } ?_ hpart
        rw [hnext]
        exact List.mem_map_of_mem hd
      · cases hrun
        exact hentered ⟨v.chain, key :: v.active, right⟩ (by simp only [next, haction]) _ hpart
      · cases hrun
        exact hentered ⟨(key, v.node) :: v.chain, key :: v.active, right⟩
          (by simp only [next, haction]) _ hinner

/-! ### No read is passed over -/

/-- The nodes visited have the parts that their kinds ask for. -/
theorem isShaped_of_mem_all {root : Tree} (hroot : root.isShaped = true)
    (hrights : ∀ key right, s.aliases.get? key = some right → right.node.isShaped = true)
    {v : Visit} (h : v ∈ (first root).all s) : v.node.node.isShaped = true := by
  refine forall_mem_all (P := fun v => v.node.node.isShaped = true) (fun v w hv hw => ?_) hroot h
  rcases next_cases hw with ⟨d, hd, rfl⟩ | ⟨key, right, haction, rfl⟩ | ⟨key, right, haction, rfl⟩
  · exact Tree.isShaped_of_mem_namedChildren hv (Cursor.node_mem_namedChildren hd)
  · obtain ⟨ha, -⟩ := Setting.suits_of_action haction
    exact Cursor.isShaped_of_mem_walk hv (ha.right_mem_walk hv)
  · obtain ⟨-, hright, -⟩ := Setting.suits_of_action haction
    exact hrights key right hright

/-- Where all visits succeed, every read below a visited node is visited, with the same reads
being replaced meanwhile. -/
theorem exists_mem_all_of_reads {v : Visit}
    (hok : ∀ w ∈ v.all s, ∃ action, s.action w.active w.node = .ok action)
    (hshaped : v.node.node.isShaped = true) {d : Cursor} (hd : d ∈ v.node.walk) {key : Text}
    (hreads : Reads s.scheme d key) :
    ∃ active, (⟨v.chain, active, d⟩ : Visit) ∈ v.all s := by
  obtain ⟨chain, active, c⟩ := v
  induction c using Cursor.induction_below generalizing active with
  | step c ih =>
    rcases Cursor.mem_walk.mp hd with rfl | ⟨b, hb, hdb⟩
    · exact ⟨active, mem_all_self s _⟩
    -- The read is further down, so it is enough that a visit on the way to it is made.
    have hon : ∀ e ∈ c.below, ∀ active',
        (⟨chain, active', e⟩ : Visit) ∈ next s ⟨chain, active, c⟩ → d ∈ e.walk →
        ∃ met, (⟨chain, met, d⟩ : Visit) ∈ all s ⟨chain, active, c⟩ := by
      intro e he active' hnext hde
      have heshaped :=
        Tree.isShaped_of_mem_namedChildren hshaped (Cursor.node_mem_namedChildren he)
      obtain ⟨met, hmet⟩ :=
        ih e he active' (fun w hw => hok w (mem_all_of_next hnext hw)) heshaped hde
      exact ⟨met, mem_all_of_next hnext hmet⟩
    obtain ⟨action, haction⟩ := hok _ (mem_all_self s _)
    by_cases hentered : action.entered = none
    · have hnext := next_of_entered_none haction hentered
      exact hon b hb active (by rw [hnext]; exact List.mem_map_of_mem hb) hdb
    have hsuits := Setting.suits_of_action haction
    cases action with
    | pass => exact absurd rfl hentered
    | write => exact absurd rfl hentered
    | leave => exact absurd rfl hentered
    | assign other right =>
      -- All that is read in an assignment is read in the assigned expression.
      obtain ⟨ha, -⟩ := hsuits
      have hnext : next s ⟨chain, active, c⟩ = [⟨chain, other :: active, right⟩] := by
        simp only [next, haction]
      exact hon right (ha.right_mem_below hshaped) (other :: active)
        (by rw [hnext]; exact List.mem_singleton_self _) (ha.mem_right_walk hshaped hd hreads)
    | replace other right =>
      -- Nothing is read inside of a read.
      have hnone := Tree.aliasKey_below hshaped (Cursor.node_mem_namedChildren hb)
        (Cursor.node_mem_preorder hdb) hsuits.1.name
      rw [hreads.name] at hnone
      cases hnone

end Visit

/-! ### Programs -/

/-- Putting aliases in place comes to an end, for every tree and every table of aliases. Visits
do not lead on forever, and visits without a bound on their depth are what a scan runs; there is
only one way to make them. The reads that are being replaced at a time are of different aliases, so
there are no more of them than aliases. A read of an alias of the table is replaced, unless its
alias is being replaced already or is assigned around the read or around one that is being
replaced; then it stays and counts as a cycle. A scan that succeeds counts as many cycles as
it visits such reads. If moreover the nodes have the parts that their kinds ask for, every read
below a visited node is visited. That an interpreter gives up on visits that are nested too deeply
is left out. -/
theorem expansion_terminates (s : Setting) (root : Tree) :
    (WellFounded fun w v : Visit => w ∈ v.next s) ∧
      s.Unbounded s.explore ∧ (∀ visit, s.Unbounded visit → visit = s.explore) ∧
      s.edits root = Counting.tallied ((Cursor.ofRoot root).collect (s.explore [])) {} ∧
      (∀ v ∈ (Visit.first root).all s,
        (v.chain.map Prod.fst).Nodup ∧ v.chain.length ≤ s.aliases.length ∧
        ∀ key right, Reads s.scheme v.node key → s.aliases.get? key = some right →
          v.next s = [⟨(key, v.node) :: v.chain, key :: v.active, right⟩] ∧ v.isLeft s = false ∨
          (key ∈ v.chain.map Prod.fst ∨ v.IsAssigned s key) ∧ v.isLeft s = true ∧
            ∀ tally, Counting.tallied (s.explore v.active v.node) tally =
              (.ok none, { tally with cycles := tally.cycles + 1 })) ∧
      ∀ found tally, s.edits root = (.ok found, tally) →
        tally.cycles = ((Visit.first root).all s).countP (Visit.isLeft s) ∧
        (root.isShaped = true →
          (∀ key right, s.aliases.get? key = some right → right.node.isShaped = true) →
          ∀ v ∈ (Visit.first root).all s, ∀ d ∈ v.node.walk, ∀ key, Reads s.scheme d key →
            ∃ active, (⟨v.chain, active, d⟩ : Visit) ∈ (Visit.first root).all s) := by
  refine ⟨Visit.wellFounded_next s, s.unbounded_explore,
    fun visit h => Setting.eq_explore_of_unbounded h, s.edits_eq_explore root, ?_, ?_⟩
  · intro v hv
    have haccounted := Visit.accounted_of_mem_all hv
    refine ⟨haccounted.nodup, haccounted.length_le, fun key right hreads hright => ?_⟩
    have haction : s.action v.active v.node = _ := Setting.action_of_reads hreads hright
    by_cases hactive : key ∈ v.active
    · rw [if_pos (List.contains_iff_mem.mpr hactive)] at haction
      refine .inr ⟨haccounted.active_chain key hactive, ?_, fun tally => ?_⟩
      · exact Visit.isLeft_iff.mpr ⟨key, Entries.mem_keys_of_get? hright, hreads, hactive⟩
      · rw [s.unbounded_explore, haction]
        rfl
    · rw [if_neg fun h => hactive (List.contains_iff_mem.mp h)] at haction
      refine .inl ⟨by simp only [Visit.next, haction], ?_⟩
      rw [Bool.eq_false_iff]
      intro hleft
      obtain ⟨other, -, hother, hmem⟩ := Visit.isLeft_iff.mp hleft
      exact hactive (hreads.unique hother ▸ hmem)
  · intro found tally hedits
    rw [s.edits_eq_explore] at hedits
    have hran : Visit.Ran s ((Visit.first root).all s) {} tally := Visit.ran_of_collect hedits
    refine ⟨hran.cycles.trans (Nat.zero_add _), fun hroot hrights v hv d hd key hreads => ?_⟩
    obtain ⟨active, hmem⟩ := Visit.exists_mem_all_of_reads
      (fun w hw => hran.exists_action (Visit.mem_all_trans hv hw))
      (Visit.isShaped_of_mem_all hroot hrights hv) hd hreads
    exact ⟨active, Visit.mem_all_trans hv hmem⟩

/-- The theorem at a program whose aliases stand for each other, one of them assigned inside of
the expression of the other. -/
theorem expansion_terminates_mutual :
    let source := "a.G.x = f(a.G.y = [a.G.x]); a.G.y; use(a.G.x);".toText
    let scheme := Scheme.standard
    ∃ p aliases found, Program.parse source = .ok p ∧
      (collect p.root scheme).outcome = .ok aliases ∧
      let s : Setting := ⟨scheme, aliases, p.bytes⟩
      s.edits p.root = (.ok found, { inlined := 3, skippedWrites := 4, cycles := 3 }) ∧
        ((Visit.first p.root).all s).countP (Visit.isLeft s) = 3 ∧
        (∀ d ∈ (Cursor.ofRoot p.root).walk, ∀ key, Reads scheme d key →
          ∃ active, (⟨[], active, d⟩ : Visit) ∈ (Visit.first p.root).all s) ∧
        ∃ v ∈ (Visit.first p.root).all s, ∃ key right, Reads scheme v.node key ∧
          aliases.get? key = some right ∧ v.chain.length ≤ 2 ∧
          (key ∈ v.chain.map Prod.fst ∨ v.IsAssigned s key) := by
  intro source scheme
  obtain ⟨p, parsed, aliases, collected, hlength, hedits, htally⟩ :
      ∃ p, Program.parse source = .ok p ∧ ∃ aliases, (collect p.root scheme).outcome = .ok aliases ∧
        aliases.length = 2 ∧ ((Setting.mk scheme aliases p.bytes).edits p.root).1.isOk = true ∧
        ((Setting.mk scheme aliases p.bytes).edits p.root).2 =
          { inlined := 3, skippedWrites := 4, cycles := 3 } := by
    decide +kernel
  let s : Setting := ⟨scheme, aliases, p.bytes⟩
  have wellFormed := Program.wellFormed_of_parse parsed
  have hrights : ∀ key right, aliases.get? key = some right → right.node.isShaped = true :=
    fun key right h => Cursor.isShaped_of_mem_walk (c := Cursor.ofRoot p.root) wellFormed.shaped
      (mem_walk_of_get? wellFormed collected h)
  have hrun : s.edits p.root = (.ok _, _) := Prod.ext (eq_ok_of_isOk hedits []) htally
  obtain ⟨-, -, -, -, hvisits, hscan⟩ := expansion_terminates s p.root
  obtain ⟨hcycles, hmet⟩ := hscan _ _ hrun
  have hcount : ((Visit.first p.root).all s).countP (Visit.isLeft s) = 3 := hcycles.symm
  have hsome : 0 < ((Visit.first p.root).all s).countP (Visit.isLeft s) := by omega
  obtain ⟨v, hv, hleft⟩ := List.countP_pos_iff.mp hsome
  obtain ⟨key, hkey, hreads, -⟩ := Visit.isLeft_iff.mp hleft
  obtain ⟨right, hright⟩ := Entries.exists_get?_of_mem_keys hkey
  obtain ⟨-, hchain, hreason⟩ := hvisits v hv
  refine ⟨p, aliases, _, parsed, collected, hrun, hcount,
    hmet wellFormed.shaped hrights _ (Visit.mem_all_self s _), v, hv, key, right, hreads, hright,
    Nat.le_trans hchain hlength.le, ?_⟩
  rcases hreason key right hreads hright with ⟨-, hstays⟩ | ⟨hreason, -⟩
  · rw [hleft] at hstays
    cases hstays
  · exact hreason

end Alias

end Unproxy
