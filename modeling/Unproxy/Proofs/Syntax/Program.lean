import Mathlib
import Unproxy.Syntax.Program
import Unproxy.Proofs.Syntax.Statement

/-!
# Unproxy.Proofs.Syntax.Program

The tree of every program that can be read fits its source. Readers call each other one
level down, so this goes by induction on how deeply a program is nested; then the comments
are put back.

Main definitions:

* `Tree.Woven`: a row of trees with comments put between them.

Main statements:

* `Rules.sound_rules`: the grammar reads trees that fit the source;
* `Tree.settled_weaveList`: comments can be put into trees that avoid them;
* `Program.wellFormed_of_parse`: a program that was read is well-formed.
-/

namespace Unproxy.Syntax

/-- The grammar reads trees that fit the source, however deep. -/
theorem Rules.sound_rules (source : Text) (depth : Nat) : (rules depth).Sound source := by
  induction depth with
  | zero =>
    exact ⟨Parser.reads_reject, fun _ => Parser.reads_reject, Parser.reads_reject,
      Parser.reads_reject, Parser.reads_reject⟩
  | succ depth ih =>
    exact ⟨Parser.reads_assignment ih, Parser.reads_binary ih, Parser.reads_unary ih,
      Parser.reads_construct ih, Parser.reads_statement ih⟩

namespace Tree

/-! ### Rows with comments -/

/-- A row of trees with comments put between them. What is below a tree may change. -/
inductive Woven : List Tree → List Tree → Prop
  | nil : Woven [] []
  | comment {k : Tree} {ts us : List Tree} (kind : k.kind = .comment) (role : k.role = none)
      (others : Woven ts us) : Woven ts (k :: us)
  | cons {t u : Tree} {ts us : List Tree} (kind : u.kind = t.kind) (role : u.role = t.role)
      (start : u.start = t.start) (stop : u.stop = t.stop) (others : Woven ts us) :
      Woven (t :: ts) (u :: us)

theorem Woven.comments {source : Text} {ks ts us : List Tree}
    (hks : ∀ k ∈ ks, k.IsComment source) (h : Woven ts us) : Woven ts (ks ++ us) := by
  induction ks with
  | nil => exact h
  | cons k ks ih =>
    obtain ⟨hk, hks⟩ := List.forall_mem_cons.mp hks
    exact .comment hk.kind hk.role (ih hks)

section

variable {f : Tree → Bool} {ts us : List Tree}

/-- A question that is answered by the kind and the role of a tree, and with yes for
comments, has the same answer for the row. -/
theorem Woven.all_eq (h : Woven ts us)
    (hsame : ∀ t u : Tree, u.kind = t.kind → u.role = t.role → f u = f t)
    (hcomment : ∀ k : Tree, k.kind = .comment → k.role = none → f k = true) :
    us.all f = ts.all f := by
  induction h with
  | nil => rfl
  | comment hkind hrole _ ih => rw [List.all_cons, hcomment _ hkind hrole, ih, Bool.true_and]
  | cons hkind hrole _ _ _ ih => rw [List.all_cons, List.all_cons, hsame _ _ hkind hrole, ih]

/-- The trees that a question picks, if it never picks a comment. -/
theorem Woven.length_filter_eq (h : Woven ts us)
    (hsame : ∀ t u : Tree, u.kind = t.kind → u.role = t.role → f u = f t)
    (hcomment : ∀ k : Tree, k.kind = .comment → k.role = none → f k = false) :
    (us.filter f).length = (ts.filter f).length := by
  induction h with
  | nil => rfl
  | comment hkind hrole _ ih =>
    rw [List.filter_cons_of_neg (by simp [hcomment _ hkind hrole]), ih]
  | @cons t u ts us hkind hrole _ _ _ ih =>
    have heq := hsame t u hkind hrole
    cases ht : f t with
    | true => simp [heq, ht, ih]
    | false => simp [heq, ht, ih]

/-- A tree of the row is a comment or stands for a tree that was there before. -/
theorem Woven.exists_of_mem (h : Woven ts us) {u : Tree} (hu : u ∈ us) :
    u.kind = .comment ∨ ∃ t ∈ ts, u.kind = t.kind ∧ u.start = t.start ∧ u.stop = t.stop := by
  induction h with
  | nil => cases hu
  | comment hkind _ _ ih =>
    rcases List.mem_cons.mp hu with rfl | hu
    · exact .inl hkind
    · exact ih hu
  | @cons t u' ts us hkind _ hstart hstop _ ih =>
    rcases List.mem_cons.mp hu with rfl | hu
    · exact .inr ⟨t, List.mem_cons_self, hkind, hstart, hstop⟩
    · obtain hcomment | ⟨t', ht', h⟩ := ih hu
      · exact .inl hcomment
      · exact .inr ⟨t', List.mem_cons_of_mem t ht', h⟩

end

theorem isNamed_eq_of_kind {t u : Tree} (h : u.kind = t.kind) : u.isNamed = t.isNamed := by
  rw [isNamed, isNamed, h]

theorem isAtom_eq_of_kind {t u : Tree} (h : u.kind = t.kind) : u.isAtom = t.isAtom := by
  rw [isAtom, isAtom, h]

theorem hasOnly_of_woven {t u : Tree} {roles : List Role} (h : Woven t.children u.children)
    (honly : t.hasOnly roles = true) : u.hasOnly roles = true := by
  rw [hasOnly, Bool.and_eq_true] at honly ⊢
  refine ⟨?_, List.all_eq_true.mpr fun role hrole => ?_⟩
  · rw [h.all_eq, honly.1]
    · intro t u hkind hrole
      rw [hrole, isNamed_eq_of_kind hkind, isAtom_eq_of_kind hkind]
    · intro k hkind hrole
      simp [hrole, isAtom, hkind]
  · have hlength := List.all_eq_true.mp honly.2 role hrole
    rw [decide_eq_true_eq] at hlength ⊢
    rw [h.length_filter_eq]
    · exact hlength
    · intro t u hkind hrole
      rw [hrole]
    · intro k hkind hrole
      simp [hrole]

/-- Comments between its parts do not matter to a node that has any. -/
theorem hasShape_of_woven {t u : Tree} (hkind : u.kind = t.kind) (hstart : u.start = t.start)
    (hstop : u.stop = t.stop) (h : Woven t.children u.children) (hne : t.children ≠ [])
    (hshape : t.hasShape = true) : u.hasShape = true := by
  unfold hasShape at hshape ⊢
  rw [hkind, hstart, hstop]
  split
  · rename_i hk
    simp only [hk, Bool.and_eq_true] at hshape ⊢
    exact ⟨hasOnly_of_woven h hshape.1, hshape.2⟩
  · rename_i hk
    simp only [hk, Bool.and_eq_true] at hshape ⊢
    exact ⟨hasOnly_of_woven h hshape.1, hshape.2⟩
  · rename_i hk
    simp only [hk] at hshape
    exact hasOnly_of_woven h hshape
  · rename_i hk
    simp only [hk, namedChildren, List.filter_filter] at hshape ⊢
    rw [h.length_filter_eq]
    · exact hshape
    · intro t u hkind hrole
      rw [hkind, isNamed_eq_of_kind hkind]
    · intro k hkind hrole
      simp [hkind]
  · rename_i hk
    simp only [hk, namedChildren, List.all_filter] at hshape ⊢
    rw [h.all_eq, hshape]
    · intro t u hkind hrole
      rw [isNamed_eq_of_kind hkind, isAtom_eq_of_kind hkind]
    · intro k hkind hrole
      simp [isAtom, hkind]
  · -- An atom has no parts to put comments between.
    have hatom : t.isAtom = false := by
      split at hshape <;> simp_all
    simp [isAtom_eq_of_kind hkind, hatom]

/-- A property stays longer than its parts. -/
theorem exceeds_of_woven {t u : Tree} (hkind : u.kind = t.kind) (hstart : u.start = t.start)
    (hstop : u.stop = t.stop) (h : Woven t.children u.children) (hexceeds : t.Exceeds) :
    u.Exceeds := by
  intro haccess c hc hnamed hatom
  rw [hkind] at haccess
  rw [hstart, hstop]
  rcases h.exists_of_mem hc with hcomment | ⟨d, hd, hdkind, hdstart, hdstop⟩
  · simp [isAtom, hcomment] at hatom
  · rw [hdstart, hdstop]
    rw [isNamed_eq_of_kind hdkind] at hnamed
    rw [isAtom_eq_of_kind hdkind] at hatom
    exact hexceeds haccess d hd hnamed hatom

/-! ### Putting comments back -/

/-- Some of a row, between places that may lie further in. -/
theorem areNested_filter {low high low' high' : Nat} {ts : List Tree} {f : Tree → Bool}
    (h : areNested low high ts = true) (hle : low' ≤ high')
    (hf : ∀ t ∈ ts, f t = true → low' ≤ t.start ∧ t.stop ≤ high') :
    areNested low' high' (ts.filter f) = true := by
  induction ts generalizing low low' with
  | nil => exact decide_eq_true hle
  | cons t ts ih =>
    obtain ⟨hlow, ht, hts⟩ := areNested_cons.mp h
    obtain ⟨hft, hf⟩ := List.forall_mem_cons.mp hf
    cases hpick : f t with
    | true =>
      obtain ⟨hstart, hstop⟩ := hft hpick
      rw [List.filter_cons_of_pos hpick]
      refine areNested_cons.mpr ⟨hstart, ht, ih hts hstop fun u hu hfu => ?_⟩
      exact ⟨(isNested_of_mem hts hu).2.1, (hf u hu hfu).2⟩
    | false =>
      rw [List.filter_cons_of_neg (by simp [hpick])]
      exact ih hts hle hf

theorem Fits.mono {source : Text} {ks ks' : List Tree} {t : Tree} (h : t.Fits source ks)
    (hks : ∀ k ∈ ks', k ∈ ks) : t.Fits source ks' :=
  ⟨h.start, h.stop, h.shape, h.exceeds, h.name, fun k hk => h.avoids k (hks k hk)⟩

theorem IsComment.fits {source : Text} {k : Tree} (h : k.IsComment source) :
    k.Forall (Fits source []) := by
  refine .intro ⟨h.start, h.stop, ?_, ?_, ?_, fun _ hk => absurd hk List.not_mem_nil⟩
    fun c hc => ?_
  · simp [hasShape, h.kind, h.children]
  · exact exceeds_of_kind (by simp [h.kind])
  · simp [HoldsName, h.kind]
  · rw [h.children] at hc
    cases hc

/-- A row between two places in which all comments have been put. -/
structure Settled (source : Text) (low high : Nat) (ts us : List Tree) : Prop where
  nested : areNested low high us = true
  fits : ∀ u ∈ us, u.Forall (Fits source [])
  woven : Woven ts us

theorem weave_eq (ks : List Tree) (t : Tree) :
    weave ks t = { t with children := weaveList ks t.children } := by
  obtain ⟨kind, role, start, stop, text, children⟩ := t
  rw [weave]

/-- A node with parts stays what it is when comments are put between them. -/
theorem fits_weave {source : Text} {ks ks' : List Tree} {t : Tree} (h : t.Fits source ks)
    (hne : t.children ≠ [])
    (hchildren : Settled source t.start t.stop t.children (weaveList ks' t.children)) :
    (weave ks' t).isNested = true ∧ (weave ks' t).Forall (Fits source []) := by
  rw [weave_eq]
  refine ⟨by rw [isNested_eq]; exact hchildren.nested,
    .intro ⟨h.start, h.stop, ?_, ?_, h.name, ?_⟩ ?_⟩
  · exact hasShape_of_woven (t := t) rfl rfl rfl hchildren.woven hne h.shape
  · exact exceeds_of_woven (t := t) rfl rfl rfl hchildren.woven h.exceeds
  · exact fun _ hk => absurd hk List.not_mem_nil
  · exact hchildren.fits

section

variable {source : Text} {low high : Nat} {ks : List Tree} {t : Tree}

/-- The comments that begin before a tree end before it. -/
theorem areNested_before (hcomments : areNested low high ks = true) (ht : t.start ≤ t.stop)
    (havoids : ∀ k ∈ ks, t.Avoids k) (hlow : low ≤ t.start) :
    areNested low t.start (ks.filter fun c => c.start < t.start) = true := by
  refine areNested_filter hcomments hlow fun k hk hlt => ?_
  have hlt := of_decide_eq_true hlt
  have havoids := havoids k hk
  unfold Avoids at havoids
  exact ⟨(isNested_of_mem hcomments hk).2.1, by omega⟩

/-- A comment that begins inside of a tree lies between its parts. -/
theorem stop_le_of_inside {k : Tree} (hk : k.IsComment source) (havoids : t.Avoids k)
    (hstart : t.start ≤ k.start) (hlt : k.start < t.stop) : t.children ≠ [] ∧ k.stop ≤ t.stop := by
  rcases havoids with h | h | h
  · omega
  · have := hk.lt
    omega
  · exact ⟨h.1, h.2.2⟩

theorem areNested_inside (hks : ∀ k ∈ ks, k.IsComment source)
    (hcomments : areNested low high ks = true) (ht : t.start ≤ t.stop)
    (havoids : ∀ k ∈ ks, t.Avoids k) :
    areNested t.start t.stop (ks.filter fun c => t.start ≤ c.start && c.start < t.stop) = true := by
  refine areNested_filter hcomments ht fun k hk hlt => ?_
  rw [Bool.and_eq_true, decide_eq_true_eq, decide_eq_true_eq] at hlt
  exact ⟨hlt.1, (stop_le_of_inside (hks k hk) (havoids k hk) hlt.1 hlt.2).2⟩

theorem areNested_behind (hcomments : areNested low high ks = true) (hhigh : t.stop ≤ high) :
    areNested t.stop high (ks.filter fun c => t.stop ≤ c.start) = true := by
  refine areNested_filter hcomments hhigh fun k hk hlt => ?_
  exact ⟨of_decide_eq_true hlt, (isNested_of_mem hcomments hk).2.2⟩

/-- A tree takes up the comments that begin inside of it, provided that they can be put
between its parts. -/
theorem exists_takesUp (hks : ∀ k ∈ ks, k.IsComment source) (ht : t.isNested = true)
    (hfits : t.Forall (Fits source ks))
    (hchildren : t.children ≠ [] → Settled source t.start t.stop t.children
      (weaveList (ks.filter fun c => t.start ≤ c.start && c.start < t.stop) t.children)) :
    ∃ u, (if (ks.filter fun c => t.start ≤ c.start && c.start < t.stop).isEmpty then t
        else weave (ks.filter fun c => t.start ≤ c.start && c.start < t.stop) t) = u ∧
      (u.kind = t.kind ∧ u.role = t.role ∧ u.start = t.start ∧ u.stop = t.stop) ∧
      u.isNested = true ∧ u.Forall (Fits source []) := by
  split
  · exact ⟨t, rfl, ⟨rfl, rfl, rfl, rfl⟩, ht, hfits.mono fun _ h => h.mono (by simp)⟩
  · rename_i hsome
    obtain ⟨k, hk⟩ := List.exists_mem_of_ne_nil _ fun hnil => hsome (List.isEmpty_iff.mpr hnil)
    obtain ⟨hk, hlt⟩ := List.mem_filter.mp hk
    rw [Bool.and_eq_true, decide_eq_true_eq, decide_eq_true_eq] at hlt
    have hne := (stop_le_of_inside (hks k hk) (hfits.here.avoids k hk) hlt.1 hlt.2).1
    have hwoven := fits_weave hfits.here hne (hchildren hne)
    exact ⟨_, rfl, by rw [weave_eq]; exact ⟨rfl, rfl, rfl, rfl⟩, hwoven⟩

end

/-- Comments can be put into a row of trees that avoid them, provided that they can be put
into each tree with parts. -/
theorem settled_weaveList {source : Text} {low high : Nat} {ks ts : List Tree}
    (hks : ∀ k ∈ ks, k.IsComment source) (hcomments : areNested low high ks = true)
    (hts : areNested low high ts = true) (hfits : ∀ t ∈ ts, t.Forall (Fits source ks))
    (hbelow : ∀ t ∈ ts, ∀ ks', (∀ k ∈ ks', k ∈ ks) → areNested t.start t.stop ks' = true →
      t.children ≠ [] →
      Settled source t.start t.stop t.children (weaveList ks' t.children)) :
    Settled source low high ts (weaveList ks ts) := by
  induction ts generalizing low ks with
  | nil =>
    rw [weaveList]
    exact ⟨hcomments, fun k hk => (hks k hk).fits, List.append_nil ks ▸ Woven.comments hks .nil⟩
  | cons t ts ih =>
    obtain ⟨hlow, ht, hts⟩ := areNested_cons.mp hts
    obtain ⟨htfits, hfits⟩ := List.forall_mem_cons.mp hfits
    obtain ⟨htbelow, hbelow⟩ := List.forall_mem_cons.mp hbelow
    have hle := start_le_stop t ht
    have havoids := htfits.here.avoids
    have hmem : ∀ {f : Tree → Bool}, ∀ k ∈ ks.filter f, k ∈ ks := fun k hk =>
      (List.mem_filter.mp hk).1
    -- Each comment lies before the first tree, between its parts, or behind it.
    have hbefore := areNested_before hcomments hle havoids hlow
    obtain ⟨u, hu, ⟨hkind, hrole, hstart, hstop⟩, hnested, hufits⟩ := exists_takesUp hks ht htfits
      fun hne => htbelow _ hmem (areNested_inside hks hcomments hle havoids) hne
    have hrest := ih (fun k hk => hks k (hmem k hk))
      (areNested_behind hcomments (le_of_areNested ts hts)) hts
      (fun t ht => (hfits t ht).mono fun _ h => h.mono hmem)
      fun t ht ks' hks' => hbelow t ht ks' fun k hk => hmem k (hks' k hk)
    rw [weaveList, hu]
    refine ⟨areNested_append hbefore (areNested_cons.mpr ⟨hstart.ge, hnested, ?_⟩),
      fun v hv => ?_, ?_⟩
    · rw [hstop]
      exact hrest.nested
    · rcases List.mem_append.mp hv with hv | hv
      · exact (hks v (hmem v hv)).fits
      · rcases List.mem_cons.mp hv with rfl | hv
        · exact hufits
        · exact hrest.fits v hv
    · exact Woven.comments (fun k hk => hks k (hmem k hk)) 
        (.cons hkind hrole hstart hstop hrest.woven)

/-- Comments can be put into a node with parts that avoids them. -/
theorem settled_weave {source : Text} {ks : List Tree} {t : Tree}
    (hks : ∀ k ∈ ks, k.IsComment source) (hcomments : areNested t.start t.stop ks = true)
    (ht : t.isNested = true) (hfits : t.Forall (Fits source ks)) :
    Settled source t.start t.stop t.children (weaveList ks t.children) := by
  induction t using induction_children generalizing ks with
  | step t ih =>
    rw [isNested_eq] at ht
    refine settled_weaveList hks hcomments ht (fun c hc => hfits.of_mem hc) ?_
    intro c hc ks' hks' hnested _
    exact ih c hc (fun k hk => hks k (hks' k hk)) hnested (isNested_of_mem ht hc).1
      ((hfits.of_mem hc).mono fun _ h => h.mono hks')

/-- What holds of the ranges of properties does not change when comments are put into a row,
provided that it does not change when they are put into each tree. -/
theorem atProperty_weaveList {source : Text} {P : Nat → Nat → Prop} {ks ts : List Tree}
    (hks : ∀ k ∈ ks, k.IsComment source) (hts : ∀ t ∈ ts, t.Forall (AtProperty P))
    (hbelow : ∀ t ∈ ts, ∀ ks', (∀ k ∈ ks', k ∈ ks) →
      ∀ u ∈ weaveList ks' t.children, u.Forall (AtProperty P)) :
    ∀ u ∈ weaveList ks ts, u.Forall (AtProperty P) := by
  have hcomment : ∀ k ∈ ks, k.Forall (AtProperty P) := by
    intro k hk
    refine .intro (fun hkind => ?_) fun c hc => ?_
    · rw [(hks k hk).kind] at hkind
      cases hkind <;> contradiction
    · rw [(hks k hk).children] at hc
      cases hc
  induction ts generalizing ks with
  | nil => exact hcomment
  | cons t ts ih =>
    obtain ⟨ht, hts⟩ := List.forall_mem_cons.mp hts
    obtain ⟨htbelow, hbelow⟩ := List.forall_mem_cons.mp hbelow
    have hmem : ∀ {f : Tree → Bool}, ∀ k ∈ ks.filter f, k ∈ ks := fun k hk =>
      (List.mem_filter.mp hk).1
    intro u hu
    rw [weaveList] at hu
    rcases List.mem_append.mp hu with hu | hu
    · exact hcomment u (hmem u hu)
    rcases List.mem_cons.mp hu with rfl | hu
    · split
      · exact ht
      · rw [weave_eq]
        exact .intro ht.here (htbelow _ hmem)
    · exact ih (fun k hk => hks k (hmem k hk)) hts
        (fun t ht ks' hks' => hbelow t ht ks' fun k hk => hmem k (hks' k hk))
        (fun k hk => hcomment k (hmem k hk)) u hu

theorem atProperty_weave {source : Text} {P : Nat → Nat → Prop} {ks : List Tree} {t : Tree}
    (hks : ∀ k ∈ ks, k.IsComment source) (ht : t.Forall (AtProperty P)) :
    ∀ u ∈ weaveList ks t.children, u.Forall (AtProperty P) := by
  induction t using induction_children generalizing ks with
  | step t ih =>
    exact atProperty_weaveList hks (fun c hc => ht.of_mem hc) fun c hc ks' hks' =>
      ih c hc (fun k hk => hks k (hks' k hk)) (ht.of_mem hc)

theorem Forall.of_mem_preorder {P : Tree → Prop} {t x : Tree} (h : t.Forall P)
    (hx : x ∈ t.preorder) : P x := by
  induction h with
  | @intro t here below ih =>
    rcases mem_preorder.mp hx with rfl | ⟨c, hc, hx⟩
    · exact here
    · exact ih c (mem_namedChildren.mp hc).1 hx

end Tree

namespace Program

open Scan

/-! ### Programs -/

/-- The interpreter line, if there is one, and the scan behind it. -/
theorem spanned_opening (source : Text) :
    Spanned source ⟨source, 0, .unknown, .none, []⟩ (opening source).1 (opening source).2 := by
  have hs : Sound source ⟨source, 0, .unknown, .none, []⟩ :=
    ⟨⟨[], rfl, rfl⟩, .inl rfl, fun _ hk => absurd hk List.not_mem_nil, rfl⟩
  unfold opening
  split
  · have hbegins : source.takeWhile (fun c => !c.endsLine) <+: source := List.takeWhile_prefix _
    have hline : Spanned source _ [Tree.leaf .hashBang _ _ _] _ :=
      (Spanned.refl hs).take (by decide) hbegins
    simpa [Scan.advance] using hline
  · have hbetween : (between 0 [] source).Sound source ∧ 0 ≤ (between 0 [] source).offset ∧ _ :=
      sound_between (List.nil_append source).symm rfl (fun _ hk => absurd hk List.not_mem_nil) rfl
    obtain ⟨hsound, hle, -⟩ := hbetween
    exact ⟨hsound, decide_eq_true hle, fun _ _ => .inr (Nat.zero_le _),
      fun _ ht => absurd ht List.not_mem_nil⟩

/-- The statements of a program end where the text does. -/
theorem exists_statements {source : Text} {root : Tree} (h : tree? source = some root) :
    ∃ found finish, Passed source (opening source).2 found finish ∧ finish.next = .finish ∧
      root = ⟨.program, none, 0, byteLength source, [],
        Tree.weaveList finish.comments.reverse ((opening source).1 ++ found)⟩ := by
  have hopening := spanned_opening source
  unfold tree? at h
  generalize opening source = start at h hopening ⊢
  obtain ⟨first, scan⟩ := start
  cases hrun : (statements source).run scan with
  | none =>
    simp only [hrun] at h
    cases h
  | some result =>
    obtain ⟨found, finish⟩ := result
    simp only [hrun] at h
    split at h
    · cases h
    · cases h
      have hmore : ∀ s b s', (do return (← Parser.next) != .finish : Parser Bool) s =
          some (b, s') → s' = s := fun _ _ _ h => by cases h; rfl
      obtain ⟨p, -⟩ := Parser.readsAll_many hmore (Rules.sound_rules source _).statement _
        scan found finish hopening.sound hrun
      have hstop := Option.some.inj (Parser.many_stops hmore hrun)
      exact ⟨found, finish, p, by simpa using congrArg Prod.fst hstop, rfl⟩

/-- The tree that is read from a text fits it. -/
theorem settled_tree? {source : Text} {root : Tree} (h : tree? source = some root) :
    root.start = 0 ∧ root.stop = (Utf8.encode source).length ∧ root.isNested = true ∧
      root.Forall (Tree.Fits source []) := by
  obtain ⟨found, finish, hfound, -, rfl⟩ := exists_statements h
  have p := (spanned_opening source).append hfound.toSpanned
  have hks : ∀ k ∈ finish.comments.reverse, k.IsComment source := fun k hk =>
    p.sound.comments k (List.mem_reverse.mp hk)
  have hfits : ∀ t ∈ (opening source).1 ++ found,
      t.Forall (Tree.Fits source finish.comments.reverse) :=
    fun t ht => (p.fits t ht).mono fun _ h => h.mono fun k hk => List.mem_reverse.mp hk
  have hsettled := Tree.settled_weaveList hks p.sound.nested p.nested hfits
    fun t ht ks' hks' hnested _ => Tree.settled_weave (fun k hk => hks k (hks' k hk)) hnested
      (Tree.isNested_of_mem p.nested ht).1 ((hfits t ht).mono fun _ h => h.mono hks')
  obtain ⟨before, hsource, hoffset⟩ := p.sound.split
  have hlength : finish.offset ≤ (Utf8.encode source).length := by
    rw [hsource, Utf8.encode_append, List.length_append, hoffset]
    exact Nat.le_add_right _ _
  rw [byteLength_eq]
  refine ⟨rfl, rfl, ?_, .intro ⟨?_, Utf8.isBoundary_length source, ?_, ?_, ?_, ?_⟩ hsettled.fits⟩
  · rw [Tree.isNested_eq]
    exact Tree.areNested_mono hsettled.nested (Nat.le_refl _) hlength
  · exact isBoundary_of_split (List.nil_append source).symm
  · exact Tree.hasShape_of_isFree rfl
  · exact Tree.exceeds_of_isFree rfl
  · exact Tree.holdsName_of_isFree rfl
  · exact fun _ hk => absurd hk List.not_mem_nil

/-- The tokens of a text: the pieces that are read from its beginning to its end. -/
def Tokens (source : Text) (pieces : List Piece) : Prop :=
  ∃ finish, Lexed .code (opening source).2 pieces .code finish ∧ finish.next = .finish

/-- A text that is read has tokens, and the properties in its tree are made of them. -/
theorem exists_tokens {source : Text} {root : Tree} (h : tree? source = some root) :
    ∃ pieces, Tokens source pieces ∧
      root.Forall (Tree.AtProperty (Piece.Cut (opening source).2.offset pieces)) := by
  obtain ⟨found, finish, hfound, hfinish, rfl⟩ := exists_statements h
  obtain ⟨pieces, hlexed, hconsist, -⟩ := hfound.read
  have hks : ∀ k ∈ finish.comments.reverse, k.IsComment source := fun k hk =>
    hfound.sound.comments k (List.mem_reverse.mp hk)
  have hopening : ∀ t ∈ (opening source).1,
      t.Forall (Tree.AtProperty (Piece.Cut (opening source).2.offset pieces)) := by
    intro t ht
    generalize (opening source).2.offset = offset
    unfold opening at ht
    split at ht
    · obtain rfl := List.mem_singleton.mp ht
      exact .intro (by rintro (hkind | hkind) <;> cases hkind) fun c hc => absurd hc List.not_mem_nil
    · cases ht
  have hall : ∀ t ∈ (opening source).1 ++ found,
      t.Forall (Tree.AtProperty (Piece.Cut (opening source).2.offset pieces)) := fun t ht =>
    (List.mem_append.mp ht).elim (hopening t) (hconsist.properties t)
  refine ⟨pieces, ⟨finish, hlexed, hfinish⟩, .intro (by rintro (hkind | hkind) <;> cases hkind) ?_⟩
  exact Tree.atProperty_weaveList hks hall fun t ht ks' hks' =>
    Tree.atProperty_weave (fun k hk => hks k (hks' k hk)) (hall t ht)

/-- A program that was read has a source that can be encoded, and the tree read from it. -/
theorem tree?_of_parse {source : Text} {p : Program} (h : parse source = .ok p) :
    p.source = source ∧ Utf8.Encodable source ∧ tree? source = some p.root := by
  unfold parse at h
  cases hcheck : Utf8.checkEncodable source with
  | error error =>
    simp only [hcheck] at h
    cases h
  | ok _ =>
    simp only [hcheck] at h
    cases htree : tree? source with
    | none =>
      simp only [htree] at h
      cases h
    | some root =>
      simp only [htree] at h
      cases h
      exact ⟨rfl, Utf8.checkEncodable_eq_ok_iff.mp hcheck, rfl⟩

/-- A program that was read is well-formed. -/
theorem wellFormed_of_parse {source : Text} {p : Program} (h : parse source = .ok p) :
    p.WellFormed := by
  obtain ⟨rfl, hencodable, htree⟩ := tree?_of_parse h
  obtain ⟨-, hstop, hnested, hfits⟩ := settled_tree? htree
  refine ⟨hencodable, hnested, hstop.le, ?_, fun c hc => ?_⟩
  · exact Tree.isShaped_of_forall (hfits.mono fun _ h => h.shape)
  · have hc := hfits.of_mem_preorder (Cursor.node_mem_preorder hc)
    exact ⟨hc.start, hc.stop⟩

/-- The variables of a program that was read take up the bytes of their names. -/
theorem holdsName_of_parse {source : Text} {p : Program} (h : parse source = .ok p) :
    p.root.Forall Tree.HoldsName := by
  obtain ⟨-, -, htree⟩ := tree?_of_parse h
  obtain ⟨-, -, -, hfits⟩ := settled_tree? htree
  exact hfits.mono fun _ h => h.name

/-- The properties of a program that was read are longer than their parts. -/
theorem exceeds_of_parse {source : Text} {p : Program} (h : parse source = .ok p) {c : Cursor}
    (hc : c ∈ (Cursor.ofRoot p.root).walk) : c.node.Exceeds := by
  obtain ⟨-, -, htree⟩ := tree?_of_parse h
  obtain ⟨-, -, -, hfits⟩ := settled_tree? htree
  exact (hfits.of_mem_preorder (Cursor.node_mem_preorder hc)).exceeds

end Program

end Unproxy.Syntax
