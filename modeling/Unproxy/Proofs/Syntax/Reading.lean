import Mathlib
import Unproxy.Proofs.Syntax.Scan

/-!
# Unproxy.Proofs.Syntax.Reading

Readers of programs taken apart step by step. Each step either asks something of the scan
and leaves it, or reads trees that go on where the ones before them ended.

Main definitions:

* `Tree.Like`: trees that can stand for each other;
* `Parser.Reads`, `Parser.ReadsAll`: readers of trees that fit the source.

Main statements:

* `Parser.Reads.bind`, `Parser.ReadsAll.bind`: one reader after the other;
* `Parser.readsAll_many`, `Parser.readsAll_commaList`, `Parser.readsAll_commaSeparated`,
  `Parser.reads_enclosed`: readers of rows;
* `Parser.reads_string`, `Parser.reads_regex`: quotations.
-/

namespace Unproxy.Syntax

/-! ### Trees that can stand for each other -/

/-- A tree that takes up the same range as another and fits wherever that one does. -/
structure Tree.Like (t u : Tree) : Prop where
  start : u.start = t.start
  stop : u.stop = t.stop
  nested : t.isNested = true → u.isNested = true
  fits : ∀ source comments, t.Forall (Tree.Fits source comments) →
    u.Forall (Tree.Fits source comments)
  properties : ∀ P, t.Forall (Tree.AtProperty P) → u.Forall (Tree.AtProperty P)

namespace Tree

theorem Like.refl (t : Tree) : t.Like t := ⟨rfl, rfl, id, fun _ _ => id, fun _ => id⟩

theorem areNested_like {low high : Nat} {ts us : List Tree} (hlike : List.Forall₂ Like ts us)
    (h : areNested low high ts = true) : areNested low high us = true := by
  induction hlike generalizing low with
  | nil => exact h
  | cons hlike _ ih =>
    obtain ⟨hlow, ht, hts⟩ := areNested_cons.mp h
    refine areNested_cons.mpr ⟨hlike.start ▸ hlow, hlike.nested ht, ?_⟩
    rw [hlike.stop]
    exact ih hts

theorem exists_like_of_mem {ts us : List Tree} (hlike : List.Forall₂ Like ts us) {u : Tree}
    (hu : u ∈ us) : ∃ t ∈ ts, t.Like u := by
  induction hlike with
  | nil => cases hu
  | cons hlike _ ih =>
    rcases List.mem_cons.mp hu with rfl | hu
    · exact ⟨_, List.mem_cons_self, hlike⟩
    · obtain ⟨t, ht, hlike⟩ := ih hu
      exact ⟨t, List.mem_cons_of_mem _ ht, hlike⟩

/-- A node whose parts are replaced by ones that can stand for them. -/
theorem like_of_children {t u : Tree} (hstart : u.start = t.start) (hstop : u.stop = t.stop)
    (hchildren : List.Forall₂ Like t.children u.children)
    (hkind : u.kind = .member ∨ u.kind = .subscript → u.kind = t.kind)
    (hshape : t.hasShape = true → u.hasShape = true) (hexceeds : t.Exceeds → u.Exceeds)
    (hname : t.HoldsName → u.HoldsName) : t.Like u where
  start := hstart
  stop := hstop
  nested h := by
    rw [isNested_eq] at h ⊢
    rw [hstart, hstop]
    exact areNested_like hchildren h
  fits source comments h := by
    have hfits := h.here
    refine .intro ⟨hstart ▸ hfits.start, hstop ▸ hfits.stop, hshape hfits.shape,
      hexceeds hfits.exceeds, hname hfits.name, fun k hk => ?_⟩ fun c hc => ?_
    · have havoids := hfits.avoids k hk
      unfold Avoids at havoids ⊢
      have hnil : t.children ≠ [] → u.children ≠ [] := by
        intro hne heq
        rw [heq, List.forall₂_nil_right_iff] at hchildren
        exact hne hchildren
      rw [hstart, hstop]
      exact havoids.imp_right (Or.imp_right (And.imp_left hnil))
    · obtain ⟨d, hd, hlike⟩ := exists_like_of_mem hchildren hc
      exact hlike.fits source comments (h.of_mem hd)
  properties P h := by
    refine .intro (fun hproperty => ?_) fun c hc => ?_
    · have hhere := h.here
      rw [AtProperty, ← hkind hproperty, ← hstart, ← hstop] at hhere
      exact hhere hproperty
    · obtain ⟨d, hd, hlike⟩ := exists_like_of_mem hchildren hc
      exact hlike.properties P (h.of_mem hd)

theorem forall₂_like_refl (ts : List Tree) : List.Forall₂ Like ts ts :=
  List.forall₂_same.mpr fun t _ => Like.refl t

/-- The role of a node does not matter to what is below it. -/
theorem like_as (t : Tree) (role : Role) : t.Like (t.as role) :=
  like_of_children rfl rfl (forall₂_like_refl _) (fun _ => rfl) id id id

/-- Whether the parts of a node of this kind do not matter. -/
def isFree (kind : Kind) : Bool :=
  match kind with
  | .member | .subscript | .assignment | .parenthesized | .string => false
  | _ => !(Tree.leaf kind 0 0 []).isAtom

theorem hasShape_of_isFree {t : Tree} (h : isFree t.kind = true) : t.hasShape = true := by
  have hatom : (Tree.leaf t.kind 0 0 []).isAtom = t.isAtom := rfl
  unfold isFree at h
  unfold hasShape
  split at h <;> simp_all

theorem exceeds_of_isFree {t : Tree} (h : isFree t.kind = true) : t.Exceeds := by
  refine exceeds_of_kind ⟨fun hkind => ?_, fun hkind => ?_⟩ <;>
  · rw [hkind] at h
    cases h

theorem not_property_of_isFree {kind : Kind} (h : isFree kind = true) :
    ¬(kind = .member ∨ kind = .subscript) := by
  rintro (rfl | rfl) <;> cases h

theorem holdsName_of_isFree {t : Tree} (h : isFree t.kind = true) : t.HoldsName := by
  intro hkind
  rw [hkind] at h
  cases h

theorem like_ofKind (t : Tree) (kind : Kind) (h : isFree kind = true) : t.Like (t.ofKind kind) :=
  like_of_children rfl rfl (forall₂_like_refl _) (fun hkind => (not_property_of_isFree h hkind).elim)
    (fun _ => hasShape_of_isFree h) (fun _ => exceeds_of_isFree h) fun _ => holdsName_of_isFree h

/-! ### Patterns -/

theorem like_toPatterns {ts ps : List Tree} (h : toPatterns ts = some ps)
    (hts : ∀ t ∈ ts, ∀ p, t.toPattern = some p → t.Like p) : List.Forall₂ Like ts ps := by
  induction ts generalizing ps with
  | nil =>
    cases h
    exact .nil
  | cons t ts ih =>
    rw [toPatterns] at h
    split at h
    · rename_i p rest hp hrest
      cases h
      exact .cons (hts t List.mem_cons_self p hp)
        (ih hrest fun t' ht' => hts t' (List.mem_cons_of_mem t ht'))
    · cases h

theorem like_valueToPattern {ts ps : List Tree} (h : valueToPattern ts = some ps)
    (hts : ∀ t ∈ ts, ∀ p, t.toPattern = some p → t.Like p) : List.Forall₂ Like ts ps := by
  induction ts generalizing ps with
  | nil =>
    cases h
    exact .nil
  | cons t ts ih =>
    rw [valueToPattern] at h
    split at h
    · rename_i p rest hp hrest
      cases h
      refine .cons ?_ (ih hrest fun t' ht' => hts t' (List.mem_cons_of_mem t ht'))
      split at hp
      · exact hts t List.mem_cons_self p hp
      · cases hp
        exact Like.refl t
    · cases h

/-- A pattern can stand for the expression it was made of. -/
theorem like_toPattern {t p : Tree} (h : t.toPattern = some p) : t.Like p := by
  induction t using induction_children generalizing p with
  | step t ih =>
    obtain ⟨kind, role, start, stop, text, children⟩ := t
    have hpatterns : ∀ {ps}, toPatterns children = some ps → List.Forall₂ Like children ps :=
      fun hps => like_toPatterns hps fun c hc p hp => ih c hc hp
    have hfree : ∀ {kind' ps}, isFree kind' = true → List.Forall₂ Like children ps →
        Like ⟨kind, role, start, stop, text, children⟩ ⟨kind', role, start, stop, text, ps⟩ :=
      fun hkind hps => like_of_children rfl rfl hps
        (fun h => (not_property_of_isFree hkind h).elim) (fun _ => hasShape_of_isFree hkind)
        (fun _ => exceeds_of_isFree hkind) fun _ => holdsName_of_isFree hkind
    unfold toPattern at h
    split at h
    -- Names and properties stay what they are. Of a literal the parts become patterns.
    iterate 5
      · cases h
        exact Like.refl _
    · obtain ⟨ps, hps, rfl⟩ := Option.map_eq_some_iff.mp h
      exact hfree rfl (hpatterns hps)
    · obtain ⟨ps, hps, rfl⟩ := Option.map_eq_some_iff.mp h
      exact hfree rfl (hpatterns hps)
    · obtain ⟨ps, hps, rfl⟩ := Option.map_eq_some_iff.mp h
      exact hfree rfl (like_valueToPattern hps fun c hc p hp => ih c hc hp)
    · cases h
      exact hfree rfl (forall₂_like_refl _)
    · cases h
      exact hfree rfl (forall₂_like_refl _)
    · split at h
      · rename_i ps hps
        split at h
        · cases h
        · cases h
          exact hfree rfl (hpatterns hps)
      · cases h
    · split at h
      · cases h
      · cases h
        exact hfree rfl (forall₂_like_refl _)
    · cases h

/-- What may stand left of `=` can stand for the expression it was made of. It is a named
node. -/
theorem like_toTarget {t u : Tree} (h : t.toTarget = some u) : t.Like u ∧ u.isNamed = true := by
  obtain ⟨kind, role, start, stop, text, children⟩ := t
  unfold toTarget at h
  split at h
  iterate 5
    · rename_i hkind
      cases h
      exact ⟨Like.refl _, by simp_all [isNamed]⟩
  iterate 2
    · rename_i hkind
      refine ⟨like_toPattern h, ?_⟩
      dsimp only at hkind
      subst hkind
      unfold toPattern at h
      obtain ⟨ps, -, rfl⟩ := Option.map_eq_some_iff.mp h
      rfl
  · cases h

end Tree

/-- A lexeme as a leaf. -/
def Tree.IsLeaf (kind : Kind) (lexeme : Text) (t : Tree) : Prop :=
  ∃ start, t = Tree.leaf kind start (start + Scan.byteLength lexeme) lexeme

theorem Tree.map_like {ts us : List Tree} (hlike : List.Forall₂ Like ts us) :
    us.map Tree.start = ts.map Tree.start ∧ us.map Tree.stop = ts.map Tree.stop := by
  induction hlike with
  | nil => exact ⟨rfl, rfl⟩
  | cons hlike _ ih =>
    simp [hlike.start, hlike.stop, ih.1, ih.2]

/-- Trees that can stand for those that consist of pieces. -/
theorem Tree.Consist.like {offset : Nat} {ts us : List Tree} {pieces : List Piece}
    (h : Consist offset ts pieces) (hlike : List.Forall₂ Like ts us) :
    Consist offset us pieces := by
  obtain ⟨hstarts, hstops⟩ := map_like hlike
  refine ⟨fun hnil => ?_, fun u hu => ?_, fun u hu => ?_, fun u hu => ?_⟩
  · subst hnil
    exact h.nil (List.forall₂_nil_right_iff.mp hlike)
  · have hstart : (ts.map Tree.start).head? = some u.start := by
      rw [← hstarts, List.head?_map, hu, Option.map_some]
    obtain ⟨t, ht, hstart⟩ := Option.map_eq_some_iff.mp (List.head?_map.symm.trans hstart)
    rw [← hstart, h.start t ht]
  · have hstop : (ts.map Tree.stop).getLast? = some u.stop := by
      rw [← hstops, List.getLast?_map, hu, Option.map_some]
    obtain ⟨t, ht, hstop⟩ := Option.map_eq_some_iff.mp (List.getLast?_map.symm.trans hstop)
    rw [← hstop]
    exact h.stop t ht
  · obtain ⟨t, ht, hlike⟩ := exists_like_of_mem hlike hu
    exact hlike.properties _ (h.properties t ht)

namespace Scan.PassedFrom

variable {source : Text} {place place₁ : Place} {s s₁ : Scan} {ts us : List Tree}

/-- Trees that can stand for those that were read. -/
theorem like (h : PassedFrom source place s ts place₁ s₁) (hlike : List.Forall₂ Tree.Like ts us) :
    PassedFrom source place s us place₁ s₁ where
  sound := h.sound
  nested := Tree.areNested_like hlike h.nested
  later := h.later
  fits u hu := by
    obtain ⟨t, ht, hlike⟩ := Tree.exists_like_of_mem hlike hu
    exact hlike.fits source s₁.comments (h.fits t ht)
  read := by
    obtain ⟨pieces, hlexed, hconsist, hoffset⟩ := h.read
    exact ⟨pieces, hlexed, hconsist.like hlike, hoffset⟩

/-- The tree read last may be replaced. -/
theorem like_last {t u : Tree} (h : PassedFrom source place s (ts ++ [t]) place₁ s₁)
    (hlike : t.Like u) : PassedFrom source place s (ts ++ [u]) place₁ s₁ :=
  h.like (List.rel_append (Tree.forall₂_like_refl ts) (.cons hlike .nil))

/-- Trees before the one read last may be replaced. -/
theorem like_middle {vs : List Tree} (h : PassedFrom source place s (vs ++ ts ++ us) place₁ s₁)
    {ts' : List Tree} (hlike : List.Forall₂ Tree.Like ts ts') :
    PassedFrom source place s (vs ++ ts' ++ us) place₁ s₁ :=
  h.like (List.rel_append (List.rel_append (Tree.forall₂_like_refl vs) hlike)
    (Tree.forall₂_like_refl us))

/-- A node of a kind whose parts do not matter. -/
theorem free (h : PassedFrom source place s ts place₁ s₁) {kind : Kind}
    (hkind : Tree.isFree kind = true) (hne : ts ≠ []) :
    PassedFrom source place s [Tree.node kind ts] place₁ s₁ :=
  h.node hne (Tree.hasShape_of_isFree hkind) (Tree.exceeds_of_isFree hkind)
    fun hproperty => (Tree.not_property_of_isFree hkind hproperty).elim

/-- One tree in parentheses. -/
theorem parenthesized {opening inner closing : Tree}
    (h : PassedFrom source place s [opening, inner, closing] place₁ s₁)
    (hopening : opening.isNamed = false) (hclosing : closing.isNamed = false) :
    PassedFrom source place s [Tree.node .parenthesized [opening, inner, closing]] place₁ s₁ := by
  have hnamed : [opening, inner, closing].filter Tree.isNamed = [inner].filter Tree.isNamed := by
    simp [List.filter_cons, hopening, hclosing]
  refine h.node (by simp) (decide_eq_true ((List.length_filter_le _ _).trans ?_))
    (Tree.exceeds_node (by decide) _) (by simp)
  calc ([opening, inner, closing].filter Tree.isNamed).length
      = ([inner].filter Tree.isNamed).length := by rw [hnamed]
    _ ≤ 1 := List.length_filter_le _ _

end Scan.PassedFrom

namespace Parser

open Scan

variable {source : Text} {α β : Type}

/-! ### Steps that read nothing -/

theorem exists_of_bind {x : Parser α} {f : α → Parser β} {s s' : Scan} {b : β}
    (h : (x >>= f) s = some (b, s')) : ∃ a s₁, x s = some (a, s₁) ∧ f a s₁ = some (b, s') := by
  obtain ⟨⟨a, s₁⟩, hx, hf⟩ := Option.bind_eq_some_iff.mp h
  exact ⟨a, s₁, hx, hf⟩

theorem bind_of_eq {x : Parser α} {s s₁ : Scan} {a : α} (h : x s = some (a, s₁))
    (f : α → Parser β) : (x >>= f) s = f a s₁ := by
  show (x s).bind (fun y => f y.1 y.2) = _
  rw [h]
  rfl

theorem of_require {condition : Bool} {f : Unit → Parser β} {s s' : Scan} {b : β}
    (h : (require condition >>= f) s = some (b, s')) :
    condition = true ∧ f () s = some (b, s') := by
  obtain ⟨u, s₁, hx, hf⟩ := exists_of_bind h
  unfold require at hx
  split at hx
  · rename_i hcondition
    cases hx
    exact ⟨hcondition, hf⟩
  · cases hx

section

variable (s : Scan)

@[simp] theorem bind_next (f : Token → Parser β) : (next >>= f) s = f s.next s := rfl

@[simp] theorem bind_gap (f : Gap → Parser β) : (gap >>= f) s = f s.gap s := rfl

@[simp] theorem bind_budget (f : Nat → Parser β) : (budget >>= f) s = f (s.rest.length + 1) s := rfl

@[simp] theorem bind_get (f : Scan → Parser β) : (get >>= f) s = f s s := rfl

@[simp] theorem bind_atSymbol (spelling : String) (f : Bool → Parser β) :
    (atSymbol spelling >>= f) s = f (s.next == .symbol spelling.toText) s := rfl

@[simp] theorem bind_atWord (spelling : String) (f : Bool → Parser β) :
    (atWord spelling >>= f) s = f (s.next == .name spelling.toText) s := rfl

@[simp] theorem bind_ite {c : Prop} [Decidable c] (x y : Parser α) (f : α → Parser β) :
    ((if c then x else y) >>= f) s = if c then (x >>= f) s else (y >>= f) s := by
  split <;> rfl

@[simp] theorem bind_atEnd (bare : Bool) (f : Bool → Parser β) :
    (atEnd bare >>= f) s = f (s.next == .symbol ";".toText || s.endsByBreak bare) s := rfl

end

/-- One of two readers. -/
theorem of_orElse {x y : Parser α} {s s' : Scan} {a : α} (h : (x <|> y) s = some (a, s')) :
    x s = some (a, s') ∨ y s = some (a, s') := by
  have h : (x s <|> y s) = some (a, s') := h
  cases hx : x s with
  | some found =>
    rw [hx] at h
    exact .inl h
  | none =>
    rw [hx] at h
    exact .inr h

/-- Looking past the next token reads nothing. -/
theorem of_second {f : Scan → Parser β} {s s' : Scan} {b : β}
    (h : (second >>= f) s = some (b, s')) : ∃ behind, f behind s = some (b, s') := by
  obtain ⟨behind, s₁, hx, hf⟩ := exists_of_bind h
  refine ⟨behind, ?_⟩
  unfold second at hx
  split at hx <;>
  · cases hx
    exact hf

/-! ### Readers -/

/-- A reader whose trees fit the source, and have a property. -/
def Reads (source : Text) (P : Tree → Prop) (x : Parser Tree) : Prop :=
  ∀ s t s', s.Sound source → x s = some (t, s') → Passed source s [t] s' ∧ P t

/-- A reader of named nodes that fit the source. -/
abbrev ReadsNamed (source : Text) (x : Parser Tree) : Prop :=
  Reads source (fun t => t.isNamed = true) x

/-- A reader whose rows of trees fit the source, and have a property. It begins at some place
and ends between tokens. -/
def ReadsAllFrom (source : Text) (place : Place) (P : List Tree → Prop)
    (x : Parser (List Tree)) : Prop :=
  ∀ s ts s', s.Sound source → x s = some (ts, s') → PassedFrom source place s ts .code s' ∧ P ts

/-- A reader of rows that begins between tokens. -/
abbrev ReadsAll (source : Text) (P : List Tree → Prop) (x : Parser (List Tree)) : Prop :=
  ReadsAllFrom source .code P x

theorem reads_reject {P : Tree → Prop} : Reads source P reject := by
  intro s t s' hs h
  cases h

/-- One of two readers, whichever way a question is answered. -/
theorem Reads.ite {P : Tree → Prop} {c : Prop} [Decidable c] {x y : Parser Tree}
    (hx : Reads source P x) (hy : Reads source P y) : Reads source P (if c then x else y) := by
  split
  · exact hx
  · exact hy

theorem Reads.mono {P Q : Tree → Prop} {x : Parser Tree} (hx : Reads source P x)
    (hPQ : ∀ t, P t → Q t) : Reads source Q x :=
  fun s t s' hs h => (hx s t s' hs h).imp_right (hPQ t)

/-- A reader that goes on from trees that were read before it. -/
theorem Reads.bind {P : Tree → Prop} {x : Parser Tree} {f : Tree → Parser β} {s s₁ s' : Scan}
    {place : Place} {ts : List Tree} {b : β} (hx : Reads source P x)
    (p : PassedFrom source place s ts .code s₁) (h : (x >>= f) s₁ = some (b, s')) :
    ∃ t s₂, PassedFrom source place s (ts ++ [t]) .code s₂ ∧ P t ∧ f t s₂ = some (b, s') := by
  obtain ⟨t, s₂, hrun, hf⟩ := exists_of_bind h
  obtain ⟨p', ht⟩ := hx s₁ t s₂ p.sound hrun
  exact ⟨t, s₂, p.append p', ht, hf⟩

theorem ReadsAllFrom.bind {P : List Tree → Prop} {x : Parser (List Tree)}
    {f : List Tree → Parser β} {s s₁ s' : Scan} {place place₁ : Place} {ts : List Tree} {b : β}
    (hx : ReadsAllFrom source place₁ P x) (p : PassedFrom source place s ts place₁ s₁)
    (h : (x >>= f) s₁ = some (b, s')) :
    ∃ us s₂, PassedFrom source place s (ts ++ us) .code s₂ ∧ P us ∧ f us s₂ = some (b, s') := by
  obtain ⟨us, s₂, hrun, hf⟩ := exists_of_bind h
  obtain ⟨p', hus⟩ := hx s₁ us s₂ p.sound hrun
  exact ⟨us, s₂, p.append p', hus, hf⟩

/-! ### Tokens -/

theorem ofText_of_next {s : Scan} {token : Token} (hs : s.Sound source) (hnext : s.next = token)
    (htoken : token ≠ .unknown) : Token.ofText s.rest = token := by
  rcases hs.token with h | h
  · exact absurd (hnext.symm.trans h) htoken
  · rw [← h, hnext]

theorem reads_of_next {s : Scan} {token : Token} (hs : s.Sound source) (hnext : s.next = token) :
    token.Reads s.rest := by
  rcases hs.token with h | h
  · rw [← hnext, h]
    trivial
  · rw [← hnext, h]
    exact Token.reads_ofText s.rest

/-- Reading a lexeme moves on to the token behind it. -/
theorem of_take {kind : Kind} {lexeme : Text} {f : Tree → Parser β} {s s₁ s' : Scan}
    {place place₁ : Place} {ts : List Tree} {b : β} (p : PassedFrom source place s ts place₁ s₁)
    (hkind : kind ≠ .member ∧ kind ≠ .subscript)
    (hread : place₁.lexeme? .code s₁.rest = some lexeme)
    (h : (take kind lexeme >>= f) s₁ = some (b, s')) :
    ∃ t s₂, PassedFrom source place s (ts ++ [t]) .code s₂ ∧ t.IsLeaf kind lexeme ∧
      f t s₂ = some (b, s') :=
  ⟨_, _, p.take hkind hread, ⟨s₁.offset, rfl⟩, h⟩

/-- Reading a lexeme inside of a quotation stops right behind it. -/
theorem of_takeInside {kind : Kind} {lexeme : Text} {f : Tree → Parser β} {s s₁ s' : Scan}
    {place place₁ place₂ : Place} {ts : List Tree} {b : β}
    (p : PassedFrom source place s ts place₁ s₁) (hkind : kind ≠ .member ∧ kind ≠ .subscript)
    (hplace : place₂ ≠ .code) (hread : place₁.lexeme? place₂ s₁.rest = some lexeme)
    (h : (takeInside kind lexeme >>= f) s₁ = some (b, s')) :
    ∃ t s₂, PassedFrom source place s (ts ++ [t]) place₂ s₂ ∧ t.IsLeaf kind lexeme ∧
      s₂.rest = s₁.rest.drop lexeme.length ∧ f t s₂ = some (b, s') :=
  ⟨_, _, p.takeInside hkind hplace hread, ⟨s₁.offset, rfl⟩, rfl, h⟩

theorem reads_take {kind : Kind} {lexeme : Text} {s t s'} (hs : s.Sound source)
    (hkind : kind ≠ .member ∧ kind ≠ .subscript)
    (hread : Place.lexeme? .code .code s.rest = some lexeme)
    (h : take kind lexeme s = some (t, s')) : Passed source s [t] s' ∧ t.IsLeaf kind lexeme := by
  cases h
  exact ⟨(PassedFrom.refl hs).take hkind hread, s.offset, rfl⟩

theorem reads_symbol (spelling : String) :
    Reads source (Tree.IsLeaf .token spelling.toText) (symbol spelling) := by
  intro s t s' hs h
  unfold symbol at h
  simp only [bind_atSymbol] at h
  obtain ⟨hnext, h⟩ := of_require h
  exact reads_take hs (by decide) (reads_of_next hs (beq_iff_eq.mp hnext)) h

theorem reads_keyword (spelling : String) :
    Reads source (Tree.IsLeaf .token spelling.toText) (keyword spelling) := by
  intro s t s' hs h
  unfold keyword at h
  simp only [bind_atWord] at h
  obtain ⟨hnext, h⟩ := of_require h
  exact reads_take hs (by decide) (reads_of_next hs (beq_iff_eq.mp hnext)) h

theorem readsAll_symbol? (spelling : String) :
    ReadsAll source (fun _ => True) (symbol? spelling) := by
  intro s ts s' hs h
  unfold symbol? at h
  simp only [bind_atSymbol] at h
  split at h
  · rename_i hnext
    obtain ⟨t, s₁, p, -, h⟩ :=
      of_take (PassedFrom.refl hs) (by decide) (reads_of_next hs (beq_iff_eq.mp hnext)) h
    cases h
    exact ⟨p, trivial⟩
  · cases h
    exact ⟨.refl hs, trivial⟩

theorem readsAll_keyword? (spelling : String) :
    ReadsAll source (fun _ => True) (keyword? spelling) := by
  intro s ts s' hs h
  unfold keyword? at h
  simp only [bind_atWord] at h
  split at h
  · rename_i hnext
    obtain ⟨t, s₁, p, -, h⟩ :=
      of_take (PassedFrom.refl hs) (by decide) (reads_of_next hs (beq_iff_eq.mp hnext)) h
    cases h
    exact ⟨p, trivial⟩
  · cases h
    exact ⟨.refl hs, trivial⟩

theorem readsAll_terminator (bare : Bool) :
    ReadsAll source (fun _ => True) (terminator bare) := by
  intro s ts s' hs h
  unfold terminator at h
  simp only [bind_atEnd] at h
  exact readsAll_symbol? ";" s ts s' hs (of_require h).2

/-! ### Rows -/

/-- A row of items, for as long as a question that reads nothing says so. -/
theorem readsAll_many {P : Tree → Prop} {more : Parser Bool} {item : Parser Tree}
    (hmore : ∀ s b s', more s = some (b, s') → s' = s) (hitem : Reads source P item) (n : Nat) :
    ReadsAll source (fun _ => True) (many more item n) := by
  induction n with
  | zero =>
    intro s ts s' hs h
    cases h
  | succ n ih =>
    intro s ts s' hs h
    unfold many at h
    obtain ⟨again, s₁, hagain, hrun⟩ := exists_of_bind h
    obtain rfl := hmore s again s₁ hagain
    split at hrun
    · obtain ⟨first, s₂, p, -, h⟩ := hitem.bind (.refl hs) hrun
      obtain ⟨others, s₃, p, -, h⟩ := ih.bind p h
      cases h
      exact ⟨p, trivial⟩
    · cases hrun
      exact ⟨.refl hs, trivial⟩

/-- A row of items ends where the question says so. -/
theorem many_stops {more : Parser Bool} {item : Parser Tree}
    (hmore : ∀ s b s', more s = some (b, s') → s' = s) {n : Nat} {s s' : Scan} {ts : List Tree}
    (h : many more item n s = some (ts, s')) : more s' = some (false, s') := by
  induction n generalizing s ts with
  | zero => cases h
  | succ n ih =>
    unfold many at h
    obtain ⟨again, s₁, hagain, hrun⟩ := exists_of_bind h
    obtain rfl := hmore s again s₁ hagain
    split at hrun
    · obtain ⟨first, s₂, -, h⟩ := exists_of_bind hrun
      obtain ⟨others, s₃, hothers, h⟩ := exists_of_bind h
      cases h
      exact ih hothers
    · rename_i hlast
      cases hrun
      rw [hagain, Bool.not_eq_true _ |>.mp hlast]

theorem readsAll_commaList {P : Tree → Prop} {item : Parser Tree} (close : String) (holes : Bool)
    (hitem : Reads source P item) (n : Nat) :
    ReadsAll source (fun _ => True) (commaList close holes item n) := by
  induction n with
  | zero =>
    intro s ts s' hs h
    cases h
  | succ n ih =>
    intro s ts s' hs h
    unfold commaList at h
    simp only [bind_atSymbol] at h
    split at h
    · cases h
      exact ⟨.refl hs, trivial⟩
    · simp only [bind_atSymbol] at h
      split at h
      · obtain ⟨-, h⟩ := of_require h
        obtain ⟨comma, s₁, p, -, h⟩ := (reads_symbol ",").bind (.refl hs) h
        obtain ⟨others, s₂, p, -, h⟩ := ih.bind p h
        cases h
        exact ⟨p, trivial⟩
      · obtain ⟨first, s₁, p, -, h⟩ := hitem.bind (.refl hs) h
        simp only [bind_atSymbol] at h
        split at h
        · cases h
          exact ⟨p, trivial⟩
        · obtain ⟨comma, s₂, p, -, h⟩ := (reads_symbol ",").bind p h
          obtain ⟨others, s₃, p, -, h⟩ := ih.bind p h
          cases h
          exact ⟨p, trivial⟩

/-- At least one item. If it is the only one, it is what an item is. -/
theorem readsAll_commaSeparated {P : Tree → Prop} {item : Parser Tree}
    (hitem : Reads source P item) (n : Nat) :
    ReadsAll source (fun ts => ts ≠ [] ∧ ∀ t, ts = [t] → P t) (commaSeparated item n) := by
  induction n with
  | zero =>
    intro s ts s' hs h
    cases h
  | succ n ih =>
    intro s ts s' hs h
    unfold commaSeparated at h
    obtain ⟨first, s₁, p, hfirst, h⟩ := hitem.bind (.refl hs) h
    simp only [bind_atSymbol] at h
    split at h
    · obtain ⟨comma, s₂, p, -, h⟩ := (reads_symbol ",").bind p h
      obtain ⟨others, s₃, p, -, h⟩ := ih.bind p h
      cases h
      exact ⟨p, by simp⟩
    · cases h
      refine ⟨p, by simp, fun t ht => ?_⟩
      rwa [← (List.singleton_inj.mp ht)]

/-- A row between two punctuators. -/
theorem reads_enclosed {kind : Kind} (hkind : Tree.isFree kind = true)
    (hnamed : (kind != .token) = true) {opening closing : String}
    {row : Nat → Parser (List Tree)} (hrow : ∀ n, ReadsAll source (fun _ => True) (row n)) :
    ReadsNamed source (do
      let opening ← symbol opening
      let items ← row (← budget)
      let closing ← symbol closing
      return Tree.node kind (opening :: items ++ [closing])) := by
  intro s t s' hs h
  obtain ⟨first, s₁, p, -, h⟩ := (reads_symbol opening).bind (.refl hs) h
  simp only [bind_budget] at h
  obtain ⟨items, s₂, p, -, h⟩ := (hrow _).bind p h
  obtain ⟨last, s₃, p, -, h⟩ := (reads_symbol closing).bind p h
  cases h
  exact ⟨p.free hkind (by simp), hnamed⟩

/-! ### Quotations -/

/-- The inside of a string: fragments and escapes, and the quote at the end. -/
theorem readsAll_stringRest (quote : CodePoint) (n : Nat) :
    ReadsAllFrom source (.string quote) (fun ts => ∀ t ∈ ts, t.isNamed = true → t.isAtom = true)
      (stringRest quote n) := by
  induction n with
  | zero =>
    intro s ts s' hs h
    cases h
  | succ n ih =>
    intro s ts s' hs h
    unfold stringRest at h
    simp only [bind_get] at h
    split at h
    · rename_i hquote
      have hread : Place.lexeme? (.string quote) .code s.rest = some [quote] := if_pos hquote
      obtain ⟨closing, s₁, p, ⟨start, rfl⟩, h⟩ := of_take (PassedFrom.refl hs) (by decide) hread h
      cases h
      exact ⟨p, by simp [Tree.leaf, Tree.isNamed]⟩
    · rename_i hquote
      cases hescape : Lexeme.escape? s.rest with
      | some escape =>
        simp only [hescape] at h
        have hread := Place.lexeme?_escape hquote hescape
        obtain ⟨first, s₁, p, ⟨start, rfl⟩, -, h⟩ :=
          of_takeInside (PassedFrom.refl hs) (by decide) (by simp) hread h
        obtain ⟨others, s₂, p, hothers, h⟩ := ih.bind p h
        cases h
        exact ⟨p, List.forall_mem_cons.mpr ⟨fun _ => rfl, hothers⟩⟩
      | none =>
        simp only [hescape] at h
        obtain ⟨hne, h⟩ := of_require h
        have hread := Place.lexeme?_fragment hquote hescape (by simpa using hne)
        obtain ⟨first, s₁, p, ⟨start, rfl⟩, -, h⟩ :=
          of_takeInside (PassedFrom.refl hs) (by decide) (by simp) hread h
        obtain ⟨others, s₂, p, hothers, h⟩ := ih.bind p h
        cases h
        exact ⟨p, List.forall_mem_cons.mpr ⟨fun _ => rfl, hothers⟩⟩

/-- A string has fragments and escapes as its only parts. -/
theorem reads_string : ReadsNamed source string := by
  intro s t s' hs h
  unfold string at h
  simp only [bind_next] at h
  cases hnext : s.next with
  | quote quote =>
    simp only [hnext] at h
    obtain ⟨opening, s₁, p, ⟨start, rfl⟩, -, h⟩ :=
      of_takeInside (PassedFrom.refl hs) (by decide) (by simp) (reads_of_next hs hnext) h
    simp only [bind_budget] at h
    obtain ⟨inside, s₂, p, hinside, h⟩ := (readsAll_stringRest quote _).bind p h
    cases h
    refine ⟨Passed.node p (by simp) ?_ (Tree.exceeds_node (by decide) _), rfl⟩
    simp only [Tree.hasShape, Tree.node, Tree.namedChildren, List.all_eq_true, List.mem_filter,
      List.nil_append, List.singleton_append, List.mem_cons]
    rintro t ⟨rfl | ht, hnamed⟩
    · cases hnamed
    · exact hinside t ht hnamed
  | _ =>
    simp only [hnext] at h
    cases h

theorem reads_regex : ReadsNamed source regex := by
  intro s t s' hs h
  unfold regex at h
  simp only [bind_get] at h
  cases hrest : s.rest with
  | nil =>
    simp only [hrest] at h
    cases h
  | cons slash rest =>
    simp only [hrest] at h
    obtain ⟨hslash, h⟩ := of_require h
    have hslash : slash = CodePoint.ofChar '/' := of_decide_eq_true hslash
    cases hbody : regexBody? .outside false rest with
    | none =>
      simp only [hbody] at h
      cases h
    | some body =>
      simp only [hbody] at h
      obtain ⟨hne, h⟩ := of_require h
      have hne : body ≠ [] := by simpa using hne
      obtain ⟨behind, hbehind⟩ := Lexeme.begins_regexBody? hbody
      have hdrop : rest.drop (body.length + 1) = behind := by
        rw [← hbehind]
        simp
      rw [hdrop] at h
      subst hslash
      have hopening : Place.lexeme? .code .pattern s.rest = some [CodePoint.ofChar '/'] :=
        if_pos (by rw [hrest, List.head?_cons])
      obtain ⟨opening, s₁, p, -, hrest₁, h⟩ :=
        of_takeInside (PassedFrom.refl hs) (by decide) (by simp) hopening h
      have hrest₁ : s₁.rest = rest := by rw [hrest₁, hrest]; rfl
      have hpattern : Place.lexeme? .pattern .slash s₁.rest = some body := by
        simp [Place.lexeme?, hrest₁, hbody, Place.stretch?, hne]
      obtain ⟨pattern, s₂, p, -, hrest₂, h⟩ :=
        of_takeInside p (by decide) (by simp) hpattern h
      have hrest₂ : s₂.rest = CodePoint.ofChar '/' :: behind := by
        rw [hrest₂, hrest₁, ← hbehind]
        simp
      split at h
      · rename_i hflags
        have hclosing : Place.lexeme? .slash .code s₂.rest = some [CodePoint.ofChar '/'] :=
          if_pos ⟨by rw [hrest₂, List.head?_cons], by rw [hrest₂]; simpa using hflags⟩
        obtain ⟨closing, s₃, p, -, h⟩ := of_take p (by decide) hclosing h
        cases h
        exact ⟨p.free rfl (by simp), rfl⟩
      · rename_i hflags
        have hclosing : Place.lexeme? .slash .flags s₂.rest = some [CodePoint.ofChar '/'] :=
          if_pos ⟨by rw [hrest₂, List.head?_cons], by rw [hrest₂]; simpa using hflags⟩
        obtain ⟨closing, s₃, p, -, hrest₃, h⟩ := of_takeInside p (by decide) (by simp) hclosing h
        have hrest₃ : s₃.rest = behind := by rw [hrest₃, hrest₂]; rfl
        have hflags : Place.lexeme? .flags .code s₃.rest =
            some (behind.takeWhile CodePoint.isLower) := by
          simpa [Place.lexeme?, Place.stretch?, hrest₃] using hflags
        obtain ⟨flagged, s₄, p, -, h⟩ := of_take p (by decide) hflags h
        cases h
        exact ⟨p.free rfl (by simp), rfl⟩

end Parser

end Unproxy.Syntax
