import Mathlib
import Unproxy.Proofs.Syntax.Piece
import Unproxy.Proofs.Syntax.WellFormed

/-!
# Unproxy.Proofs.Syntax.Scan

What a reader of programs may rely on while it moves on through the source: where it
stands, which token comes next, and where the comments lie that it has passed.

Main definitions:

* `Tree.Forall`: what holds of a node and of all nodes below it;
* `Tree.Exceeds`: a node that is longer than its parts, if it is a property;
* `Tree.Fits`: a node that has the parts its kind asks for and cuts through neither a
  code point nor a comment;
* `Scan.Sound`: a scan that stands somewhere in the source;
* `Scan.Passed`: the trees read between two scans.

Main statements:

* `Scan.sound_between`: white space and comments can be passed over;
* `Scan.Passed.append`, `Scan.Passed.node`: trees read one after the other, and the node
  made of them;
* `Scan.Passed.take`: reading a lexeme as a leaf.
-/

namespace Unproxy.Syntax

/-! ### Trees and comments -/

/-- What holds of a node and of all nodes below it. -/
inductive Tree.Forall (P : Tree → Prop) : Tree → Prop
  | intro {t : Tree} (here : P t) (below : ∀ c ∈ t.children, Forall P c) : Forall P t

namespace Tree

theorem Forall.here {P : Tree → Prop} {t : Tree} (h : t.Forall P) : P t := by
  cases h with
  | intro here below => exact here

theorem Forall.of_mem {P : Tree → Prop} {t c : Tree} (h : t.Forall P) (hc : c ∈ t.children) :
    c.Forall P := by
  cases h with
  | intro here below => exact below c hc

theorem Forall.mono {P Q : Tree → Prop} {t : Tree} (h : t.Forall P) (hPQ : ∀ x, P x → Q x) :
    t.Forall Q := by
  induction h with
  | intro here below ih => exact .intro (hPQ _ here) ih

theorem Forall.and {P Q : Tree → Prop} {t : Tree} (hP : t.Forall P) (hQ : t.Forall Q) :
    t.Forall fun x => P x ∧ Q x := by
  induction hP with
  | intro here below ih => exact .intro ⟨here, hQ.here⟩ fun c hc => ih c hc (hQ.of_mem hc)

theorem isShaped_of_forall {t : Tree} (h : t.Forall fun x => x.hasShape = true) :
    t.isShaped = true := by
  induction h with
  | intro here below ih => exact isShaped_iff.mpr ⟨here, ih⟩

/-- What holds of a node whenever it holds of its children holds of every node. -/
theorem induction_children {motive : Tree → Prop}
    (step : ∀ t, (∀ c ∈ t.children, motive c) → motive t) (t : Tree) : motive t :=
  step t fun c hc =>
    have : sizeOf c < sizeOf t := by
      have hlist := List.sizeOf_lt_of_mem hc
      have hnode : sizeOf t.children < sizeOf t := by
        obtain ⟨kind, role, start, stop, text, children⟩ := t
        simp only [mk.sizeOf_spec]
        omega
      omega
    induction_children step c
termination_by sizeOf t

/-- The nodes below a node lie inside of it. -/
theorem forall_inside {t : Tree} {low high : Nat} (h : t.isNested = true) (hlow : low ≤ t.start)
    (hhigh : t.stop ≤ high) : t.Forall fun x => low ≤ x.start ∧ x.stop ≤ high := by
  induction t using induction_children with
  | step t ih =>
    refine .intro ⟨hlow, hhigh⟩ fun c hc => ?_
    rw [isNested_eq] at h
    obtain ⟨hnested, hstart, hstop⟩ := isNested_of_mem h hc
    exact ih c hc hnested (by omega) (by omega)

/-- A comment of the source, as a leaf of its own. -/
structure IsComment (source : Text) (k : Tree) : Prop where
  kind : k.kind = .comment
  role : k.role = none
  children : k.children = []
  lt : k.start < k.stop
  start : Utf8.isBoundary source k.start = true
  stop : Utf8.isBoundary source k.stop = true

/-- A node and a comment lie apart, or the comment lies between parts of the node. -/
def Avoids (t k : Tree) : Prop :=
  t.stop ≤ k.start ∨ k.stop ≤ t.start ∨ t.children ≠ [] ∧ t.start ≤ k.start ∧ k.stop ≤ t.stop

/-- What a property is made of is shorter than the property itself, for a point or a bracket
stands before or behind it. -/
def Exceeds (t : Tree) : Prop :=
  t.kind = .member ∨ t.kind = .subscript → ∀ c ∈ t.children, c.isNamed = true →
    c.isAtom = false → t.start < c.start ∨ c.stop < t.stop

theorem exceeds_of_kind {t : Tree} (h : t.kind ≠ .member ∧ t.kind ≠ .subscript) : t.Exceeds := by
  rintro (hkind | hkind)
  · exact absurd hkind h.1
  · exact absurd hkind h.2

theorem exceeds_node {kind : Kind} (h : kind ≠ .member ∧ kind ≠ .subscript) (ts : List Tree) :
    (node kind ts).Exceeds :=
  exceeds_of_kind h

/-- A variable takes up the bytes of its name. -/
def HoldsName (t : Tree) : Prop :=
  t.kind = .identifier → t.start + (Utf8.encode t.text).length ≤ t.stop

/-- A node with the parts that its kind asks for, which cuts through no code point and
through no comment. -/
structure Fits (source : Text) (comments : List Tree) (t : Tree) : Prop where
  start : Utf8.isBoundary source t.start = true
  stop : Utf8.isBoundary source t.stop = true
  shape : t.hasShape = true
  exceeds : t.Exceeds
  name : t.HoldsName
  avoids : ∀ k ∈ comments, t.Avoids k

/-- The places around a row may lie further out. -/
theorem areNested_mono {low low' high high' : Nat} {ts : List Tree}
    (h : areNested low high ts = true) (hlow : low' ≤ low) (hhigh : high ≤ high') :
    areNested low' high' ts = true := by
  induction ts generalizing low low' with
  | nil =>
    have := le_of_areNested [] h
    exact decide_eq_true (by omega)
  | cons t ts ih =>
    obtain ⟨hstart, ht, hts⟩ := areNested_cons.mp h
    exact areNested_cons.mpr ⟨by omega, ht, ih hts (Nat.le_refl _)⟩

theorem areNested_append {low middle high : Nat} {ts us : List Tree}
    (h : areNested low middle ts = true) (h' : areNested middle high us = true) :
    areNested low high (ts ++ us) = true := by
  induction ts generalizing low with
  | nil => exact areNested_mono h' (le_of_areNested [] h) (Nat.le_refl _)
  | cons t ts ih =>
    obtain ⟨hlow, ht, hts⟩ := areNested_cons.mp h
    exact areNested_cons.mpr ⟨hlow, ht, ih hts⟩

theorem exists_areNested_append {low high : Nat} {ts us : List Tree}
    (h : areNested low high (ts ++ us) = true) :
    ∃ middle, areNested low middle ts = true ∧ areNested middle high us = true := by
  induction ts generalizing low with
  | nil => exact ⟨low, decide_eq_true (Nat.le_refl _), h⟩
  | cons t ts ih =>
    obtain ⟨hlow, ht, hts⟩ := areNested_cons.mp h
    obtain ⟨middle, hts, hus⟩ := ih hts
    exact ⟨middle, areNested_cons.mpr ⟨hlow, ht, hts⟩, hus⟩

end Tree

/-! ### Standing in the source -/

theorem Scan.byteLength_eq (t : Text) : Scan.byteLength t = (Utf8.encode t).length := by
  induction t with
  | nil => rfl
  | cons c t ih =>
    rw [Utf8.encode_cons, List.length_append, Utf8.length_encodeOne, ← ih]
    rfl

/-- A scan that stands somewhere in the source, at the token it says, with the comments
before it in order and apart, the last one first. -/
structure Scan.Sound (source : Text) (s : Scan) : Prop where
  split : ∃ before, source = before ++ s.rest ∧ (Utf8.encode before).length = s.offset
  token : s.next = .unknown ∨ s.next = Token.ofText s.rest
  comments : ∀ k ∈ s.comments, k.IsComment source
  nested : Tree.areNested 0 s.offset s.comments.reverse = true

/-- Where the comment under way began, or else the place itself. -/
def Passage.start (offset : Nat) : Passage → Nat
  | .blank => offset
  | .lineComment start _ | .blockComment start _ => start

/-- A comment under way has begun at a boundary. -/
def Passage.IsOpen (source : Text) (offset : Nat) : Passage → Prop
  | .blank => True
  | .lineComment start _ | .blockComment start _ =>
    Utf8.isBoundary source start = true ∧ start < offset

namespace Scan

variable {source : Text}

theorem isBoundary_of_split {before rest : Text} (h : source = before ++ rest) :
    Utf8.isBoundary source (Utf8.encode before).length = true := by
  have hzero := Utf8.isBoundary_append before rest 0
  rw [Nat.add_zero, ← h] at hzero
  rw [hzero, Utf8.isBoundary]

/-- A further comment behind the others. -/
theorem nested_comment {comments : List Tree} {start stop : Nat} {text : Text}
    (h : Tree.areNested 0 start comments.reverse = true) (hle : start ≤ stop) :
    Tree.areNested 0 stop (Tree.leaf .comment start stop text :: comments).reverse = true := by
  rw [List.reverse_cons]
  refine Tree.areNested_append h ?_
  simp [Tree.areNested, Tree.isNested, Tree.leaf, hle]

theorem isComment_leaf (text : Text) {start stop : Nat} (hlt : start < stop)
    (hstart : Utf8.isBoundary source start = true) (hstop : Utf8.isBoundary source stop = true) :
    (Tree.leaf .comment start stop text).IsComment source :=
  ⟨rfl, rfl, rfl, hlt, hstart, hstop⟩

/-- White space and comments lead to a scan further on. The comments it adds lie behind
the place where the passage began. -/
theorem sound_betweenFrom {passage : Passage} {offset : Nat} {gap : Gap} {comments : List Tree}
    {before t : Text} (hsource : source = before ++ t)
    (hoffset : (Utf8.encode before).length = offset)
    (hcomments : ∀ k ∈ comments, k.IsComment source)
    (hnested : Tree.areNested 0 (passage.start offset) comments.reverse = true)
    (hopen : passage.IsOpen source offset) :
    (betweenFrom passage offset gap comments t).Sound source ∧
      offset ≤ (betweenFrom passage offset gap comments t).offset ∧
      ∀ k ∈ (betweenFrom passage offset gap comments t).comments,
        k ∈ comments ∨ passage.start offset ≤ k.start := by
  have hboundary : Utf8.isBoundary source offset = true := hoffset ▸ isBoundary_of_split hsource
  induction t generalizing passage offset gap comments before with
  | nil =>
    have hsplit : ∃ before, source = before ++ [] ∧ (Utf8.encode before).length = offset :=
      ⟨before, hsource, hoffset⟩
    rw [betweenFrom.eq_def]
    cases passage with
    | blank =>
      exact ⟨⟨hsplit, .inr rfl, hcomments, hnested⟩, Nat.le_refl _, fun k hk => .inl hk⟩
    | lineComment start reversed =>
      refine ⟨⟨hsplit, .inr rfl, ?_, nested_comment hnested (Nat.le_of_lt hopen.2)⟩,
        Nat.le_refl _, fun k hk => ?_⟩
      · exact List.forall_mem_cons.mpr ⟨isComment_leaf _ hopen.2 hopen.1 hboundary, hcomments⟩
      · rcases List.mem_cons.mp hk with rfl | hk
        · exact .inr (Nat.le_refl _)
        · exact .inl hk
    | blockComment start reversed =>
      have hnested := Tree.areNested_mono hnested (Nat.le_refl _) (Nat.le_of_lt hopen.2)
      exact ⟨⟨hsplit, .inl rfl, hcomments, hnested⟩, Nat.le_refl _, fun k hk => .inl hk⟩
  | cons c rest ih =>
    have hwidth := Utf8.width_pos c
    have hsource' : source = (before ++ [c]) ++ rest := by rw [hsource]; simp
    have hhere : (Utf8.encode (before ++ [c])).length = offset + Utf8.width c := by
      simp [Utf8.encode_append, Utf8.encode_cons, Utf8.encode_nil, Utf8.length_encodeOne, hoffset]
    have hboundary' : Utf8.isBoundary source (offset + Utf8.width c) = true :=
      hhere ▸ isBoundary_of_split hsource'
    -- Going on from here, with the comments so far or one more.
    have hstep : ∀ {passage' gap' comments'}, (∀ k ∈ comments', k.IsComment source) →
        Tree.areNested 0 (passage'.start (offset + Utf8.width c)) comments'.reverse = true →
        passage'.IsOpen source (offset + Utf8.width c) →
        passage.start offset ≤ passage'.start (offset + Utf8.width c) →
        (∀ k ∈ comments', k ∈ comments ∨ passage.start offset ≤ k.start) →
        (betweenFrom passage' (offset + Utf8.width c) gap' comments' rest).Sound source ∧
          offset ≤ (betweenFrom passage' (offset + Utf8.width c) gap' comments' rest).offset ∧
          ∀ k ∈ (betweenFrom passage' (offset + Utf8.width c) gap' comments' rest).comments,
            k ∈ comments ∨ passage.start offset ≤ k.start := by
      intro passage' gap' comments' hcomments' hnested' hopen' hle hfrom
      obtain ⟨hsound, hoffsets, hnew⟩ :=
        ih hsource' hhere hcomments' hnested' hopen' hboundary'
      refine ⟨hsound, by omega, fun k hk => ?_⟩
      rcases hnew k hk with hk | hk
      · exact hfrom k hk
      · exact .inr (by omega)
    rw [betweenFrom.eq_def]
    cases passage with
    | blank =>
      simp only [Passage.start] at hnested hstep
      dsimp only
      split
      · have hle : offset ≤ offset + Utf8.width c := Nat.le_add_right _ _
        exact hstep hcomments (Tree.areNested_mono hnested (Nat.le_refl _) hle) trivial hle
          fun k hk => .inl hk
      · split
        · exact hstep hcomments hnested ⟨hboundary, by omega⟩ (Nat.le_refl _)
            fun k hk => .inl hk
        · split
          · exact hstep hcomments hnested ⟨hboundary, by omega⟩ (Nat.le_refl _)
              fun k hk => .inl hk
          · exact ⟨⟨⟨before, hsource, hoffset⟩, .inr rfl, hcomments, hnested⟩,
              Nat.le_refl _, fun k hk => .inl hk⟩
    | lineComment start reversed =>
      obtain ⟨hstart, hlt⟩ := hopen
      simp only [Passage.start] at hnested hstep
      dsimp only
      split
      · have hcomments' := List.forall_mem_cons.mpr
          ⟨isComment_leaf reversed.reverse hlt hstart hboundary, hcomments⟩
        have hle : start ≤ offset + Utf8.width c := by omega
        refine hstep hcomments' ?_ trivial hle fun k hk => ?_
        · exact Tree.areNested_mono (nested_comment hnested (Nat.le_of_lt hlt)) (Nat.le_refl _)
            (Nat.le_add_right _ _)
        · rcases List.mem_cons.mp hk with rfl | hk
          · exact .inr (Nat.le_refl _)
          · exact .inl hk
      · exact hstep hcomments hnested ⟨hstart, by omega⟩ (Nat.le_refl _) fun k hk => .inl hk
    | blockComment start reversed =>
      obtain ⟨hstart, hlt⟩ := hopen
      simp only [Passage.start] at hnested hstep
      dsimp only
      split
      · have hlt' : start < offset + Utf8.width c := by omega
        have hcomments' := List.forall_mem_cons.mpr
          ⟨isComment_leaf (c :: reversed).reverse hlt' hstart hboundary', hcomments⟩
        refine hstep hcomments' ?_ trivial (Nat.le_of_lt hlt') fun k hk => ?_
        · exact nested_comment hnested (Nat.le_of_lt hlt')
        · rcases List.mem_cons.mp hk with rfl | hk
          · exact .inr (Nat.le_refl _)
          · exact .inl hk
      · exact hstep hcomments hnested ⟨hstart, by omega⟩ (Nat.le_refl _) fun k hk => .inl hk

theorem sound_between {comments : List Tree} {before t : Text} {offset : Nat}
    (hsource : source = before ++ t) (hoffset : (Utf8.encode before).length = offset)
    (hcomments : ∀ k ∈ comments, k.IsComment source)
    (hnested : Tree.areNested 0 offset comments.reverse = true) :
    (between offset comments t).Sound source ∧ offset ≤ (between offset comments t).offset ∧
      ∀ k ∈ (between offset comments t).comments, k ∈ comments ∨ offset ≤ k.start :=
  sound_betweenFrom hsource hoffset hcomments hnested trivial

/-! ### Trees that were read -/

/-- The trees read between two scans lie in order in the part of the source between them,
and the comments that were added lie there too. -/
structure Spanned (source : Text) (s : Scan) (ts : List Tree) (s' : Scan) : Prop where
  sound : s'.Sound source
  nested : Tree.areNested s.offset s'.offset ts = true
  later : ∀ k ∈ s'.comments, k ∈ s.comments ∨ s.offset ≤ k.start
  fits : ∀ t ∈ ts, t.Forall (Tree.Fits source s'.comments)

namespace Spanned

variable {s s₁ s₂ : Scan} {ts us : List Tree}

theorem refl (h : s.Sound source) : Spanned source s [] s where
  sound := h
  nested := decide_eq_true (Nat.le_refl _)
  later _ hk := .inl hk
  fits _ ht := absurd ht List.not_mem_nil

theorem le (h : Spanned source s ts s₁) : s.offset ≤ s₁.offset := Tree.le_of_areNested ts h.nested

/-- Trees read one after the other. -/
theorem append (h : Spanned source s ts s₁) (h' : Spanned source s₁ us s₂) :
    Spanned source s (ts ++ us) s₂ where
  sound := h'.sound
  nested := Tree.areNested_append h.nested h'.nested
  later k hk := by
    rcases h'.later k hk with hk | hk
    · exact h.later k hk
    · exact .inr (Nat.le_trans h.le hk)
  fits t ht := by
    rcases List.mem_append.mp ht with ht | ht
    · obtain ⟨hnested, hstart, hstop⟩ := Tree.isNested_of_mem h.nested ht
      have hinside := Tree.forall_inside hnested hstart hstop
      -- A comment behind the second scan is behind all that was read before it.
      refine ((h.fits t ht).and hinside).mono fun x hx => ?_
      obtain ⟨hfits, -, hxstop⟩ := hx
      refine ⟨hfits.start, hfits.stop, hfits.shape, hfits.exceeds, hfits.name, fun k hk => ?_⟩
      rcases h'.later k hk with hk | hk
      · exact hfits.avoids k hk
      · exact .inl (Nat.le_trans hxstop hk)
    · exact h'.fits t ht

/-! ### Leaves -/

/-- A leaf right before the new scan, and comments behind it. -/
theorem leaf (h : s.Sound source) {kind : Kind} {lexeme : Text} {stop : Nat}
    (hkind : kind ≠ .member ∧ kind ≠ .subscript) (hbegins : lexeme <+: s.rest)
    (hstop : stop = s.offset + (Utf8.encode lexeme).length) (hsound : s₁.Sound source)
    (hle : stop ≤ s₁.offset) (hlater : ∀ k ∈ s₁.comments, k ∈ s.comments ∨ stop ≤ k.start) :
    Spanned source s [Tree.leaf kind s.offset stop lexeme] s₁ := by
  obtain ⟨before, hsource, hoffset⟩ := h.split
  obtain ⟨behind, hbehind⟩ := hbegins
  have hstart : Utf8.isBoundary source s.offset = true := hoffset ▸ isBoundary_of_split hsource
  have hend : Utf8.isBoundary source stop = true := by
    have hsplit : source = (before ++ lexeme) ++ behind := by
      rw [hsource, ← hbehind, List.append_assoc]
    have hboundary := isBoundary_of_split hsplit
    rwa [Utf8.encode_append, List.length_append, hoffset, ← hstop] at hboundary
  have hshape : (Tree.leaf kind s.offset stop lexeme).hasShape = true := by
    unfold Tree.hasShape
    split <;> simp_all [Tree.leaf, Tree.hasOnly, Tree.namedChildren]
  refine ⟨hsound, ?_, fun k hk => ?_, fun t ht => ?_⟩
  · have hle' : s.offset ≤ stop := by omega
    simp [Tree.areNested, Tree.isNested, Tree.leaf, hle, hle']
  · rcases hlater k hk with hk | hk
    · exact .inl hk
    · exact .inr (by omega)
  · rw [List.mem_singleton] at ht
    subst ht
    refine .intro ⟨hstart, hend, hshape, Tree.exceeds_of_kind hkind, fun _ => hstop.ge,
      fun k hk => ?_⟩ fun c hc => absurd hc List.not_mem_nil
    -- Comments passed before end where the leaf begins; those passed behind it begin there.
    rcases hlater k hk with hk | hk
    · exact .inr (.inl (Tree.isNested_of_mem h.nested (List.mem_reverse.mpr hk)).2.2)
    · exact .inl hk

/-- The source in parts around a lexeme. -/
theorem exists_split_of_begins (h : s.Sound source) {lexeme : Text} (hbegins : lexeme <+: s.rest) :
    ∃ before, source = before ++ s.rest.drop lexeme.length ∧
      (Utf8.encode before).length = s.offset + byteLength lexeme := by
  obtain ⟨before, hsource, hoffset⟩ := h.split
  obtain ⟨behind, hbehind⟩ := hbegins
  refine ⟨before ++ lexeme, ?_, ?_⟩
  · rw [hsource, ← hbehind, List.drop_left, List.append_assoc]
  · rw [Utf8.encode_append, List.length_append, hoffset, byteLength_eq]

/-- A lexeme as a leaf, with what lies behind it up to the next token. -/
theorem take (h : Spanned source s ts s₁) {kind : Kind} {lexeme : Text}
    (hkind : kind ≠ .member ∧ kind ≠ .subscript) (hbegins : lexeme <+: s₁.rest) :
    Spanned source s
      (ts ++ [Tree.leaf kind s₁.offset (s₁.offset + byteLength lexeme) lexeme])
      (s₁.advance lexeme) := by
  obtain ⟨before, hsource, hoffset⟩ := exists_split_of_begins h.sound hbegins
  have hnested := Tree.areNested_mono h.sound.nested (Nat.le_refl 0)
    (Nat.le_add_right s₁.offset (byteLength lexeme))
  obtain ⟨hsound, hle, hlater⟩ := sound_between hsource hoffset h.sound.comments hnested
  exact h.append (leaf h.sound hkind hbegins (by rw [byteLength_eq]) hsound hle hlater)

/-- A lexeme as a leaf, and nothing behind it. -/
theorem takeInside (h : Spanned source s ts s₁) {kind : Kind} {lexeme : Text}
    (hkind : kind ≠ .member ∧ kind ≠ .subscript) (hbegins : lexeme <+: s₁.rest) :
    Spanned source s
      (ts ++ [Tree.leaf kind s₁.offset (s₁.offset + byteLength lexeme) lexeme])
      (s₁.advanceInside lexeme) := by
  have hnested := Tree.areNested_mono h.sound.nested (Nat.le_refl 0)
    (Nat.le_add_right s₁.offset (byteLength lexeme))
  have hsound : (s₁.advanceInside lexeme).Sound source :=
    ⟨exists_split_of_begins h.sound hbegins, .inl rfl, h.sound.comments, hnested⟩
  exact h.append (leaf h.sound hkind hbegins (by rw [byteLength_eq]) hsound (Nat.le_refl _)
    fun k hk => .inl hk)

/-! ### Nodes -/

theorem ends_of_areNested {low high : Nat} (h : Tree.areNested low high ts = true) (hne : ts ≠ []) :
    ∃ first last, ts.head? = some first ∧ ts.getLast? = some last ∧ first ∈ ts ∧ last ∈ ts ∧
      low ≤ first.start ∧ last.stop ≤ high ∧
      Tree.areNested first.start last.stop ts = true := by
  induction ts generalizing low with
  | nil => exact absurd rfl hne
  | cons t ts ih =>
    obtain ⟨hlow, ht, hts⟩ := Tree.areNested_cons.mp h
    cases ts with
    | nil =>
      refine ⟨t, t, rfl, rfl, List.mem_cons_self, List.mem_cons_self, hlow,
        Tree.le_of_areNested [] hts, ?_⟩
      exact Tree.areNested_cons.mpr ⟨Nat.le_refl _, ht, decide_eq_true (Nat.le_refl _)⟩
    | cons u us =>
      obtain ⟨first, last, hfirst, hlast, -, hmem, hfirst', hhigh, hnested⟩ :=
        ih hts (List.cons_ne_nil u us)
      refine ⟨t, last, rfl, by rw [List.getLast?_cons_cons, hlast], List.mem_cons_self,
        List.mem_cons_of_mem t hmem, hlow, hhigh, ?_⟩
      exact Tree.areNested_cons.mpr
        ⟨Nat.le_refl _, ht, Tree.areNested_mono hnested hfirst' (Nat.le_refl _)⟩

/-- A node made of trees that were read. -/
theorem node (h : Spanned source s ts s₁) (hne : ts ≠ []) {kind : Kind}
    (hshape : (Tree.node kind ts).hasShape = true) (hexceeds : (Tree.node kind ts).Exceeds) :
    Spanned source s [Tree.node kind ts] s₁ := by
  obtain ⟨first, last, hfirst, hlast, hmem, hmem', hlow, hhigh, hnested⟩ :=
    ends_of_areNested h.nested hne
  have hstart : (Tree.node kind ts).start = first.start := by simp [Tree.node, hfirst]
  have hstop : (Tree.node kind ts).stop = last.stop := by simp [Tree.node, hlast]
  have hchildren : (Tree.node kind ts).children = ts := rfl
  have hfits := (h.fits first hmem).here
  have hfits' := (h.fits last hmem').here
  refine ⟨h.sound, ?_, h.later, fun t ht => ?_⟩
  · refine Tree.areNested_cons.mpr ⟨hstart ▸ hlow, ?_, decide_eq_true (hstop ▸ hhigh)⟩
    rw [Tree.isNested_eq, hstart, hstop, hchildren]
    exact hnested
  · rw [List.mem_singleton] at ht
    subst ht
    have hname : (Tree.node kind ts).HoldsName := by
      intro _
      rw [hstart, hstop]
      exact Tree.le_of_areNested ts hnested
    refine .intro ⟨hstart ▸ hfits.start, hstop ▸ hfits'.stop, hshape, hexceeds, hname,
      fun k hk => ?_⟩ h.fits
    -- A comment that begins before the first part also ends before it, and one that begins
    -- before the last part ends has its own end inside of the node too.
    have hfirst' := hfits.avoids k hk
    have hlast' := hfits'.avoids k hk
    have hlt := (h.sound.comments k hk).lt
    have hle := Tree.start_le_stop first (Tree.isNested_of_mem hnested hmem).1
    have hle' := Tree.start_le_stop last (Tree.isNested_of_mem hnested hmem').1
    unfold Tree.Avoids at hfirst' hlast' ⊢
    rw [hstart, hstop, hchildren]
    have hcontains : first.start ≤ k.start → k.start < last.stop →
        ts ≠ [] ∧ first.start ≤ k.start ∧ k.stop ≤ last.stop := by
      intro hlow hhigh
      exact ⟨hne, hlow, by omega⟩
    by_cases hbefore : k.start < first.start
    · exact .inr (.inl (by omega))
    · by_cases hbehind : last.stop ≤ k.start
      · exact .inl hbehind
      · exact .inr (.inr (hcontains (by omega) (by omega)))

end Spanned

/-! ### Trees and pieces -/

end Scan

/-- What holds of the range of a node, if it is a property. -/
def Tree.AtProperty (P : Nat → Nat → Prop) (t : Tree) : Prop :=
  t.kind = .member ∨ t.kind = .subscript → P t.start t.stop

/-- Trees that consist of pieces, the first of which stands at an offset. Every property in
them is cut out of the pieces. -/
structure Tree.Consist (offset : Nat) (ts : List Tree) (pieces : List Piece) : Prop where
  nil : ts = [] → pieces = []
  start : ∀ t ∈ ts.head?, t.start = offset
  stop : ∀ t ∈ ts.getLast?, ∃ before last, pieces = before ++ [last] ∧
    t.stop = offset + Scan.byteLength (Piece.spelled before ++ last.text)
  properties : ∀ t ∈ ts, t.Forall (AtProperty (Piece.Cut offset pieces))

theorem Piece.Cut.append_right {offset start stop : Nat} {pieces : List Piece}
    (h : Cut offset pieces start stop) (others : List Piece) :
    Cut offset (pieces ++ others) start stop := by
  obtain ⟨before, inside, last, behind, rfl, h⟩ := h
  exact ⟨before, inside, last, behind ++ others, by simp, h⟩

theorem Piece.Cut.append_left {offset start stop : Nat} {pieces : List Piece} (others : List Piece)
    (h : Cut (offset + Scan.byteLength (spelled others)) pieces start stop) :
    Cut offset (others ++ pieces) start stop := by
  obtain ⟨before, inside, last, behind, rfl, hfirst, hlast, hstart, hstop⟩ := h
  refine ⟨others ++ before, inside, last, behind, by simp, hfirst, hlast, ?_, hstop⟩
  rw [hstart, spelled_append, Scan.byteLength_append, Nat.add_assoc]

namespace Tree.Consist

variable {offset : Nat} {ts us : List Tree} {pieces others : List Piece}

theorem refl (offset : Nat) : Consist offset [] [] :=
  ⟨fun _ => rfl, by simp, by simp, by simp⟩

theorem append (h : Consist offset ts pieces)
    (h' : Consist (offset + Scan.byteLength (Piece.spelled pieces)) us others) :
    Consist offset (ts ++ us) (pieces ++ others) where
  nil hnil := by
    obtain ⟨hts, hus⟩ := List.append_eq_nil_iff.mp hnil
    rw [h.nil hts, h'.nil hus]
    rfl
  start t ht := by
    cases ts with
    | nil =>
      have hstart := h'.start t ht
      rw [h.nil rfl] at hstart
      exact hstart
    | cons first ts => exact h.start t ht
  stop t ht := by
    rcases List.eq_nil_or_concat us with rfl | ⟨us', last, rfl⟩
    · rw [h'.nil rfl, List.append_nil]
      exact h.stop t (by rwa [List.append_nil] at ht)
    · obtain ⟨before, piece, rfl, hstop⟩ := h'.stop t (by simpa using ht)
      refine ⟨pieces ++ before, piece, by simp, ?_⟩
      rw [hstop, Piece.spelled_append]
      simp only [Scan.byteLength_append]
      omega
  properties t ht := by
    rcases List.mem_append.mp ht with ht | ht
    · exact (h.properties t ht).mono fun x hx hkind => (hx hkind).append_right others
    · exact (h'.properties t ht).mono fun x hx hkind => (hx hkind).append_left pieces

/-- A leaf is a piece. -/
theorem leaf {kind : Kind} (hkind : kind ≠ .member ∧ kind ≠ .subscript) (piece : Piece) :
    Consist offset [Tree.leaf kind offset (offset + Scan.byteLength piece.text) piece.text]
      [piece] where
  nil h := absurd h (List.cons_ne_nil _ _)
  start t ht := by
    cases ht
    rfl
  stop t ht := by
    cases ht
    exact ⟨[], piece, rfl, rfl⟩
  properties t ht := by
    rw [List.mem_singleton] at ht
    subst ht
    refine .intro (fun h => ?_) fun c hc => absurd hc List.not_mem_nil
    exact (h.elim hkind.1 hkind.2).elim

/-- A node consists of what its parts do. If it is a property, its parts must begin and end
between tokens. -/
theorem node (h : Consist offset ts pieces) (hne : ts ≠ []) {kind : Kind}
    (hplaces : kind = .member ∨ kind = .subscript →
      (∀ p ∈ pieces.head?, p.before = .code) ∧ ∀ p ∈ pieces.getLast?, p.behind = .code) :
    Consist offset [Tree.node kind ts] pieces := by
  obtain ⟨first, hfirst⟩ := Option.isSome_iff_exists.mp (List.isSome_head?.mpr hne)
  obtain ⟨last, hlast⟩ := Option.isSome_iff_exists.mp (List.getLast?_isSome.mpr hne)
  have hstart : (Tree.node kind ts).start = offset := by
    simp only [Tree.node, hfirst, Option.map_some, Option.getD_some]
    exact h.start first hfirst
  obtain ⟨before, piece, hpieces, hstop⟩ := h.stop last hlast
  have hstop : (Tree.node kind ts).stop =
      offset + Scan.byteLength (Piece.spelled before ++ piece.text) := by
    simpa [Tree.node, hlast] using hstop
  refine ⟨fun hnil => absurd hnil (List.cons_ne_nil _ _), fun t ht => ?_, fun t ht => ?_,
    fun t ht => ?_⟩
  · cases ht
    exact hstart
  · cases ht
    exact ⟨before, piece, hpieces, hstop⟩
  · rw [List.mem_singleton] at ht
    subst ht
    refine .intro (fun hkind => ?_) h.properties
    obtain ⟨hcode, hcode'⟩ := hplaces hkind
    refine ⟨[], before, piece, [], by simpa using hpieces, ?_, ?_, by simpa using hstart, ?_⟩
    · rwa [← hpieces]
    · exact hcode' piece (by simp [hpieces])
    · rw [hstart, hstop]

end Tree.Consist

/-! ### Trees that were read from pieces -/

namespace Scan

variable {source : Text}

/-- The text before a scan that lies further on is longer by what is between the two. -/
theorem Sound.offset_eq {s s₁ : Scan} (h : s.Sound source) (h₁ : s₁.Sound source) {t : Text}
    (hrest : s.rest = t ++ s₁.rest) : s₁.offset = s.offset + byteLength t := by
  obtain ⟨before, hsource, hoffset⟩ := h.split
  obtain ⟨before₁, hsource₁, hoffset₁⟩ := h₁.split
  have heq : before₁ = before ++ t := by
    refine (List.append_left_inj s₁.rest).mp ?_
    rw [← hsource₁, hsource, hrest, List.append_assoc]
  rw [← hoffset₁, heq, Utf8.encode_append, List.length_append, hoffset, byteLength_eq]

/-- White space and comments are passed over from the head of a text. -/
theorem suffix_betweenFrom (passage : Passage) (offset : Nat) (gap : Gap) (comments : List Tree)
    (t : Text) : (betweenFrom passage offset gap comments t).rest <:+ t := by
  induction t generalizing passage offset gap comments with
  | nil =>
    rw [betweenFrom.eq_def]
    cases passage <;> exact List.suffix_refl _
  | cons c rest ih =>
    have hstep : ∀ {passage offset gap comments},
        (betweenFrom passage offset gap comments rest).rest <:+ c :: rest :=
      (ih _ _ _ _).trans (List.suffix_cons c rest)
    rw [betweenFrom.eq_def]
    cases passage <;> dsimp only <;> split_ifs
    all_goals first | exact hstep | exact List.suffix_refl _

theorem exists_gap (s : Scan) (lexeme : Text) :
    ∃ gap, s.rest.drop lexeme.length = gap ++ (s.advance lexeme).rest := by
  obtain ⟨gap, hgap⟩ := suffix_betweenFrom .blank (s.offset + byteLength lexeme) .none s.comments
    (s.rest.drop lexeme.length)
  exact ⟨gap, hgap.symm⟩

/-- The trees read between two scans are made of the pieces between them. -/
structure PassedFrom (source : Text) (place : Place) (s : Scan) (ts : List Tree) (place' : Place)
    (s' : Scan) : Prop extends Spanned source s ts s' where
  read : ∃ pieces, Lexed place s pieces place' s' ∧ Tree.Consist s.offset ts pieces ∧
    s'.offset = s.offset + byteLength (Piece.spelled pieces)

/-- The trees read between two scans, both of which stand between tokens. -/
abbrev Passed (source : Text) (s : Scan) (ts : List Tree) (s' : Scan) : Prop :=
  PassedFrom source .code s ts .code s'

namespace PassedFrom

variable {place place₁ place₂ : Place} {s s₁ s₂ : Scan} {ts us : List Tree}

theorem refl (h : s.Sound source) : PassedFrom source place s [] place s where
  toSpanned := .refl h
  read := ⟨[], .nil, .refl _, rfl⟩

/-- Trees read one after the other. -/
theorem append (h : PassedFrom source place s ts place₁ s₁)
    (h' : PassedFrom source place₁ s₁ us place₂ s₂) :
    PassedFrom source place s (ts ++ us) place₂ s₂ where
  toSpanned := h.toSpanned.append h'.toSpanned
  read := by
    obtain ⟨pieces, hlexed, hconsist, hoffset⟩ := h.read
    obtain ⟨others, hlexed', hconsist', hoffset'⟩ := h'.read
    rw [hoffset] at hconsist' hoffset'
    refine ⟨pieces ++ others, hlexed.append hlexed', hconsist.append hconsist', ?_⟩
    rw [hoffset', Piece.spelled_append, byteLength_append, Nat.add_assoc]

/-- A piece behind the trees that were read, as a leaf. -/
theorem piece (h : PassedFrom source place s ts place₁ s₁) {kind : Kind} {lexeme : Text}
    (hkind : kind ≠ .member ∧ kind ≠ .subscript)
    (hread : place₁.lexeme? place₂ s₁.rest = some lexeme)
    (hspanned : Spanned source s
      (ts ++ [Tree.leaf kind s₁.offset (s₁.offset + byteLength lexeme) lexeme])
      (s₁.behind place₂ lexeme))
    (hgap : ∃ gap, s₁.rest.drop lexeme.length = gap ++ (s₁.behind place₂ lexeme).rest) :
    PassedFrom source place s
      (ts ++ [Tree.leaf kind s₁.offset (s₁.offset + byteLength lexeme) lexeme]) place₂
      (s₁.behind place₂ lexeme) where
  toSpanned := hspanned
  read := by
    obtain ⟨pieces, hlexed, hconsist, hoffset⟩ := h.read
    obtain ⟨gap, hgap⟩ := hgap
    let last : Piece := ⟨lexeme, gap, place₁, place₂⟩
    have hlast : Lexed place₁ s₁ [last] place₂ (s₁.behind place₂ lexeme) :=
      .cons rfl hread hgap .nil
    have hconsist' : Tree.Consist s₁.offset
        [Tree.leaf kind s₁.offset (s₁.offset + byteLength lexeme) lexeme] [last] :=
      .leaf hkind last
    have hoffset' := h.sound.offset_eq hspanned.sound hlast.rest_eq
    rw [hoffset] at hconsist' hoffset'
    refine ⟨pieces ++ [last], hlexed.append hlast, hoffset ▸ hconsist.append hconsist', ?_⟩
    rw [hoffset', Piece.spelled_append, byteLength_append, Nat.add_assoc]

/-- A lexeme as a leaf, with what lies behind it up to the next token. -/
theorem take (h : PassedFrom source place s ts place₁ s₁) {kind : Kind} {lexeme : Text}
    (hkind : kind ≠ .member ∧ kind ≠ .subscript)
    (hread : place₁.lexeme? .code s₁.rest = some lexeme) :
    PassedFrom source place s
      (ts ++ [Tree.leaf kind s₁.offset (s₁.offset + byteLength lexeme) lexeme]) .code
      (s₁.advance lexeme) :=
  h.piece hkind hread (h.toSpanned.take hkind (Place.begins_lexeme? hread)) (exists_gap s₁ lexeme)

/-- A lexeme as a leaf, and nothing behind it. -/
theorem takeInside (h : PassedFrom source place s ts place₁ s₁) {kind : Kind} {lexeme : Text}
    (hkind : kind ≠ .member ∧ kind ≠ .subscript) (hplace : place₂ ≠ .code)
    (hread : place₁.lexeme? place₂ s₁.rest = some lexeme) :
    PassedFrom source place s
      (ts ++ [Tree.leaf kind s₁.offset (s₁.offset + byteLength lexeme) lexeme]) place₂
      (s₁.advanceInside lexeme) := by
  have hbehind : s₁.behind place₂ lexeme = s₁.advanceInside lexeme := if_neg hplace
  have hspanned := h.toSpanned.takeInside hkind (Place.begins_lexeme? hread)
  rw [← hbehind] at hspanned ⊢
  exact h.piece hkind hread hspanned ⟨[], by rw [hbehind]; rfl⟩

/-- A node made of trees that were read. If it is a property, they must begin and end between
tokens. -/
theorem node (h : PassedFrom source place s ts place₁ s₁) (hne : ts ≠ []) {kind : Kind}
    (hshape : (Tree.node kind ts).hasShape = true) (hexceeds : (Tree.node kind ts).Exceeds)
    (hplaces : kind = .member ∨ kind = .subscript → place = .code ∧ place₁ = .code) :
    PassedFrom source place s [Tree.node kind ts] place₁ s₁ where
  toSpanned := h.toSpanned.node hne hshape hexceeds
  read := by
    obtain ⟨pieces, hlexed, hconsist, hoffset⟩ := h.read
    refine ⟨pieces, hlexed, hconsist.node hne fun hkind => ?_, hoffset⟩
    obtain ⟨rfl, rfl⟩ := hplaces hkind
    exact hlexed.places

end PassedFrom

/-- A node made of trees that were read between tokens. -/
theorem Passed.node {s s₁ : Scan} {ts : List Tree} (h : Passed source s ts s₁) (hne : ts ≠ [])
    {kind : Kind} (hshape : (Tree.node kind ts).hasShape = true)
    (hexceeds : (Tree.node kind ts).Exceeds) : Passed source s [Tree.node kind ts] s₁ :=
  PassedFrom.node h hne hshape hexceeds fun _ => ⟨rfl, rfl⟩

end Scan

end Unproxy.Syntax
