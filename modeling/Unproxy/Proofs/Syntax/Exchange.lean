import Mathlib
import Unproxy.Proofs.Syntax.Gap
import Unproxy.Proofs.Syntax.Lookahead

/-!
# Unproxy.Proofs.Syntax.Exchange

Pieces of a text exchanged for others. What is kept is read as before, unless it runs
together with what is put in, and that can be told at the seams.

Main definitions:

* `Piece.IsRead`: a piece is read in front of a text;
* `Piece.EndRead`: so are the last three of a row;
* `Piece.Stand`: pieces that are read from their own text, whatever stands behind it;
* `Exchange`: pieces taken out and pieces put in, with those kept before them;
* `Exchange.Clean`: nothing runs together.

Main statements:

* `Scan.Lexed.transport`: pieces are read in front of another text if the last three are;
* `Exchange.lexed_result_iff`: after exchanges the pieces are those kept and those put in
  exactly if nothing runs together.
-/

namespace Unproxy.Syntax

/-! ### Pieces in front of another text -/

/-- No punctuator begins with a backslash. -/
theorem Lexeme.symbol?_backslash (t : Text) : symbol? (CodePoint.ofChar '\\' :: t) = none := by
  have hheads : ∀ s ∈ symbols, s.head? ≠ some (CodePoint.ofChar '\\') := by decide
  cases h : symbol? (CodePoint.ofChar '\\' :: t) with
  | none => rfl
  | some w =>
    obtain ⟨d, u, rfl⟩ := List.exists_cons_of_ne_nil (ne_nil_of_symbol? h)
    obtain ⟨rfl, -⟩ := List.cons_prefix_cons.mp (begins_symbol? h)
    exact absurd rfl (hheads _ (mem_symbols_of_symbol? h))

/-- Between tokens, a backslash begins a name or nothing. -/
theorem Token.ofText_backslash (t : Text) :
    Token.ofText (CodePoint.ofChar '\\' :: t) =
      match Lexeme.name? (CodePoint.ofChar '\\' :: t) with
      | some lexeme => .name lexeme
      | none => .unknown := by
  have hopen : Token.ofText (CodePoint.ofChar '\\' :: t) =
      match Lexeme.name? (CodePoint.ofChar '\\' :: t) with
      | some lexeme => .name lexeme
      | none =>
        match Lexeme.symbol? (CodePoint.ofChar '\\' :: t) with
        | some lexeme => .symbol lexeme
        | none => .unknown := rfl
  rw [hopen, Lexeme.symbol?_backslash]

theorem Place.exists_namePiece? {place : Place} {t w : Text}
    (h : lexeme? .code place (CodePoint.ofChar '\\' :: t) = some w) :
    ∃ u, Lexeme.namePiece? CodePoint.isNamePart (CodePoint.ofChar '\\' :: t) = some u := by
  have hname : ∀ u, Lexeme.name? (CodePoint.ofChar '\\' :: t) = some u →
      ∃ u, Lexeme.namePiece? CodePoint.isNamePart (CodePoint.ofChar '\\' :: t) = some u := by
    intro u hu
    obtain ⟨piece, hpiece, -⟩ := Option.map_eq_some_iff.mp hu
    cases hescape : Lexeme.unicodeEscape? (CodePoint.ofChar '\\' :: t) with
    | some v => exact ⟨v, by simp only [Lexeme.namePiece?, hescape]⟩
    | none =>
      simp only [Lexeme.namePiece?, hescape] at hpiece
      cases hpiece
  have hcode : ∀ token, Token.ofText (CodePoint.ofChar '\\' :: t) = token → token ≠ .unknown →
      ∃ u, Lexeme.namePiece? CodePoint.isNamePart (CodePoint.ofChar '\\' :: t) = some u := by
    intro token htoken hne
    rw [Token.ofText_backslash] at htoken
    split at htoken
    · rename_i u hu
      exact hname u hu
    · exact absurd htoken.symm hne
  cases place with
  | code =>
    refine hcode _ rfl fun hunknown => ?_
    rw [lexeme?, codeLexeme?, hunknown] at h
    cases h
  | string quote => exact hcode _ (Option.ite_none_right_eq_some.mp h).1 (by simp)
  | template =>
    rw [lexeme?, codeLexeme?] at h
    split_ifs at h with hbacktick hbrace
    · exact hcode _ hbacktick (by simp)
    · exact hcode _ hbrace (by simp)
  | pattern =>
    rw [lexeme?, codeLexeme?] at h
    cases (Option.ite_none_right_eq_some.mp h).1
  | slash | flags => cases h

namespace Piece

/-- A piece is read in front of a text. -/
def IsRead (p : Piece) (behind : Text) : Prop :=
  p.before.lexeme? p.behind (p.text ++ (p.gap ++ behind)) = some p.text

instance (p : Piece) (behind : Text) : Decidable (p.IsRead behind) :=
  inferInstanceAs (Decidable (_ = _))

/-- The last three of a row of pieces are read in front of a text. No piece is told by more
than three code points behind it, so what stands before those three is read too. -/
def EndRead (behind : Text) : List Piece → Prop
  | [] => True
  | p :: pieces =>
    (pieces.length < 3 → p.IsRead (spelled pieces ++ behind)) ∧ EndRead behind pieces

end Piece

namespace Scan.Lexed

variable {place place' : Place} {s s' e : Scan} {piece : Piece} {pieces : List Piece}

/-- A piece that was read is read in front of what is behind it. -/
theorem isRead (h : Lexed place s (piece :: pieces) place' e) :
    piece.IsRead (Piece.spelled pieces ++ e.rest) := by
  have hrest := h.rest_eq
  cases h with
  | cons before text gap others =>
    rw [Piece.spelled_cons, List.append_assoc, List.append_assoc] at hrest
    rw [Piece.IsRead, before, ← hrest]
    exact text

theorem endRead (h : Lexed place s pieces place' e) : Piece.EndRead e.rest pieces := by
  induction h with
  | nil => trivial
  | cons before text gap others ih =>
    exact ⟨fun _ => isRead (.cons before text gap others), ih⟩

theorem ne_nil (h : Lexed place s (piece :: pieces) place' e) : piece.text ≠ [] := by
  cases h with
  | cons before text gap others => exact Place.ne_nil_of_lexeme? text

theorem length_le (h : Lexed place s pieces place' e) :
    pieces.length ≤ (Piece.spelled pieces).length := by
  induction h with
  | nil => exact Nat.le_refl _
  | cons before text gap others ih =>
    have hpos := List.length_pos_of_ne_nil (Place.ne_nil_of_lexeme? text)
    simp only [Piece.spelled_cons, List.length_append, List.length_cons]
    omega

/-- Where no name can go on before pieces between tokens, it cannot go on before them when
another text stands behind them. -/
theorem namePiece?_append (h : Lexed .code s (piece :: pieces) place' e) {x : Text}
    (hname : Lexeme.namePiece? CodePoint.isNamePart
      (Piece.spelled (piece :: pieces) ++ e.rest) = none) :
    Lexeme.namePiece? CodePoint.isNamePart (Piece.spelled (piece :: pieces) ++ x) = none := by
  obtain ⟨c, w, hw⟩ := List.exists_cons_of_ne_nil h.ne_nil
  have hread := h.isRead
  rw [Piece.spelled_cons, hw] at hname ⊢
  rw [Piece.IsRead, h.places.1 piece rfl, hw] at hread
  simp only [List.cons_append, List.append_assoc] at hname hread ⊢
  have hbackslash : c ≠ CodePoint.ofChar '\\' := by
    rintro rfl
    obtain ⟨u, hu⟩ := Place.exists_namePiece? hread
    rw [hu] at hname
    cases hname
  have hpart : c.isNamePart = false := by
    simpa [Lexeme.namePiece?, Lexeme.unicodeEscape?_of_head hbackslash] using hname
  exact Lexeme.namePiece?_eq_none hpart hbackslash _

/-- What is reached behind a piece, between tokens, is solid. -/
theorem isSolid_behind {text gap r : Text} (hr : r ≠ []) (h : s.rest.drop text.length = gap ++ r)
    (hbehind : (s.behind .code text).rest = r) : IsSolid r := by
  rw [Scan.behind, if_pos rfl, advance, between, h] at hbehind
  exact (betweenFrom_append hr hbehind).1

/-- White space and comments do not go on with a name. -/
theorem namePiece?_gap {text gap r : Text} (hgap : gap ≠ [])
    (h : s.rest.drop text.length = gap ++ r)
    (hbehind : (s.behind .code text).rest = r) (r' : Text) :
    Lexeme.namePiece? CodePoint.isNamePart (gap ++ r') = none := by
  obtain ⟨c, gap, rfl⟩ := List.exists_cons_of_ne_nil hgap
  rw [Scan.behind, if_pos rfl, advance, between, h, List.cons_append] at hbehind
  have hc := isBlank_or_slash hbehind
  refine Lexeme.namePiece?_eq_none ?_ ?_ _
  · rcases hc with hc | rfl
    · simp [CodePoint.isNamePart, hc]
    · decide
  · rintro rfl
    revert hc
    decide

/-- Behind a piece, another solid text is reached like the one that was there. -/
theorem rest_behind {text text' gap r r' : Text} (hr : r ≠ [])
    (h : s.rest.drop text.length = gap ++ r) (hbehind : (s.behind place text).rest = r)
    (h' : s'.rest.drop text'.length = gap ++ r') (hr' : place = .code → IsSolid r') :
    (s'.behind place text').rest = r' := by
  unfold Scan.behind at hbehind ⊢
  split_ifs at hbehind ⊢ with hcode
  · rw [advance, between, h] at hbehind
    rw [advance, between, h']
    exact (betweenFrom_congr .blank ..).1.trans ((betweenFrom_append hr hbehind).2 r' (hr' hcode))
  · rw [advanceInside, h] at hbehind
    have hgap : gap = [] := by
      have hlength := congrArg List.length hbehind
      rw [List.length_append] at hlength
      exact List.eq_nil_of_length_eq_zero (by omega)
    rw [advanceInside, h', hgap]
    rfl

/-- Pieces are read in front of another text too, if the last three are. -/
theorem transport {x : Text} (h : Lexed place s pieces .code e) (he : e.rest ≠ [])
    (hx : Opens x) (hend : Piece.EndRead x pieces) (hs' : s'.rest = Piece.spelled pieces ++ x) :
    ∃ e', Lexed place s' pieces .code e' ∧ e'.rest = x := by
  induction pieces generalizing place s s' with
  | nil =>
    cases h with
    | nil => exact ⟨s', .nil, hs'⟩
  | cons p pieces ih =>
    have hrest := h.rest_eq
    have hread := h.isRead
    rw [Piece.spelled_cons, List.append_assoc, List.append_assoc] at hrest hs'
    cases h with
    | cons before text gap others =>
      have hbehind : (s.behind p.behind p.text).rest = Piece.spelled pieces ++ e.rest :=
        others.rest_eq
      have hne : Piece.spelled pieces ++ e.rest ≠ [] :=
        List.append_ne_nil_of_right_ne_nil _ he
      rw [hbehind] at gap
      have hsolid : p.behind = .code → IsSolid (Piece.spelled pieces ++ x) := by
        intro hcode
        cases pieces with
        | nil => exact hx.isSolid
        | cons q pieces =>
          rw [hcode] at hbehind
          refine (isSolid_behind hne gap hbehind).append ?_ hx
          rw [Piece.spelled_cons]
          exact List.append_ne_nil_of_left_ne_nil others.ne_nil _
      have hread' : p.IsRead (Piece.spelled pieces ++ x) := by
        by_cases hlength : pieces.length < 3
        · exact hend.1 hlength
        · refine Place.lexeme?_append hread ?_ fun hcode => ?_
          · have hle : 3 ≤ (Piece.spelled pieces).length :=
              (Nat.not_lt.mp hlength).trans others.length_le
            refine Lexeme.take_append ?_ p.gap
            rw [List.take_append_of_le_length hle, List.take_append_of_le_length hle]
          · rw [hcode] at hbehind others
            by_cases hgap : p.gap = []
            · rw [hgap, List.nil_append, List.nil_append]
              cases pieces with
              | nil => exact absurd (Nat.zero_lt_succ 2) hlength
              | cons q pieces => exact others.namePiece?_append
            · exact fun _ => namePiece?_gap hgap gap hbehind _
      have hdrop : s'.rest.drop p.text.length = p.gap ++ (Piece.spelled pieces ++ x) := by
        rw [hs', List.drop_left]
      have hbehind' := rest_behind hne gap hbehind hdrop hsolid
      obtain ⟨e', hothers, he'⟩ := ih others hend.2 hbehind'
      refine ⟨e', .cons before ?_ ?_ hothers, he'⟩
      · rw [hs', ← before]
        exact hread'
      · rw [hbehind']
        exact hdrop

/-- The same text is read in the same way wherever it stands. -/
theorem congr (h : Lexed place s pieces place' e) (hrest : s'.rest = s.rest)
    (hnext : s'.next = s.next) :
    ∃ e', Lexed place s' pieces place' e' ∧ e'.next = e.next := by
  induction h generalizing s' with
  | nil => exact ⟨s', .nil, hnext⟩
  | @cons p pieces place place' s e before text gap others ih =>
    have hbehind : (s'.behind p.behind p.text).rest = (s.behind p.behind p.text).rest ∧
        (s'.behind p.behind p.text).next = (s.behind p.behind p.text).next := by
      unfold Scan.behind
      split_ifs
      · rw [advance, advance, hrest]
        exact between_congr ..
      · rw [advanceInside, advanceInside, hrest]
        exact ⟨rfl, rfl⟩
    obtain ⟨e', hothers, he'⟩ := ih hbehind.1 hbehind.2
    refine ⟨e', .cons before ?_ ?_ hothers, he'⟩
    · rw [hrest]
      exact text
    · rw [hrest, hbehind.1]
      exact gap

end Scan.Lexed

/-! ### Pieces exchanged for others -/

/-- Pieces that are read from their text between tokens, whatever stands behind it, if only the
last of them is. -/
structure Piece.Stand (pieces : List Piece) (last : Piece) : Prop where
  behind : last.behind = .code
  opens : Opens (spelled pieces ++ last.text)
  read : ∀ (s : Scan) (rest : Text), s.rest = spelled pieces ++ (last.text ++ rest) →
    last.before.lexeme? .code (last.text ++ rest) = some last.text →
    ∃ e : Scan, Scan.Lexed .code s pieces last.before e ∧ e.rest = last.text ++ rest

/-- Pieces that are exchanged for others, with those that are kept before them. The last piece
stands apart on either side: the gap behind it stays. -/
structure Exchange where
  kept : List Piece
  removed : List Piece
  removedLast : Piece
  inserted : List Piece
  insertedLast : Piece
  deriving DecidableEq

namespace Exchange

/-- The last of the pieces that are put in, with the gap that stays. -/
def closing (x : Exchange) : Piece := { x.insertedLast with gap := x.removedLast.gap }

/-- The pieces before an exchange. -/
def source (xs : List Exchange) (rest : List Piece) : List Piece :=
  xs.flatMap (fun x => x.kept ++ (x.removed ++ [x.removedLast])) ++ rest

/-- The pieces after an exchange. -/
def result (xs : List Exchange) (rest : List Piece) : List Piece :=
  xs.flatMap (fun x => x.kept ++ (x.inserted ++ [x.closing])) ++ rest

@[simp] theorem source_nil (rest : List Piece) : source [] rest = rest := rfl

@[simp] theorem source_cons (x : Exchange) (xs : List Exchange) (rest : List Piece) :
    source (x :: xs) rest = x.kept ++ (x.removed ++ (x.removedLast :: source xs rest)) := by
  simp [source]

@[simp] theorem result_nil (rest : List Piece) : result [] rest = rest := rfl

@[simp] theorem result_cons (x : Exchange) (xs : List Exchange) (rest : List Piece) :
    result (x :: xs) rest = x.kept ++ (x.inserted ++ (x.closing :: result xs rest)) := by
  simp [result]

/-- Whole tokens are exchanged for pieces that stand on their own. -/
structure Valid (x : Exchange) : Prop where
  before : ∀ p ∈ (x.removed ++ [x.removedLast]).head?, p.before = .code
  behind : x.removedLast.behind = .code
  stand : Piece.Stand x.inserted x.insertedLast

/-- Nothing runs together: the pieces right before what is put in are read in front of it, and
so is its last piece in front of what is behind. -/
def Clean (rest : List Piece) : List Exchange → Prop
  | [] => True
  | x :: xs =>
    Piece.EndRead (Piece.spelled (x.inserted ++ (x.closing :: result xs rest))) x.kept ∧
      x.closing.IsRead (Piece.spelled (result xs rest)) ∧ Clean rest xs

open Scan

/-- The text of what is put in, with all that is behind it. -/
theorem spelled_inserted (x : Exchange) (pieces : List Piece) :
    Piece.spelled (x.inserted ++ (x.closing :: pieces)) =
      Piece.spelled x.inserted ++
        (x.insertedLast.text ++ (x.removedLast.gap ++ Piece.spelled pieces)) := by
  rw [Piece.spelled_append, Piece.spelled_cons]
  rfl

theorem Valid.opens {x : Exchange} (h : x.Valid) (pieces : List Piece) :
    Opens (Piece.spelled (x.inserted ++ (x.closing :: pieces))) := by
  rw [spelled_inserted, ← List.append_assoc]
  exact h.stand.opens.append _

/-- What stands behind an exchange is solid after it, if it was before. -/
theorem isSolid_result {xs : List Exchange} {rest : List Piece} {s finish : Scan}
    (h : Lexed .code s (source xs rest) .code finish) (hfinish : finish.rest = [])
    (hxs : ∀ x ∈ xs, x.Valid) (hsolid : IsSolid s.rest) :
    IsSolid (Piece.spelled (result xs rest)) := by
  have hrest := h.rest_eq
  rw [hfinish, List.append_nil] at hrest
  rw [hrest] at hsolid
  cases xs with
  | nil => exact hsolid
  | cons x xs =>
    have hopens := (hxs x List.mem_cons_self).opens (result xs rest)
    rw [source_cons, Piece.spelled_append] at hsolid
    rw [result_cons, Piece.spelled_append]
    by_cases hkept : Piece.spelled x.kept = []
    · rw [hkept]
      exact hopens.isSolid
    · exact hsolid.append hkept hopens

/-- The scans around the pieces that are taken out. -/
theorem exists_of_lexed_source {x : Exchange} {xs : List Exchange} {rest : List Piece}
    {s finish : Scan} (h : Lexed .code s (source (x :: xs) rest) .code finish) (hx : x.Valid) :
    ∃ s₁ s₂ : Scan, Lexed .code s x.kept .code s₁ ∧ s₁.rest ≠ [] ∧
      s₂.rest.drop x.removedLast.text.length =
        x.removedLast.gap ++ (s₂.advance x.removedLast.text).rest ∧
      Lexed .code (s₂.advance x.removedLast.text) (source xs rest) .code finish := by
  rw [source_cons] at h
  obtain ⟨place₁, s₁, hkept, h⟩ := h.exists_of_append
  obtain ⟨p, pieces, hpieces, hp⟩ : ∃ p pieces,
      x.removed ++ (x.removedLast :: source xs rest) = p :: pieces ∧ p.before = .code := by
    have hbefore := hx.before
    cases hremoved : x.removed with
    | nil | cons p pieces =>
      rw [hremoved] at hbefore
      exact ⟨_, _, rfl, hbefore _ rfl⟩
  obtain rfl : place₁ = .code := by
    rw [hpieces] at h
    exact (h.places.1 p rfl).symm.trans hp
  have hne : s₁.rest ≠ [] := by
    rw [hpieces] at h
    rw [h.rest_eq, Piece.spelled_cons, List.append_assoc]
    exact List.append_ne_nil_of_left_ne_nil h.ne_nil _
  obtain ⟨place₂, s₂, -, h⟩ := h.exists_of_append
  cases h with
  | cons before text gap others =>
    rw [hx.behind] at gap others
    exact ⟨s₁, s₂, hkept, hne, gap, others⟩

/-- Behind the last piece that is put in, the scan goes on as it did before. -/
theorem advance_closing {x : Exchange} {xs : List Exchange} {rest : List Piece} {s e finish : Scan}
    (hgap : s.rest.drop x.removedLast.text.length =
      x.removedLast.gap ++ (s.advance x.removedLast.text).rest)
    (h : Lexed .code (s.advance x.removedLast.text) (source xs rest) .code finish)
    (hfinish : finish.rest = []) (hxs : ∀ x ∈ xs, x.Valid)
    (he : e.rest = x.closing.text ++ (x.closing.gap ++ Piece.spelled (result xs rest))) :
    (e.advance x.closing.text).rest = Piece.spelled (result xs rest) ∧
      (xs = [] → (e.advance x.closing.text).next = (s.advance x.removedLast.text).next) := by
  have hdrop : e.rest.drop x.closing.text.length =
      x.removedLast.gap ++ Piece.spelled (result xs rest) := by
    rw [he, List.drop_left]
    rfl
  have hrest := h.rest_eq
  rw [hfinish, List.append_nil] at hrest
  cases xs with
  | nil =>
    rw [hrest] at hgap
    rw [result_nil] at hdrop
    rw [result_nil, ← source_nil rest, ← hrest, advance, advance, hdrop, hgap]
    exact ⟨(between_congr ..).1, fun _ => (between_congr ..).2⟩
  | cons y ys =>
    obtain ⟨s₁, -, hkept, hne, -⟩ := exists_of_lexed_source h (hxs y List.mem_cons_self)
    have hne : (s.advance x.removedLast.text).rest ≠ [] := by
      rw [hkept.rest_eq]
      exact List.append_ne_nil_of_right_ne_nil _ hne
    have hsolid := isSolid_result h hfinish hxs (Lexed.isSolid_behind hne hgap rfl)
    have hbehind : (e.behind .code x.closing.text).rest = _ :=
      Lexed.rest_behind hne hgap rfl hdrop fun _ => hsolid
    exact ⟨hbehind, fun hnil => by cases hnil⟩

/-- Pieces that are exchanged for others leave pieces that are read from the new text exactly
if nothing runs together. -/
theorem lexed_result_iff {xs : List Exchange} {rest : List Piece} {s s' finish : Scan}
    (h : Lexed .code s (source xs rest) .code finish) (hfinish : finish.rest = [])
    (hxs : ∀ x ∈ xs, x.Valid) (hs' : s'.rest = Piece.spelled (result xs rest))
    (hnext : xs = [] → s'.next = s.next) :
    (∃ finish' : Scan, Lexed .code s' (result xs rest) .code finish' ∧
      finish'.next = finish.next) ↔ Clean rest xs := by
  induction xs generalizing s s' with
  | nil =>
    have hrest := h.rest_eq
    rw [hfinish, List.append_nil] at hrest
    exact ⟨fun _ => trivial, fun _ => h.congr (hs'.trans hrest.symm) (hnext rfl)⟩
  | cons x xs ih =>
    obtain ⟨hx, hxs⟩ := List.forall_mem_cons.mp hxs
    obtain ⟨s₁, s₂, hkept, hne, hgap, hothers⟩ := exists_of_lexed_source h hx
    have hclosing : x.closing.behind = .code := hx.stand.behind
    rw [result_cons, Piece.spelled_append] at hs'
    rw [result_cons]
    constructor
    · rintro ⟨finish', hlexed, hfinish'⟩
      obtain ⟨place₁, e₁, hkept', hlexed⟩ := hlexed.exists_of_append
      have he₁ := List.append_cancel_left (hkept'.rest_eq.symm.trans hs')
      obtain ⟨place₂, e₂, hinserted, hlexed⟩ := hlexed.exists_of_append
      have he₂ : e₂.rest = Piece.spelled (x.closing :: result xs rest) := by
        rw [Piece.spelled_append] at he₁
        exact List.append_cancel_left (hinserted.rest_eq.symm.trans he₁)
      have hfinish₂ : finish'.rest = [] := by
        have hrest := hlexed.rest_eq
        rw [he₂] at hrest
        exact List.append_cancel_left (hrest.symm.trans (List.append_nil _).symm)
      have hread := hlexed.isRead
      rw [hfinish₂, List.append_nil] at hread
      rw [Piece.spelled_cons] at he₂
      obtain ⟨hbehind, hnext⟩ := advance_closing hgap hothers hfinish hxs he₂
      refine ⟨he₁ ▸ hkept'.endRead, hread,
        (ih hothers hxs hbehind hnext).mp ⟨finish', ?_, hfinish'⟩⟩
      cases hlexed with
      | cons before text gap others =>
        rw [hclosing] at others
        exact others
    · rintro ⟨hend, hread, hclean⟩
      obtain ⟨e₁, hkept', he₁⟩ := hkept.transport hne (hx.opens _) hend hs'
      rw [spelled_inserted] at he₁
      rw [Piece.IsRead, hclosing] at hread
      obtain ⟨e₂, hinserted, he₂⟩ := hx.stand.read e₁ _ he₁ hread
      obtain ⟨hbehind, hnext⟩ := advance_closing hgap hothers hfinish hxs he₂
      obtain ⟨finish', hlexed, hfinish'⟩ := (ih hothers hxs hbehind hnext).mpr hclean
      refine ⟨finish', hkept'.append (hinserted.append (.cons rfl ?_ ?_ ?_)), hfinish'⟩
      · rw [hclosing, he₂]
        exact hread
      · have hadvance : (e₂.behind x.closing.behind x.closing.text).rest =
            Piece.spelled (result xs rest) := by
          rw [hclosing]
          exact hbehind
        rw [hadvance, he₂]
        exact List.drop_left
      · rw [hclosing]
        exact hlexed

end Exchange

end Unproxy.Syntax
