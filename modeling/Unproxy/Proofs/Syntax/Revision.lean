import Mathlib
import Unproxy.Syntax.Revision
import Unproxy.Proofs.Edit.Patch
import Unproxy.Proofs.Syntax.Exchange
import Unproxy.Proofs.Syntax.Program

/-!
# Unproxy.Proofs.Syntax.Revision

Edits that replace whole tokens of a text by other tokens. The text after them has the tokens
that were kept and those that were put in, unless some of them run together.

Main definitions:

* `Exchange.Enact`: exchanges of tokens that carry out edits, one for each.

Main statements:

* `Program.opening_append`: what a text begins with, before its first token, stays when that
  token is exchanged;
* `Exchange.exists_enact`: edits of whole tokens are carried out by exchanges;
* `Exchange.Enact.patch_eq`: the bytes after the edits are those of the exchanged tokens;
* `Exchange.tokens_result_iff`: the text after exchanges has the exchanged tokens exactly if
  nothing runs together.
-/

namespace Unproxy.Syntax

open Scan

/-! ### The ends of a text -/

theorem Token.ofText_ne_finish (c : CodePoint) (t : Text) : Token.ofText (c :: t) ≠ .finish := by
  rw [Token.ofText]
  repeat' split
  all_goals simp

namespace Scan

/-- The end is found where nothing is left. -/
theorem rest_betweenFrom_of_finish {passage : Passage} {offset : Nat} {gap : Gap}
    {comments : List Tree} {t : Text}
    (h : (betweenFrom passage offset gap comments t).next = .finish) :
    (betweenFrom passage offset gap comments t).rest = [] := by
  induction t generalizing passage offset gap comments with
  | nil =>
    rw [betweenFrom.eq_def]
    cases passage <;> rfl
  | cons c t ih =>
    cases hstep : passage.step? offset c t.head? with
    | none =>
      rw [betweenFrom_of_ends hstep] at h
      exact absurd h (Token.ofText_ne_finish c t)
    | some next =>
      obtain ⟨_, _, _, heq⟩ := betweenFrom_of_step hstep gap comments
      rw [heq] at h ⊢
      exact ih h

theorem Lexed.rest_of_finish {place place' : Place} {s e : Scan} {pieces : List Piece}
    (h : Lexed place s pieces place' e) (hs : s.next = .finish → s.rest = [])
    (he : e.next = .finish) : e.rest = [] := by
  induction h with
  | nil => exact hs he
  | @cons p pieces place place' s e before text gap others ih =>
    refine ih (fun hnext => ?_) he
    unfold Scan.behind at hnext ⊢
    split_ifs at hnext ⊢
    · exact rest_betweenFrom_of_finish hnext
    · cases hnext

theorem Lexed.text_ne_nil {place place' : Place} {s e : Scan} {pieces : List Piece}
    (h : Lexed place s pieces place' e) {p : Piece} (hp : p ∈ pieces) : p.text ≠ [] := by
  induction h with
  | nil => cases hp
  | cons before text gap others ih =>
    rcases List.mem_cons.mp hp with rfl | hp
    · exact Place.ne_nil_of_lexeme? text
    · exact ih hp

end Scan

namespace Program

theorem isBlank_of_endsLine {c : CodePoint} (h : c.endsLine = true) : c.isBlank = true := by
  simp only [CodePoint.endsLine, CodePoint.isLineBreak, CodePoint.isBlank, Bool.or_eq_true,
    Bool.and_eq_true, beq_iff_eq, decide_eq_true_eq] at h ⊢
  omega

/-- Tells a code point of a line from the one that ends it. -/
def isInLine (c : CodePoint) : Bool := !c.endsLine

/-- An interpreter line, with the line break behind it, whatever stands further on. -/
theorem takeWhile_line {source : Text} (hbang : "#!".toText <+: source) {c : CodePoint}
    (hc : c.endsLine = true) (t : Text) :
    "#!".toText <+: source.takeWhile isInLine ++ (c :: t) ∧
      (source.takeWhile isInLine ++ (c :: t)).takeWhile isInLine = source.takeWhile isInLine := by
  constructor
  · obtain ⟨behind, rfl⟩ := hbang
    exact ⟨behind.takeWhile isInLine ++ (c :: t), rfl⟩
  · have hc : ¬isInLine c = true := by simp [isInLine, hc]
    rw [List.takeWhile_append_of_pos fun d hd => List.mem_takeWhile_imp hd,
      List.takeWhile_cons_of_neg hc, List.append_nil]

theorem drop_takeWhile (t : Text) :
    t.drop (t.takeWhile isInLine).length = t.dropWhile isInLine := by
  have hdrop : (t.takeWhile isInLine ++ t.dropWhile isInLine).drop (t.takeWhile isInLine).length =
      t.dropWhile isInLine := List.drop_left
  rwa [List.takeWhile_append_dropWhile] at hdrop

theorem opening_of_hashBang {source : Text} (h : "#!".toText <+: source) :
    (opening source).2 =
      between (byteLength (source.takeWhile isInLine)) [] (source.dropWhile isInLine) := by
  rw [opening, if_pos (List.isPrefixOf_iff_prefix.mpr h), ← drop_takeWhile]
  rfl

theorem opening_of_not_hashBang {source : Text} (h : ¬"#!".toText <+: source) :
    (opening source).2 = between 0 [] source := by
  rw [opening, if_neg fun hline => h (List.isPrefixOf_iff_prefix.mp hline)]

/-- What is found behind the beginning of a text is solid, and may be exchanged for anything else
that is and begins no interpreter line. -/
theorem opening_append {lead r : Text} (h : (opening (lead ++ r)).2.rest = r) (hr : r ≠ []) :
    IsSolid r ∧ ∀ r', IsSolid r' → ("#!".toText <+: r' → "#!".toText <+: r) →
      (opening (lead ++ r')).2.rest = r' := by
  by_cases hline : "#!".toText <+: lead ++ r
  · rw [opening_of_hashBang hline] at h
    obtain ⟨gap, hgap⟩ := suffix_betweenFrom .blank
      (byteLength ((lead ++ r).takeWhile isInLine)) .none [] ((lead ++ r).dropWhile isInLine)
    rw [← between, h] at hgap
    have hsplit : lead = (lead ++ r).takeWhile isInLine ++ gap := by
      have hwhole := List.takeWhile_append_dropWhile (p := isInLine) (l := lead ++ r)
      rw [← hgap, ← List.append_assoc] at hwhole
      exact (List.append_cancel_right hwhole).symm
    rw [← hgap] at h
    obtain ⟨hsolid, hexchange⟩ := betweenFrom_append hr h
    refine ⟨hsolid, fun r' hr' _ => ?_⟩
    -- The line ends with a break, which is white space and so stands before what is found.
    have hhead := List.head?_dropWhile_not isInLine (lead ++ r)
    rw [← hgap] at hhead
    cases gap with
    | nil =>
      obtain ⟨c, r, rfl⟩ := List.exists_cons_of_ne_nil hr
      have hc : c.endsLine = true := by simpa [isInLine] using hhead
      cases hsolid.1.symm.trans (isBlank_of_endsLine hc)
    | cons c gap =>
      have hc : c.endsLine = true := by simpa [isInLine] using hhead
      obtain ⟨hbegins, htake⟩ := takeWhile_line hline hc (gap ++ r')
      have hlead : lead ++ r' = (lead ++ r).takeWhile isInLine ++ (c :: (gap ++ r')) := by
        conv_lhs => rw [hsplit, List.append_assoc, List.cons_append]
      rw [← hlead] at hbegins htake
      rw [opening_of_hashBang hbegins, htake, ← drop_takeWhile, htake, hlead, List.drop_left]
      exact hexchange r' hr'
  · rw [opening_of_not_hashBang hline] at h
    obtain ⟨hsolid, hexchange⟩ := betweenFrom_append hr h
    refine ⟨hsolid, fun r' hr' hbang => ?_⟩
    have hplain : ¬"#!".toText <+: lead ++ r' := by
      intro hbegins
      cases lead with
      | nil => exact hline (hbang hbegins)
      | cons c lead =>
        obtain ⟨rfl, -⟩ := List.cons_prefix_cons.mp hbegins
        have hc := isBlank_or_slash h
        revert hc
        decide
    rw [opening_of_not_hashBang hplain]
    exact hexchange r' hr'

/-- Tokens make up the text, behind what stands before the first of them. -/
theorem Tokens.exists_lead {source : Text} {pieces : List Piece} (h : Tokens source pieces) :
    ∃ lead finish, source = lead ++ Piece.spelled pieces ∧
      (opening source).2.offset = byteLength lead ∧
      Lexed .code (opening source).2 pieces .code finish ∧ finish.next = .finish ∧
      finish.rest = [] := by
  obtain ⟨finish, hlexed, hfinish⟩ := h
  have hsound := (spanned_opening source).sound
  have hrest : finish.rest = [] := by
    refine hlexed.rest_of_finish (fun hnext => ?_) hfinish
    cases hopening : (opening source).2.rest with
    | nil => rfl
    | cons c t =>
      rcases hsound.token with htoken | htoken
      · cases htoken.symm.trans hnext
      · rw [hnext, hopening] at htoken
        exact absurd htoken.symm (Token.ofText_ne_finish c t)
  obtain ⟨lead, hsource, hoffset⟩ := hsound.split
  rw [hlexed.rest_eq, hrest, List.append_nil] at hsource
  exact ⟨lead, finish, hsource, by rw [byteLength_eq, hoffset], hlexed, hfinish, hrest⟩

end Program

/-! ### Edits of whole tokens -/

namespace Exchange

/-- Exchanges that carry out edits, one for each: the pieces that an edit takes out are whole
tokens, and those that are put in are the tokens of its text. The first of all pieces stands
at an offset. -/
inductive Enact : Nat → List Exchange → List Edit → Prop
  | nil {offset : Nat} : Enact offset [] []
  | cons {offset : Nat} {x : Exchange} {xs : List Exchange} {edit : Edit} {edits : List Edit}
      (start : edit.start = offset + byteLength (Piece.spelled x.kept))
      (stop : edit.stop =
        edit.start + byteLength (Piece.spelled x.removed ++ x.removedLast.text))
      (text : edit.replacement = Piece.spelled x.inserted ++ x.insertedLast.text)
      (tokens : Program.Tokens edit.replacement (x.inserted ++ [x.insertedLast]))
      (valid : x.Valid) (others : Enact (edit.stop + byteLength x.removedLast.gap) xs edits) :
      Enact offset (x :: xs) (edit :: edits)

theorem Enact.valid {offset : Nat} {xs : List Exchange} {edits : List Edit}
    (h : Enact offset xs edits) : ∀ x ∈ xs, x.Valid := by
  induction h with
  | nil => exact fun x hx => absurd hx List.not_mem_nil
  | cons start stop text tokens valid others ih => exact List.forall_mem_cons.mpr ⟨valid, ih⟩

/-- An exchange of tokens makes no interpreter line. -/
theorem hashBang_result {xs : List Exchange} (hxs : ∀ x ∈ xs, x.Valid) (rest : List Piece)
    (h : "#!".toText <+: Piece.spelled (result xs rest)) :
    "#!".toText <+: Piece.spelled (source xs rest) := by
  cases xs with
  | nil => exact h
  | cons x xs =>
    obtain ⟨c, hc, -, hplain⟩ := (hxs x List.mem_cons_self).opens (result xs rest)
    obtain ⟨t, ht⟩ := List.head?_eq_some_iff.mp hc
    rw [result_cons, Piece.spelled_append, ht] at h
    rw [source_cons, Piece.spelled_append]
    generalize Piece.spelled x.kept = kept at h ⊢
    match kept with
    | [] =>
      obtain ⟨rfl, -⟩ := List.cons_prefix_cons.mp h
      exact absurd (by decide) hplain
    | [d] =>
      obtain ⟨-, h⟩ := List.cons_prefix_cons.mp h
      obtain ⟨rfl, -⟩ := List.cons_prefix_cons.mp h
      exact absurd (by decide) hplain
    | d :: e :: kept =>
      rw [List.prefix_iff_eq_take] at h ⊢
      exact h

/-- The bytes after edits are those of the text after the exchanges. -/
theorem Enact.patch_eq {place : Nat} {u : Text} {xs : List Exchange} {edits : List Edit}
    (h : Enact (place + byteLength u) xs edits) (rest : List Piece) :
    Edit.patch place (Utf8.encode (u ++ Piece.spelled (source xs rest))) edits =
      Utf8.encode (u ++ Piece.spelled (result xs rest)) := by
  induction xs generalizing place u edits with
  | nil =>
    cases h with
    | nil => rfl
  | cons x xs ih =>
    cases h with
    | @cons _ _ _ edit edits start stop text tokens valid others =>
      have hothers := ih others
      have hsource : Utf8.encode (u ++ Piece.spelled (source (x :: xs) rest)) =
          Utf8.encode (u ++ Piece.spelled x.kept) ++
            (Utf8.encode (Piece.spelled x.removed ++ x.removedLast.text) ++
              Utf8.encode (x.removedLast.gap ++ Piece.spelled (source xs rest))) := by
        simp only [source_cons, Piece.spelled_append, Piece.spelled_cons, Utf8.encode_append,
          List.append_assoc]
      have hresult : Utf8.encode (u ++ Piece.spelled (result (x :: xs) rest)) =
          Utf8.encode (u ++ Piece.spelled x.kept) ++
            (Utf8.encode edit.replacement ++
              Utf8.encode (x.removedLast.gap ++ Piece.spelled (result xs rest))) := by
        rw [text, result_cons, Piece.spelled_append, spelled_inserted]
        simp only [Utf8.encode_append, List.append_assoc]
      have hstart : edit.start - place =
          (Utf8.encode (u ++ Piece.spelled x.kept)).length := by
        rw [← byteLength_eq, byteLength_append]
        omega
      have hstop : edit.stop - place = (Utf8.encode (u ++ Piece.spelled x.kept)).length +
          (Utf8.encode (Piece.spelled x.removed ++ x.removedLast.text)).length := by
        rw [← hstart, ← byteLength_eq]
        omega
      rw [Edit.patch, hsource, hresult, hstart, hstop, List.take_left, ← List.drop_drop,
        List.drop_left, List.drop_left, hothers]

/-- The text after exchanges can be encoded if the one before it and those of the edits can. -/
theorem Enact.encodable {offset : Nat} {xs : List Exchange} {edits : List Edit}
    (h : Enact offset xs edits) {rest : List Piece}
    (hsource : Utf8.Encodable (Piece.spelled (source xs rest)))
    (hedits : ∀ edit ∈ edits, Utf8.Encodable edit.replacement) :
    Utf8.Encodable (Piece.spelled (result xs rest)) := by
  induction h with
  | nil => exact hsource
  | cons start stop text tokens valid others ih =>
    obtain ⟨hedit, hedits⟩ := List.forall_mem_cons.mp hedits
    rw [text] at hedit
    simp only [source_cons, Piece.spelled_append, Piece.spelled_cons,
      Utf8.encodable_append] at hsource
    obtain ⟨hkept, -, -, hgap, hothers⟩ := hsource
    simp only [result_cons, Piece.spelled_append, Piece.spelled_cons, Utf8.encodable_append]
      at hedit ⊢
    exact ⟨hkept, hedit.1, hedit.2, hgap, ih hothers hedits⟩

end Exchange

theorem Scan.byteLength_pos {t : Text} (h : t ≠ []) : 0 < byteLength t := by
  obtain ⟨c, t, rfl⟩ := List.exists_cons_of_ne_nil h
  exact Nat.add_pos_left (Utf8.width_pos c) _

/-- A stretch of pieces that starts behind the end of a piece is a stretch of those behind it. -/
theorem Piece.Cut.behind {offset start stop : Nat} {before behind : List Piece} {last : Piece}
    (h : Piece.Cut offset (before ++ [last] ++ behind) start stop) (hlast : last.text ≠ [])
    (hle : offset + byteLength (Piece.spelled before ++ last.text) ≤ start) :
    Piece.Cut (offset + byteLength (Piece.spelled (before ++ [last]))) behind start stop := by
  obtain ⟨before', inside, last', behind', heq, hcode, hcode', hstart, hstop⟩ := h
  rw [List.append_assoc before'] at heq
  obtain ⟨between, hbefore, hbehind⟩ : ∃ between, before' = before ++ [last] ++ between ∧
      behind = between ++ ((inside ++ [last']) ++ behind') := by
    rcases List.append_eq_append_iff.mp heq with ⟨between, hbefore, hbehind⟩ | ⟨back, hback, hrest⟩
    · exact ⟨between, hbefore, hbehind⟩
    · rcases List.eq_nil_or_concat back with rfl | ⟨back, q, rfl⟩
      · exact ⟨[], by simpa using hback.symm, hrest.symm⟩
      · -- The stretch would start no later than the piece.
        rw [List.concat_eq_append, ← List.append_assoc] at hback
        obtain ⟨rfl, -⟩ := List.append_inj' hback rfl
        have hpos := byteLength_pos hlast
        simp only [spelled_append, byteLength_append] at hle
        omega
  refine ⟨between, inside, last', behind', by rw [hbehind, List.append_assoc between], hcode,
    hcode', ?_, hstop⟩
  rw [hstart, hbefore, spelled_append (before ++ [last]), byteLength_append, Nat.add_assoc]

namespace Exchange

/-- Edits of whole tokens are carried out by exchanges. -/
theorem exists_enact {offset low high : Nat} {pieces : List Piece} {edits : List Edit}
    (hplaced : Edit.Placed low high edits) (hpieces : ∀ p ∈ pieces, p.text ≠ [])
    (hcut : ∀ edit ∈ edits, Piece.Cut offset pieces edit.start edit.stop)
    (htokens : ∀ edit ∈ edits, ∃ inserted last, Piece.Stand inserted last ∧
      edit.replacement = Piece.spelled inserted ++ last.text ∧
      Program.Tokens edit.replacement (inserted ++ [last])) :
    ∃ xs rest, pieces = source xs rest ∧ Enact offset xs edits := by
  induction edits generalizing offset low pieces with
  | nil => exact ⟨[], pieces, rfl, .nil⟩
  | cons edit edits ih =>
    obtain ⟨hedit, hcut⟩ := List.forall_mem_cons.mp hcut
    obtain ⟨⟨inserted, insertedLast, hstand, htext, hown⟩, htokens⟩ :=
      List.forall_mem_cons.mp htokens
    obtain ⟨-, -, hplaced⟩ := hplaced
    obtain ⟨before, inside, last, behind, rfl, hcode, hcode', hstart, hstop⟩ := hedit
    have hrow : before ++ (inside ++ [last]) ++ behind = before ++ inside ++ [last] ++ behind := by
      simp
    have hoffset : offset + byteLength (Piece.spelled (before ++ inside) ++ last.text) =
        edit.stop := by
      rw [hstop, hstart]
      simp only [Piece.spelled_append, byteLength_append]
      omega
    have hoffset' : offset + byteLength (Piece.spelled (before ++ inside ++ [last])) =
        edit.stop + byteLength last.gap := by
      rw [← hoffset]
      simp only [Piece.spelled_append, Piece.spelled_cons, Piece.spelled_nil, byteLength_append,
        byteLength_nil]
      omega
    have hbehind : ∀ e ∈ edits, Piece.Cut (edit.stop + byteLength last.gap) behind e.start
        e.stop := by
      intro e he
      have hcut := hcut e he
      rw [hrow] at hcut
      have hle := (hplaced.of_mem he).1
      rw [← hoffset']
      exact hcut.behind (hpieces last (by simp)) (hoffset.trans_le hle)
    obtain ⟨xs, rest, rfl, henact⟩ := ih hplaced (fun p hp => hpieces p (by simp [hp])) hbehind
      htokens
    exact ⟨⟨before, inside, last, inserted, insertedLast⟩ :: xs, rest, by simp,
      .cons hstart hstop htext hown ⟨hcode, hcode', hstand⟩ henact⟩

/-- After exchanges the tokens of a text are those kept and those put in exactly if nothing runs
together. -/
theorem tokens_result_iff {lead : Text} {xs : List Exchange} {rest : List Piece}
    (h : Program.Tokens (lead ++ Piece.spelled (source xs rest)) (source xs rest))
    (hxs : ∀ x ∈ xs, x.Valid) :
    Program.Tokens (lead ++ Piece.spelled (result xs rest)) (result xs rest) ↔ Clean rest xs := by
  cases xs with
  | nil => exact ⟨fun _ => trivial, fun _ => h⟩
  | cons x xs =>
    obtain ⟨lead', finish, -, -, hlexed, hfinish, hend⟩ := h.exists_lead
    have hrest := hlexed.rest_eq
    rw [hend, List.append_nil] at hrest
    have hne : Piece.spelled (source (x :: xs) rest) ≠ [] := by
      have hlast : x.removedLast.text ≠ [] := hlexed.text_ne_nil (by simp)
      simp [hlast]
    obtain ⟨hsolid, hopening⟩ := Program.opening_append hrest hne
    have hresult := isSolid_result hlexed hend hxs (by rwa [hrest])
    have hrest' := hopening _ hresult (hashBang_result hxs rest)
    have hiff := lexed_result_iff hlexed hend hxs hrest' (by simp)
    rw [hfinish] at hiff
    exact hiff

/-- Edits of whole tokens exchange these for the tokens of their texts exactly if nothing runs
together. -/
theorem exists_of_edits {source : Text} {pieces : List Piece} {edits : List Edit}
    (h : Program.Tokens source pieces) (hsource : Utf8.Encodable source)
    (hplaced : Edit.Placed 0 (Utf8.encode source).length edits)
    (hcut : ∀ edit ∈ edits,
      Piece.Cut (Program.opening source).2.offset pieces edit.start edit.stop)
    (hencodable : ∀ edit ∈ edits, Utf8.Encodable edit.replacement)
    (htokens : ∀ edit ∈ edits, ∃ inserted last, Piece.Stand inserted last ∧
      edit.replacement = Piece.spelled inserted ++ last.text ∧
      Program.Tokens edit.replacement (inserted ++ [last])) :
    ∃ lead xs rest, source = lead ++ Piece.spelled (Exchange.source xs rest) ∧
      Program.Tokens source (Exchange.source xs rest) ∧ Enact (byteLength lead) xs edits ∧
      Edit.applyAll (Utf8.encode source) edits 0 = .ok (lead ++ Piece.spelled (result xs rest)) ∧
      (Program.Tokens (lead ++ Piece.spelled (result xs rest)) (result xs rest) ↔
        Clean rest xs) := by
  obtain ⟨lead, finish, hlead, hoffset, hlexed, -⟩ := h.exists_lead
  rw [hoffset] at hcut
  obtain ⟨xs, rest, rfl, henact⟩ :=
    exists_enact hplaced (fun p hp => hlexed.text_ne_nil hp) hcut htokens
  rw [hlead] at h hsource hplaced
  obtain ⟨hleads, hspelled⟩ := Utf8.encodable_append.mp hsource
  refine ⟨lead, xs, rest, hlead, hlead ▸ h, henact, ?_, tokens_result_iff h henact.valid⟩
  have hpatch : Edit.patch 0 (Utf8.encode (lead ++ Piece.spelled (Exchange.source xs rest))) edits =
      Utf8.encode (lead ++ Piece.spelled (result xs rest)) := by
    refine Enact.patch_eq ?_ rest
    rwa [Nat.zero_add]
  have hresult : Utf8.Encodable (lead ++ Piece.spelled (result xs rest)) :=
    Utf8.encodable_append.mpr ⟨hleads, henact.encodable hspelled hencodable⟩
  rw [hlead, Edit.applyAll, Edit.applyInOrder_ordered (by rw [Nat.zero_add]; exact hplaced.spaced)
    hplaced.pairwise (List.Perm.refl _) hencodable, hpatch]
  simp only [Utf8.decode_encode hresult]

end Exchange

end Unproxy.Syntax
