import Mathlib
import Unproxy.Proofs.Syntax.Piece

/-!
# Unproxy.Proofs.Syntax.Lookahead

How far behind a piece of a text its reader looks: three code points, for a number that
might have an exponent and for a punctuator that might be longer. Only a name looks further,
since an escape can go on with it, and an escape in braces has no bound.

Main statements:

* `Lexeme.name?_append`: a name is read in front of whatever cannot go on with it;
* `Lexeme.number?_append`, `Lexeme.symbol?_append`, `Lexeme.escape?_append`: one for each
  other class of lexemes;
* `Token.ofText_append`, `Place.lexeme?_append`: so are tokens, and pieces at every place.
-/

namespace Unproxy.Syntax

open CodePoint (ofChar)

namespace Lexeme

section

variable {w r r' : Text}

/-! ### Texts that agree for a while -/

/-- Two texts that agree for a while begin alike. -/
theorem cases_of_take {n : Nat} (h : r.take (n + 1) = r'.take (n + 1)) :
    (r = [] ∧ r' = []) ∨ ∃ c t t', r = c :: t ∧ r' = c :: t' ∧ t.take n = t'.take n := by
  cases r with
  | nil =>
    cases r' with
    | nil => exact .inl ⟨rfl, rfl⟩
    | cons c t' => simp at h
  | cons c t =>
    cases r' with
    | nil => simp at h
    | cons d t' =>
      rw [List.take_succ_cons, List.take_succ_cons, List.cons.injEq] at h
      obtain ⟨rfl, h⟩ := h
      exact .inr ⟨c, t, t', rfl, rfl, h⟩

theorem take_of_take {m n : Nat} (h : r.take n = r'.take n) (hle : m ≤ n) :
    r.take m = r'.take m := by
  have htake := congrArg (List.take m) h
  rwa [List.take_take, List.take_take, Nat.min_eq_left hle] at htake

theorem head?_of_take {n : Nat} (h : r.take (n + 1) = r'.take (n + 1)) : r.head? = r'.head? := by
  rcases cases_of_take h with ⟨rfl, rfl⟩ | ⟨c, t, t', rfl, rfl, -⟩
  · rfl
  · rfl

/-- What agrees for a while does so behind a common text. -/
theorem take_append {n : Nat} (h : r.take n = r'.take n) (w : Text) :
    (w ++ r).take n = (w ++ r').take n := by
  rw [List.take_append, List.take_append, take_of_take h (Nat.sub_le n w.length)]

/-! ### Names -/

theorem bracedHex?_braced {digits : Text} (hne : digits ≠ [])
    (hdigits : ∀ d ∈ digits, d.isHexDigit = true) (r : Text) :
    bracedHex? (ofChar '\x7b' :: digits ++ ofChar '\x7d' :: r) =
      some (ofChar '\x7b' :: digits ++ [ofChar '\x7d']) := by
  have htake : (digits ++ ofChar '\x7d' :: r).takeWhile CodePoint.isHexDigit = digits := by
    rw [List.takeWhile_append_of_pos hdigits, List.takeWhile_cons_of_neg (by decide),
      List.append_nil]
  simp [bracedHex?, htake, hne]

/-- An escape in braces does not depend on what stands behind it. -/
theorem bracedHex?_append (h : bracedHex? (w ++ r) = some w) (r' : Text) :
    bracedHex? (w ++ r') = some w := by
  have hcases : ∀ t, bracedHex? t = some w → ∃ digits, digits ≠ [] ∧
      (∀ d ∈ digits, d.isHexDigit = true) ∧
      w = ofChar '\x7b' :: digits ++ [ofChar '\x7d'] := by
    intro t h
    cases t with
    | nil => cases h
    | cons c rest =>
      obtain ⟨hclosed, h⟩ := Option.ite_none_right_eq_some.mp h
      simp only [Bool.and_eq_true, decide_eq_true_eq, Bool.not_eq_true'] at hclosed
      obtain ⟨⟨rfl, hne⟩, -⟩ := hclosed
      cases h
      exact ⟨_, by simpa using hne, fun d hd => List.mem_takeWhile_imp hd, rfl⟩
  obtain ⟨digits, hne, hdigits, rfl⟩ := hcases _ h
  simpa using bracedHex?_braced hne hdigits r'

theorem hexDigits?_append {n : Nat} (h : hexDigits? n (w ++ r) = some w) (r' : Text) :
    hexDigits? n (w ++ r') = some w := by
  obtain ⟨hdigits, h⟩ := Option.ite_none_right_eq_some.mp h
  have htake : (w ++ r).take n = w := Option.some.inj h
  have hlength : w.length = n := by
    rw [htake] at hdigits
    simpa using (Bool.and_eq_true_iff.mp hdigits).1
  have htake' : (w ++ r').take n = w := by rw [← hlength, List.take_left]
  rw [htake] at hdigits
  simp only [hexDigits?, htake', hdigits, if_true]

theorem exists_of_unicodeEscape? {t : Text} (h : unicodeEscape? t = some w) :
    ∃ body, w = ofChar '\\' :: ofChar 'u' :: body := by
  unfold unicodeEscape? at h
  split at h
  · obtain ⟨hmark, h⟩ := Option.ite_none_right_eq_some.mp h
    obtain ⟨body, -, rfl⟩ := Option.map_eq_some_iff.mp h
    simp only [Bool.and_eq_true, decide_eq_true_eq] at hmark
    exact ⟨body, by rw [hmark.1, hmark.2]⟩
  · cases h

theorem unicodeEscape?_append (h : unicodeEscape? (w ++ r) = some w) (r' : Text) :
    unicodeEscape? (w ++ r') = some w := by
  obtain ⟨body, rfl⟩ := exists_of_unicodeEscape? h
  simp only [List.cons_append, unicodeEscape?, decide_true, Bool.and_self, if_true] at h ⊢
  obtain ⟨body', hbody, heq⟩ := Option.map_eq_some_iff.mp h
  obtain rfl : body' = body := by simpa using heq
  rw [Option.orElse_eq_some] at hbody
  rcases hbody with hbody | ⟨hnone, hbody⟩
  · rw [bracedHex?_append hbody r']
    rfl
  · have hnone' : bracedHex? (body' ++ r') = none := by
      -- A digit at the head is no brace.
      have hdigits := (Option.ite_none_right_eq_some.mp hbody)
      cases body' with
      | nil =>
        have htake : (r.take 4) = [] := by simpa using hdigits.2
        rw [List.nil_append, htake] at hdigits
        simp at hdigits
      | cons d rest =>
        have htake : ((d :: rest) ++ r).take 4 = d :: rest := by simpa using hdigits.2
        rw [htake] at hdigits
        have hhex : d.isHexDigit = true := by
          have hall := (Bool.and_eq_true_iff.mp hdigits.1).2
          rw [List.all_cons, Bool.and_eq_true] at hall
          exact hall.1
        have hd : d ≠ ofChar '\x7b' := by
          rintro rfl
          revert hhex
          decide
        simp [bracedHex?, hd]
    rw [hnone', hexDigits?_append hbody r']
    rfl

theorem unicodeEscape?_of_head {c : CodePoint} (h : c ≠ ofChar '\\') (r : Text) :
    unicodeEscape? (c :: r) = none := by
  cases r with
  | nil => rfl
  | cons d r => simp [unicodeEscape?, h]

/-- A piece of a name does not depend on what stands behind it. -/
theorem namePiece?_append {isAllowed : CodePoint → Bool}
    (hallowed : isAllowed (ofChar '\\') = false)
    (h : namePiece? isAllowed (w ++ r) = some w) (r' : Text) :
    namePiece? isAllowed (w ++ r') = some w := by
  unfold namePiece? at h
  split at h
  · rename_i piece hpiece
    cases h
    simp only [namePiece?, unicodeEscape?_append hpiece r']
  · split at h
    · rename_i c rest htext
      obtain ⟨hc, h⟩ := Option.ite_none_right_eq_some.mp h
      obtain rfl : [c] = w := Option.some.inj h
      have hne : c ≠ ofChar '\\' := by
        rintro rfl
        rw [hallowed] at hc
        cases hc
      simp only [namePiece?, List.singleton_append, unicodeEscape?_of_head hne, hc, if_true]
    · cases h

/-- The rest of a name is empty, or a piece and the rest behind it. -/
theorem nameRest_cases {n : Nat} (h : nameRest (n + 1) (w ++ r) = w) :
    (w = [] ∧ namePiece? CodePoint.isNamePart r = none) ∨
      ∃ piece others, w = piece ++ others ∧ 0 < piece.length ∧
        namePiece? CodePoint.isNamePart (piece ++ (others ++ r)) = some piece ∧
        nameRest n (others ++ r) = others := by
  rw [nameRest] at h
  split at h
  · rename_i piece hpiece
    obtain ⟨rest, hrest⟩ := begins_namePiece? hpiece
    rw [← hrest, List.drop_left] at h
    obtain ⟨others, rfl⟩ : ∃ others, w = piece ++ others := ⟨_, h.symm⟩
    rw [List.append_assoc] at hrest hpiece
    rw [List.append_cancel_left hrest] at h
    exact .inr ⟨piece, others, rfl, List.length_pos_of_ne_nil (ne_nil_of_namePiece? hpiece), hpiece,
      List.append_cancel_left h⟩
  · rename_i hnone
    subst h
    exact .inl ⟨rfl, hnone⟩

/-- A name goes on until nothing that stands behind it can be part of it. -/
theorem namePiece?_of_nameRest {n : Nat} (h : nameRest n (w ++ r) = w)
    (hn : w.length < n) : namePiece? CodePoint.isNamePart r = none := by
  induction n generalizing w with
  | zero => omega
  | succ n ih =>
    obtain ⟨-, hnone⟩ | ⟨piece, others, rfl, hlength, -, h⟩ := nameRest_cases h
    · exact hnone
    · rw [List.length_append] at hn
      exact ih h (by omega)

theorem nameRest_append {n n' : Nat} (h : nameRest n (w ++ r) = w) {r' : Text}
    (hr' : namePiece? CodePoint.isNamePart r' = none) (hn' : w.length ≤ n') :
    nameRest n' (w ++ r') = w := by
  have hnil : ∀ n', nameRest n' ([] ++ r') = [] := by
    intro n'
    cases n' with
    | zero => rfl
    | succ n' => rw [List.nil_append, nameRest, hr']
  induction n generalizing w n' with
  | zero =>
    rw [nameRest] at h
    subst h
    exact hnil n'
  | succ n ih =>
    obtain ⟨rfl, -⟩ | ⟨piece, others, rfl, hlength, hpiece, h⟩ := nameRest_cases h
    · exact hnil n'
    · rw [List.length_append] at hn'
      obtain ⟨m, rfl⟩ : ∃ m, n' = m + 1 := ⟨n' - 1, by omega⟩
      rw [List.append_assoc, nameRest, namePiece?_append (by decide) hpiece]
      dsimp only
      rw [List.drop_left, ih h (by omega)]

/-- A name is read in front of whatever cannot be part of it. -/
theorem name?_append (h : name? (w ++ r) = some w) :
    namePiece? CodePoint.isNamePart r = none ∧
      ∀ r', namePiece? CodePoint.isNamePart r' = none → name? (w ++ r') = some w := by
  obtain ⟨piece, hpiece, heq⟩ := Option.map_eq_some_iff.mp h
  obtain ⟨others, rfl⟩ : ∃ others, w = piece ++ others := ⟨_, heq.symm⟩
  have hlength := List.length_pos_of_ne_nil (ne_nil_of_namePiece? hpiece)
  have hothers := List.append_cancel_left heq
  rw [List.append_assoc, List.drop_left] at hothers
  constructor
  · refine namePiece?_of_nameRest hothers ?_
    simp only [List.length_append]
    omega
  · intro r' hr'
    rw [List.append_assoc] at hpiece
    rw [name?, List.append_assoc, namePiece?_append (by decide) hpiece, Option.map_some,
      List.drop_left, nameRest_append hothers hr' (by simp only [List.length_append]; omega)]

/-- Nothing goes on with a name that begins with a code point that no name holds. -/
theorem namePiece?_eq_none {c : CodePoint} (hc : c.isNamePart = false)
    (hbackslash : c ≠ ofChar '\\') (r : Text) :
    namePiece? CodePoint.isNamePart (c :: r) = none := by
  simp [namePiece?, unicodeEscape?_of_head hbackslash, hc]


/-! ### Numbers -/

theorem separatedRest_append {isAllowed : CodePoint → Bool}
    (h : separatedRest isAllowed (w ++ r) = w) (hr : r.take 2 = r'.take 2) :
    separatedRest isAllowed (w ++ r') = w := by
  induction w with
  | nil =>
    rcases cases_of_take hr with ⟨rfl, rfl⟩ | ⟨c, t, t', rfl, rfl, ht⟩
    · rfl
    · simp only [List.nil_append, separatedRest, head?_of_take ht] at h ⊢
      split_ifs at h ⊢
      rfl
  | cons c w ih =>
    simp only [List.cons_append, separatedRest] at h ⊢
    have hhead : (w ++ r).head? = (w ++ r').head? := head?_of_take (take_append hr w)
    rw [hhead] at h
    split_ifs at h ⊢
    · rw [ih (List.cons.inj h).2]
    · rw [ih (List.cons.inj h).2]

theorem separated_append {isAllowed : CodePoint → Bool}
    (h : separated isAllowed (w ++ r) = w) (hr : r.take 2 = r'.take 2) :
    separated isAllowed (w ++ r') = w := by
  simp only [separated, head?_of_take (take_append hr w)] at h ⊢
  split_ifs at h ⊢ with hhead
  · exact separatedRest_append h hr
  · exact h

theorem decimals_append (h : decimals (w ++ r) = w) (hr : r.take 2 = r'.take 2) :
    decimals (w ++ r') = w :=
  separated_append h hr

/-- Whether there are digits is told by the first code point. -/
theorem isEmpty_separated {isAllowed : CodePoint → Bool} {t t' : Text} (h : t.head? = t'.head?) :
    (separated isAllowed t).isEmpty = (separated isAllowed t').isEmpty := by
  have hempty : ∀ t : Text,
      (separated isAllowed t).isEmpty = !(t.head?.map isAllowed).getD false := by
    intro t
    cases t with
    | nil => rfl
    | cons c t => cases hc : isAllowed c <;> simp [separated, separatedRest, hc]
  rw [hempty, hempty, h]

theorem isEmpty_decimals {t t' : Text} (h : t.head? = t'.head?) :
    (decimals t).isEmpty = (decimals t').isEmpty :=
  isEmpty_separated h

/-- The sign of an exponent. -/
def sign (t : Text) : Text :=
  (t.take 1).filter fun c => c = ofChar '+' || c = ofChar '-'

theorem exponent_cons (mark : CodePoint) (rest : Text) :
    exponent (mark :: rest) =
      if mark = 'e' || mark = 'E' then
        if (decimals (rest.drop (sign rest).length)).isEmpty then []
        else mark :: sign rest ++ decimals (rest.drop (sign rest).length)
      else [] := rfl

theorem exponent_append (h : exponent (w ++ r) = w) (hr : r.take 3 = r'.take 3) :
    exponent (w ++ r') = w := by
  cases w with
  | nil =>
    rcases cases_of_take hr with ⟨rfl, rfl⟩ | ⟨mark, t, t', rfl, rfl, ht⟩
    · rfl
    · have hsign : sign t = sign t' := by rw [sign, sign, take_of_take ht (by omega)]
      have hdrop : (t.drop (sign t').length).head? = (t'.drop (sign t').length).head? := by
        have hlength : (sign t').length ≤ 1 := by
          have := List.length_filter_le
            (fun c => c = ofChar '+' || c = ofChar '-') (t'.take 1)
          rw [List.length_take] at this
          exact this.trans (Nat.min_le_left _ _)
        rw [List.head?_eq_getElem?, List.head?_eq_getElem?, List.getElem?_drop,
          List.getElem?_drop]
        have hget := congrArg (·[(sign t').length + 0]?) ht
        simpa only [List.getElem?_take, show (sign t').length + 0 < 2 by omega, if_true] using hget
      rw [List.nil_append, exponent_cons] at h ⊢
      rw [hsign, isEmpty_decimals hdrop] at h
      split_ifs at h ⊢
      · rfl
      · cases h
      · rfl
  | cons mark w =>
    rw [List.cons_append, exponent_cons] at h ⊢
    have hsign : sign (w ++ r) = sign (w ++ r') := by
      rw [sign, sign, take_of_take (take_append hr w) (by omega)]
    rw [hsign] at h
    generalize sign (w ++ r') = sg at h ⊢
    split_ifs at h with hmark hempty
    obtain ⟨digits, rfl⟩ : ∃ digits, w = sg ++ digits := ⟨_, (List.cons.inj h).2.symm⟩
    rw [List.append_assoc, List.drop_left] at h hempty ⊢
    have hdigits : decimals (digits ++ r) = digits :=
      List.append_cancel_left (List.cons.inj h).2
    rw [hdigits] at hempty
    rw [if_pos hmark, decimals_append hdigits (take_of_take hr (by omega)), if_neg hempty]
    rfl

/-- The digits behind a point, with their exponent. -/
def fraction (t : Text) : Text := decimals t ++ exponent (t.drop (decimals t).length)

theorem fraction_append (h : fraction (w ++ r) = w) (hr : r.take 3 = r'.take 3) :
    fraction (w ++ r') = w ∧ (decimals (w ++ r')).isEmpty = (decimals (w ++ r)).isEmpty := by
  rw [fraction] at h
  generalize hdigits : decimals (w ++ r) = digits at h ⊢
  generalize hmark : exponent ((w ++ r).drop digits.length) = mark at h
  subst h
  rw [List.append_assoc] at hdigits hmark
  rw [List.drop_left] at hmark
  have hdigits' := decimals_append hdigits (take_append (take_of_take hr (by omega)) mark)
  rw [fraction, List.append_assoc, hdigits', List.drop_left, exponent_append hmark hr]
  exact ⟨rfl, rfl⟩

theorem basedNumber?_append (h : basedNumber? (w ++ r) = some w) (hr : r.take 3 = r'.take 3) :
    basedNumber? (w ++ r') = some w := by
  have hshape : ∀ t, basedNumber? t = some w → ∃ z mark rest, w = z :: mark :: rest := by
    intro t h
    unfold basedNumber? at h
    split at h
    · split at h
      · obtain ⟨-, h⟩ := Option.ite_none_right_eq_some.mp h
        exact ⟨_, _, _, (Option.some.inj h).symm⟩
      · cases h
    · cases h
  obtain ⟨z, mark, rest, rfl⟩ := hshape _ h
  simp only [List.cons_append, basedNumber?] at h ⊢
  cases hbase : baseOfMark mark with
  | none =>
    rw [hbase] at h
    cases h
  | some base =>
    rw [hbase] at h
    dsimp only at h ⊢
    obtain ⟨hdigits, h⟩ := Option.ite_none_right_eq_some.mp h
    generalize hd : separated (CodePoint.isDigitOf base) (rest ++ r) = digits at h hdigits
    generalize hb : (((rest ++ r).drop digits.length).take 1).filter
      (· = ofChar 'n') = big at h
    obtain rfl : digits ++ big = rest := by simpa using h
    rw [List.append_assoc] at hd hb ⊢
    rw [List.drop_left] at hb
    have hr' := take_append (take_of_take hr (show 2 ≤ 3 by omega)) big
    rw [separated_append hd hr', if_pos hdigits, List.drop_left,
      ← take_of_take hr' (show 1 ≤ 2 by omega), hb]

/-- Whether a number has a base mark is told by three code points. -/
theorem basedNumber?_eq_none {t t' : Text} (h : basedNumber? t = none)
    (ht : t.take 3 = t'.take 3) : basedNumber? t' = none := by
  rcases cases_of_take ht with ⟨rfl, rfl⟩ | ⟨z, u, u', rfl, rfl, hu⟩
  · rfl
  rcases cases_of_take hu with ⟨rfl, rfl⟩ | ⟨mark, v, v', rfl, rfl, hv⟩
  · rfl
  simp only [basedNumber?] at h ⊢
  cases hbase : baseOfMark mark with
  | none => rfl
  | some base =>
    rw [hbase] at h
    dsimp only at h ⊢
    rw [isEmpty_separated (head?_of_take hv)] at h
    split_ifs at h ⊢
    rfl

/-- A decimal number by its whole part and what is behind that. -/
def decimalBehind? (whole : Text) : Text → Option Text
  | c :: more =>
    if c = '.' && whole.isEmpty then
      if (decimals more).isEmpty then none else some (c :: fraction more)
    else if whole.isEmpty then none
    else if c = '.' && mayHaveFraction whole then some (whole ++ c :: fraction more)
    else if c = 'n' then some (whole ++ [c])
    else if mayHaveFraction whole then some (whole ++ exponent (c :: more))
    else some whole
  | [] => if whole.isEmpty then none else some whole

theorem decimalNumber?_eq (t : Text) :
    decimalNumber? t = decimalBehind? (decimals t) (t.drop (decimals t).length) := by
  cases hrest : t.drop (decimals t).length with
  | nil => simp only [decimalNumber?, hrest, decimalBehind?]
  | cons c more => simp only [decimalNumber?, hrest, decimalBehind?, fraction]

theorem begins_of_decimalBehind? {whole t : Text} (h : decimalBehind? whole t = some w) :
    whole <+: w := by
  unfold decimalBehind? at h
  split at h
  · split_ifs at h with hpoint
    · have hempty : whole = [] := by simp at hpoint; simpa using hpoint.2
      rw [hempty]
      exact List.nil_prefix
    · exact ⟨_, Option.some.inj h⟩
    · exact ⟨_, Option.some.inj h⟩
    · exact ⟨_, Option.some.inj h⟩
    · exact ⟨[], by rw [List.append_nil, Option.some.inj h]⟩
  · split_ifs at h
    exact ⟨[], by rw [List.append_nil, Option.some.inj h]⟩

theorem decimalBehind?_append {whole : Text} (h : decimalBehind? whole (w ++ r) = some (whole ++ w))
    (hr : r.take 3 = r'.take 3) : decimalBehind? whole (w ++ r') = some (whole ++ w) := by
  have hcancel : ∀ {c : CodePoint} {t : Text}, (decide (c = '.') && whole.isEmpty) = true →
      some (c :: t) = some (whole ++ w) → whole = [] ∧ c :: t = w := by
    intro c t hpoint h
    rw [Bool.and_eq_true, List.isEmpty_iff] at hpoint
    rw [hpoint.2] at h
    exact ⟨hpoint.2, Option.some.inj h⟩
  cases w with
  | nil =>
    rcases cases_of_take hr with ⟨rfl, rfl⟩ | ⟨c, t, t', rfl, rfl, ht⟩
    · exact h
    have hexponent : exponent (c :: t) = [] → exponent (c :: t') = [] := fun h =>
      exponent_append (w := []) h hr
    simp only [List.nil_append, decimalBehind?] at h ⊢
    split_ifs at h ⊢ with hpoint
    · cases (hcancel hpoint h).2
    · cases (hcancel hpoint h).2
    · cases List.append_cancel_left (Option.some.inj h)
    · exact h
    · rw [hexponent (List.append_cancel_left (Option.some.inj h))]
    · exact h
  | cons c w =>
    have hfraction := fun h => fraction_append (w := w) h hr
    have hexponent := fun h => exponent_append (w := c :: w) h hr
    simp only [List.cons_append, decimalBehind?] at h ⊢
    split_ifs at h ⊢ with hpoint hmore hmore'
    · obtain ⟨hwhole, h⟩ := hcancel hpoint h
      rw [(hfraction (List.cons.inj h).2).2] at hmore
      exact absurd hmore hmore'
    · obtain ⟨hwhole, h⟩ := hcancel hpoint h
      rw [(hfraction (List.cons.inj h).2).1, hwhole]
      rfl
    · have h := List.append_cancel_left (Option.some.inj h)
      rw [(hfraction (List.cons.inj h).2).1]
    · exact h
    · rw [← List.cons_append, hexponent (List.append_cancel_left (Option.some.inj h))]
    · exact h

theorem decimalNumber?_append (h : decimalNumber? (w ++ r) = some w) (hr : r.take 3 = r'.take 3) :
    decimalNumber? (w ++ r') = some w := by
  rw [decimalNumber?_eq] at h
  generalize hwhole : decimals (w ++ r) = whole at h
  obtain ⟨behind, rfl⟩ := begins_of_decimalBehind? h
  rw [List.append_assoc] at hwhole h
  rw [List.drop_left] at h
  have hwhole' := decimals_append hwhole (take_append (take_of_take hr (by omega)) behind)
  rw [decimalNumber?_eq, List.append_assoc, hwhole', List.drop_left]
  exact decimalBehind?_append h hr

/-- A number is told by three code points behind it. -/
theorem number?_append (h : number? (w ++ r) = some w) (hr : r.take 3 = r'.take 3) :
    number? (w ++ r') = some w := by
  rw [number?, Option.orElse_eq_some] at h
  rcases h with h | ⟨hnone, h⟩
  · rw [number?, basedNumber?_append h hr]
    rfl
  · rw [number?, basedNumber?_eq_none hnone (take_append hr w)]
    exact decimalNumber?_append h hr

/-! ### Punctuators and escapes -/

/-- A punctuator has four code points at most. -/
theorem symbol?_congr {t t' : Text} (h : t.take 4 = t'.take 4) : symbol? t = symbol? t' := by
  have hlength : ∀ s ∈ symbols, s.length ≤ 4 := by decide
  have hthird : (t.drop 2).head? = (t'.drop 2).head? := by
    have hget := congrArg (·[2]?) h
    rw [List.head?_drop, List.head?_drop]
    simpa [List.getElem?_take] using hget
  have hbegins : ∀ s ∈ symbols, s.isPrefixOf t = s.isPrefixOf t' := by
    intro s hs
    rw [Bool.eq_iff_iff, List.isPrefixOf_iff_prefix, List.isPrefixOf_iff_prefix,
      List.prefix_iff_eq_take, List.prefix_iff_eq_take, take_of_take h (hlength s hs)]
  unfold symbol?
  refine List.find?_congr fun s hs => ?_
  rw [hbegins s hs, hthird]

theorem symbol?_append (h : symbol? (w ++ r) = some w) (hr : r.take 3 = r'.take 3) :
    symbol? (w ++ r') = some w := by
  rw [← h]
  obtain ⟨c, w, rfl⟩ := List.exists_cons_of_ne_nil (ne_nil_of_symbol? h)
  refine (symbol?_congr ?_).symm
  rw [List.cons_append, List.cons_append, List.take_succ_cons, List.take_succ_cons,
    take_append hr w]

theorem takeWhile_append {p : CodePoint → Bool} (h : (w ++ r).takeWhile p = w)
    (hr : r.head? = r'.head?) : (w ++ r').takeWhile p = w := by
  have hw : ∀ c ∈ w, p c = true := by
    intro c hc
    rw [← h] at hc
    exact List.mem_takeWhile_imp hc
  rw [List.takeWhile_append_of_pos hw] at h ⊢
  have hnil := List.append_cancel_left (h.trans (List.append_nil w).symm)
  suffices r'.takeWhile p = [] by rw [this, List.append_nil]
  cases r' with
  | nil => rfl
  | cons c t' =>
    obtain ⟨t, rfl⟩ := List.head?_eq_some_iff.mp (hr.trans rfl)
    rw [List.takeWhile_cons] at hnil ⊢
    split_ifs at hnil ⊢
    rfl

/-- An octal escape has three digits at most. -/
theorem takeWhile_take_append {p : CodePoint → Bool} {n : Nat}
    (h : ((w ++ r).take n).takeWhile p = w) (hr : r.head? = r'.head?) :
    ((w ++ r').take n).takeWhile p = w := by
  induction w generalizing n with
  | nil =>
    cases n with
    | zero => rfl
    | succ n =>
      cases r' with
      | nil => rfl
      | cons c t' =>
        obtain ⟨t, rfl⟩ := List.head?_eq_some_iff.mp (hr.trans rfl)
        simp only [List.nil_append, List.take_succ_cons, List.takeWhile_cons] at h ⊢
        split_ifs at h ⊢
        rfl
  | cons c w ih =>
    cases n with
    | zero => cases h
    | succ n =>
      simp only [List.cons_append, List.take_succ_cons, List.takeWhile_cons] at h ⊢
      split_ifs at h ⊢
      rw [ih (List.cons.inj h).2]

theorem escape?_append (h : escape? (w ++ r) = some w) (hr : r.head? = r'.head?) :
    escape? (w ++ r') = some w := by
  have hshape : ∀ t, escape? t = some w → ∃ c rest, w = ofChar '\\' :: c :: rest := by
    intro t h
    unfold escape? at h
    split at h
    · cases h
    · cases h
    · split at h
      · cases h
      · rename_i c rest hbackslash
        obtain rfl := not_not.mp hbackslash
        split_ifs at h with hoctal
        · refine ⟨c, (rest.take 2).takeWhile CodePoint.isOctalDigit, ?_⟩
          rw [← Option.some.inj h, List.take_succ_cons, List.takeWhile_cons_of_pos hoctal]
        · obtain ⟨body, -, rfl⟩ := Option.map_eq_some_iff.mp h
          exact ⟨_, _, rfl⟩
        · obtain ⟨body, rfl⟩ := exists_of_unicodeEscape? h
          exact ⟨_, _, rfl⟩
        · split at h
          · split_ifs at h
            · exact ⟨_, _, (Option.some.inj h).symm⟩
            · exact ⟨_, _, (Option.some.inj h).symm⟩
          · exact ⟨_, _, (Option.some.inj h).symm⟩
  obtain ⟨c, rest, rfl⟩ := hshape _ h
  simp only [List.cons_append, escape?] at h ⊢
  split_ifs at h ⊢ with hbackslash hoctal hx hu
  · have h := (List.cons.inj (Option.some.inj h)).2
    rw [← List.cons_append] at h ⊢
    rw [takeWhile_take_append h hr]
  · obtain ⟨body, hbody, heq⟩ := Option.map_eq_some_iff.mp h
    obtain rfl : body = rest := by simpa using heq
    rw [hexDigits?_append hbody, Option.map_some]
  · exact unicodeEscape?_append (w := ofChar '\\' :: c :: rest) h r'
  · cases rest with
    | nil =>
      cases r' with
      | nil => rfl
      | cons d t' =>
        obtain ⟨t, rfl⟩ := List.head?_eq_some_iff.mp (hr.trans rfl)
        exact h
    | cons d rest => exact h

theorem escape?_of_head {c : CodePoint} (h : c ≠ ofChar '\\') (t : Text) :
    escape? (c :: t) = none := by
  cases t with
  | nil => rfl
  | cons d t => simp [escape?, h]

/-! ### Inside quotations -/

theorem stringFragment_append {quote : CodePoint} (h : Parser.stringFragment quote (w ++ r) = w)
    (hr : r.head? = r'.head?) : Parser.stringFragment quote (w ++ r') = w :=
  takeWhile_append h hr

theorem templateFragment_append (h : Parser.templateFragment (w ++ r) = w)
    (hr : r.take 2 = r'.take 2) : Parser.templateFragment (w ++ r') = w := by
  induction w with
  | nil =>
    rcases cases_of_take hr with ⟨rfl, rfl⟩ | ⟨c, t, t', rfl, rfl, ht⟩
    · rfl
    · simp only [List.nil_append, Parser.templateFragment, head?_of_take ht] at h ⊢
      split_ifs at h ⊢
      · rfl
      · rfl
  | cons c w ih =>
    simp only [List.cons_append, Parser.templateFragment] at h ⊢
    have hhead : (w ++ r).head? = (w ++ r').head? := head?_of_take (take_append hr w)
    rw [hhead] at h
    split_ifs at h ⊢
    rw [ih (List.cons.inj h).2]

theorem regexBody?_append {place : Parser.RegexPlace} {escaped : Bool}
    (h : Parser.regexBody? place escaped (w ++ r) = some w) (hr : r.head? = r'.head?) :
    Parser.regexBody? place escaped (w ++ r') = some w := by
  induction w generalizing place escaped with
  | nil =>
    cases r' with
    | nil =>
      rw [List.head?_eq_none_iff.mp hr] at h
      cases h
    | cons c t' =>
      obtain ⟨t, rfl⟩ := List.head?_eq_some_iff.mp (hr.trans rfl)
      have hmap : ∀ {o : Option Text}, o.map (c :: ·) ≠ some [] := by
        intro o ho
        obtain ⟨body, -, hbody⟩ := Option.map_eq_some_iff.mp ho
        cases hbody
      rw [List.nil_append] at h ⊢
      cases place with
      | outside =>
        simp only [Parser.regexBody?] at h ⊢
        split_ifs at h ⊢
        · exact absurd h hmap
        · exact absurd h hmap
        · rfl
        · exact absurd h hmap
        · exact absurd h hmap
      | inClass =>
        simp only [Parser.regexBody?] at h
        split_ifs at h
        all_goals exact absurd h hmap
  | cons c w ih =>
    have hmap : ∀ {place escaped},
        (Parser.regexBody? place escaped (w ++ r)).map (c :: ·) = some (c :: w) →
          (Parser.regexBody? place escaped (w ++ r')).map (c :: ·) = some (c :: w) := by
      intro place escaped h
      obtain ⟨body, hbody, heq⟩ := Option.map_eq_some_iff.mp h
      obtain rfl := (List.cons.inj heq).2
      rw [ih hbody, Option.map_some]
    rw [List.cons_append] at h ⊢
    cases place with
    | outside =>
      simp only [Parser.regexBody?] at h ⊢
      split_ifs at h ⊢
      · exact hmap h
      · exact hmap h
      · cases h
      · exact hmap h
      · exact hmap h
    | inClass =>
      simp only [Parser.regexBody?] at h ⊢
      split_ifs at h ⊢
      all_goals exact hmap h

end

end Lexeme

/-! ### Tokens -/

namespace Token

variable {w r r' : Text} {token : Token}

open Lexeme

/-- A punctuator does not begin like a name. -/
theorem name?_eq_none_of_symbol? {c : CodePoint} {t t' u : Text} (h : symbol? (c :: t) = some u)
    (hname : name? (c :: t) = none) : name? (c :: t') = none := by
  have hbackslash : c ≠ ofChar '\\' := by
    have hheads : ∀ s ∈ symbols, s.head? ≠ some (ofChar '\\') := by decide
    rintro rfl
    obtain ⟨d, u, rfl⟩ := List.exists_cons_of_ne_nil (ne_nil_of_symbol? h)
    obtain ⟨rfl, -⟩ := List.cons_prefix_cons.mp (begins_symbol? h)
    exact hheads _ (mem_symbols_of_symbol? h) rfl
  have hpiece : ∀ t, namePiece? CodePoint.isNameStart (c :: t) =
      if c.isNameStart then some [c] else none := by
    intro t
    simp only [namePiece?, unicodeEscape?_of_head hbackslash]
  simp only [name?, hpiece, Option.map_eq_none_iff] at hname ⊢
  exact hname

/-- A name, with a number sign before it or without. -/
def isName : Token → Bool
  | .name _ | .privateName _ => true
  | _ => false

/-- A token is told by its spelling and three code points behind it, and a name by whether it
can go on there. -/
theorem ofText_append (h : Token.ofText (w ++ r) = token) (hspelling : token.spelling? = some w)
    (hr : r.take 3 = r'.take 3)
    (hname : token.isName = true → namePiece? CodePoint.isNamePart r = none →
      namePiece? CodePoint.isNamePart r' = none) :
    Token.ofText (w ++ r') = token := by
  have hne : w ≠ [] := ne_nil_of_spelling? (by rw [h, hspelling])
  obtain ⟨c, w, rfl⟩ := List.exists_cons_of_ne_nil hne
  have hhead : (w ++ r).head? = (w ++ r').head? := head?_of_take (take_append hr w)
  have hnamed : ∀ {u : Text}, token.isName = true → name? (u ++ r) = some u →
      name? (u ++ r') = some u := fun htoken hu =>
    (name?_append hu).2 r' (hname htoken (name?_append hu).1)
  simp only [List.cons_append, Token.ofText, hhead] at h ⊢
  split_ifs at h ⊢ with hquote hbacktick hsharp hdigit
  · exact h
  · exact h
  · split at h
    · rename_i lexeme hlexeme
      subst h
      obtain rfl := (List.cons.inj (Option.some.inj hspelling)).2
      rw [hnamed rfl hlexeme]
    · subst h
      cases hspelling
  · split at h
    · rename_i lexeme hlexeme
      subst h
      obtain rfl : lexeme = c :: w := Option.some.inj hspelling
      rw [← List.cons_append, number?_append hlexeme hr]
    · subst h
      cases hspelling
  · split at h
    · rename_i lexeme hlexeme
      subst h
      obtain rfl : lexeme = c :: w := Option.some.inj hspelling
      rw [← List.cons_append, hnamed rfl hlexeme]
    · rename_i hnone
      split at h
      · rename_i lexeme hlexeme
        subst h
        obtain rfl : lexeme = c :: w := Option.some.inj hspelling
        rw [name?_eq_none_of_symbol? hlexeme hnone, ← List.cons_append, symbol?_append hlexeme hr]
      · subst h
        cases hspelling

/-- A quote and a backtick are told by themselves. -/
theorem ofText_cons_quote {c q : CodePoint} {t : Text} (h : Token.ofText (c :: t) = .quote q)
    (t' : Text) : Token.ofText (c :: t') = .quote q := by
  simp only [Token.ofText] at h ⊢
  split_ifs at h ⊢ with hquote
  · exact h
  all_goals
    split at h
    · cases h
    · first | cases h | (split at h <;> cases h)

end Token

namespace Place

open Lexeme

variable {w r r' : Text} {place place' : Place}

theorem codeLexeme?_append (h : codeLexeme? (w ++ r) place = some w) (hr : r.take 3 = r'.take 3)
    (hname : place = .code → namePiece? CodePoint.isNamePart r = none →
      namePiece? CodePoint.isNamePart r' = none) :
    codeLexeme? (w ++ r') place = some w := by
  cases place with
  | code =>
    replace h : (Token.ofText (w ++ r)).spelling? = some w := h
    show (Token.ofText (w ++ r')).spelling? = some w
    rw [Token.ofText_append rfl h hr fun _ => hname rfl, h]
  | string quote =>
    obtain ⟨hquote, h⟩ := Option.ite_none_right_eq_some.mp h
    obtain rfl := Option.some.inj h
    exact if_pos (Token.ofText_cons_quote hquote r')
  | template =>
    rw [codeLexeme?] at h ⊢
    split_ifs at h with hbacktick hbrace
    · obtain rfl := Option.some.inj h
      rfl
    · obtain rfl := Option.some.inj h
      rw [Token.ofText_append hbrace rfl hr fun htoken => by cases htoken]
      rfl
  | pattern =>
    obtain ⟨hslash, h⟩ := Option.ite_none_right_eq_some.mp h
    obtain rfl := Option.some.inj h
    rfl
  | slash | flags => cases h

theorem stringLexeme?_append {quote : CodePoint} (h : stringLexeme? quote (w ++ r) place = some w)
    (hr : r.head? = r'.head?) : stringLexeme? quote (w ++ r') place = some w := by
  cases place with
  | code =>
    obtain ⟨hquote, h⟩ := Option.ite_none_right_eq_some.mp h
    obtain rfl := Option.some.inj h
    exact if_pos rfl
  | string quote' =>
    obtain ⟨hquote, h⟩ := Option.ite_none_right_eq_some.mp h
    have hne : w ≠ [] := by
      rcases Option.or_eq_some_iff.mp h with h | ⟨-, h⟩
      · exact ne_nil_of_escape? h
      · exact (stretch?_eq_some_iff.mp h).2
    obtain ⟨c, w, rfl⟩ := List.exists_cons_of_ne_nil hne
    refine (if_pos hquote).trans (Option.or_eq_some_iff.mpr ?_)
    rcases Option.or_eq_some_iff.mp h with h | ⟨-, h⟩
    · exact .inl (escape?_append h hr)
    · obtain ⟨hfragment, -⟩ := stretch?_eq_some_iff.mp h
      have hplain : c ≠ ofChar '\\' := by
        have hc : c ∈ Parser.stringFragment quote (c :: w ++ r) := by
          rw [hfragment]
          exact List.mem_cons_self
        have := List.mem_takeWhile_imp hc
        simp only [Bool.and_eq_true, decide_eq_true_eq] at this
        exact this.1.1.2
      refine .inr ⟨escape?_of_head hplain _, ?_⟩
      exact stretch?_eq_some_iff.mpr ⟨stringFragment_append hfragment hr, hne⟩
  | template | pattern | slash | flags => cases h

theorem templateLexeme?_append (h : templateLexeme? (w ++ r) place = some w)
    (hr : r.take 2 = r'.take 2) : templateLexeme? (w ++ r') place = some w := by
  cases place with
  | code =>
    rw [templateLexeme?] at h
    split_ifs at h
    · obtain rfl := Option.some.inj h
      rfl
    · obtain rfl := Option.some.inj h
      rw [templateLexeme?, if_neg (by exact fun h => by cases h), if_pos (List.prefix_append _ _)]
  | template =>
    obtain ⟨hplain, h⟩ := Option.ite_none_left_eq_some.mp h
    have htake := take_append hr w
    rw [head?_of_take htake, List.prefix_iff_eq_take, show "$\x7b".toText.length = 2 from rfl,
      htake, ← show "$\x7b".toText.length = 2 from rfl, ← List.prefix_iff_eq_take] at hplain
    rw [templateLexeme?, if_neg hplain, Option.or_eq_some_iff]
    rcases Option.or_eq_some_iff.mp h with h | ⟨-, h⟩
    · exact .inl (escape?_append h (head?_of_take hr))
    · obtain ⟨hfragment, hne⟩ := stretch?_eq_some_iff.mp h
      obtain ⟨c, w, rfl⟩ := List.exists_cons_of_ne_nil hne
      have hc : c ≠ ofChar '\\' := by
        rintro rfl
        cases hfragment
      refine .inr ⟨escape?_of_head hc _, ?_⟩
      exact stretch?_eq_some_iff.mpr ⟨templateFragment_append hfragment hr, hne⟩
  | string _ | pattern | slash | flags => cases h

theorem slashLexeme?_append (h : slashLexeme? (w ++ r) place = some w) (hr : r.head? = r'.head?) :
    slashLexeme? (w ++ r') place = some w := by
  have hflags : ∀ {t t' : Text}, t.head? = t'.head? →
      (t.takeWhile CodePoint.isLower = [] ↔ t'.takeWhile CodePoint.isLower = []) := fun ht =>
    ⟨fun h => takeWhile_append (w := []) h ht, fun h => takeWhile_append (w := []) h ht.symm⟩
  cases place with
  | code =>
    obtain ⟨⟨-, hnone⟩, h⟩ := Option.ite_none_right_eq_some.mp h
    obtain rfl := Option.some.inj h
    exact if_pos ⟨rfl, (hflags hr).mp hnone⟩
  | flags =>
    obtain ⟨⟨-, hsome⟩, h⟩ := Option.ite_none_right_eq_some.mp h
    obtain rfl := Option.some.inj h
    exact if_pos ⟨rfl, fun hnone => hsome ((hflags hr).mpr hnone)⟩
  | string _ | template | pattern | slash => cases h

/-- A piece is told by its text and three code points behind it, and by whether a name can
go on there if it leads to a place between tokens. -/
theorem lexeme?_append (h : lexeme? place place' (w ++ r) = some w) (hr : r.take 3 = r'.take 3)
    (hname : place' = .code → namePiece? CodePoint.isNamePart r = none →
      namePiece? CodePoint.isNamePart r' = none) :
    lexeme? place place' (w ++ r') = some w := by
  have hhead := head?_of_take hr
  cases place with
  | code => exact codeLexeme?_append h hr hname
  | string quote => exact stringLexeme?_append h hhead
  | template => exact templateLexeme?_append h (take_of_take hr (by omega))
  | pattern =>
    obtain ⟨hslash, h⟩ := Option.ite_none_right_eq_some.mp h
    obtain ⟨body, hbody, h⟩ := Option.bind_eq_some_iff.mp h
    obtain ⟨rfl, hne⟩ := stretch?_eq_some_iff.mp h
    rw [lexeme?, if_pos hslash, regexBody?_append hbody hhead]
    exact h
  | slash => exact slashLexeme?_append h hhead
  | flags =>
    obtain ⟨hcode, h⟩ := Option.ite_none_right_eq_some.mp h
    obtain ⟨hflags, hne⟩ := stretch?_eq_some_iff.mp h
    rw [lexeme?, if_pos hcode]
    exact stretch?_eq_some_iff.mpr ⟨takeWhile_append hflags hhead, hne⟩

end Place

end Unproxy.Syntax
