import Mathlib
import Unproxy.Proofs.Number.Numeral
import Unproxy.Proofs.Number.Reading
import Unproxy.Proofs.Number.Shortest

/-!
# Unproxy.Proofs.Number.Spelling

A number that is written into a program is read there as the double nearest to it.

Main definitions:

* `Number.double`: the double nearest to a number.

Main statements:

* `Decimal.writes_write`: what is written for a decimal has its value;
* `Number.ofSpelling_write`, `Number.ofSpelling_ofNat`: doubles and integers are read back;
* `Number.ofSpelling_spelling`: the spelling of a number stands for the nearest double;
* `Number.ofSpelling_source`: so does its source, where a minus sign stands for a change of sign.
-/

namespace Unproxy

open Syntax.Lexeme (Numeral all_isDigit_replicate)
open Binary64 (signed)

/-! ### Decimals as they are written -/

theorem Number.isFractional_of_mem {t : Text} {c : CodePoint} (h : c ∈ t)
    (hc : c = '.' ∨ c = 'e') : isFractional t = true := by
  refine List.any_eq_true.mpr ⟨c, h, ?_⟩
  rcases hc with rfl | rfl <;> rfl

theorem Binary64.signed_natAbs (i : Int) : signed (decide (i < 0)) i.natAbs = i := by
  unfold signed
  by_cases h : i < 0
  · rw [if_pos (decide_eq_true h)]
    omega
  · rw [if_neg (by simpa using h)]
    omega

theorem Binary64.natAbs_signed (negative : Bool) (n : Nat) : (signed negative n).natAbs = n := by
  cases negative with
  | false => rfl
  | true => exact Int.natAbs_neg n

namespace Decimal

/-- A text with a point or an exponent that stands for a rational number. -/
def Writes (t : Text) (x : ℚ) : Prop :=
  ∃ d, Spelled t d ∧ Number.isFractional t = true ∧ d.value = x

section

variable {digits : Text} (hne : digits ≠ []) (hdigits : digits.all CodePoint.isDigit = true)

include hne hdigits

theorem writes_writeExponent (style : ExponentStyle) (exponent : Int) :
    Writes (writeExponent style digits exponent)
      (Text.valueIn 10 digits * 10 ^ (exponent + 1 - digits.length)) := by
  have hscale : Scale (CodePoint.ofChar 'e' :: (if exponent < 0 then '-' else '+') ::
      (List.replicate (style.width - (Text.ofNat exponent.natAbs).length) (CodePoint.ofChar '0') ++
        Text.ofNat exponent.natAbs)) exponent := by
    have hall : (List.replicate (style.width - (Text.ofNat exponent.natAbs).length)
        (CodePoint.ofChar '0') ++ Text.ofNat exponent.natAbs).all CodePoint.isDigit = true := by
      rw [List.all_append, all_isDigit_replicate, Text.all_isDigit_ofNat]
      rfl
    have h := @Scale.exponent (CodePoint.ofChar 'e') (.inl rfl) (some (decide (exponent < 0))) _
      (List.append_ne_nil_of_right_ne_nil _ (Text.ofNat_ne_nil exponent.natAbs)) hall
    rw [Text.valueIn_replicate_zero_append, Text.valueIn_ofNat, Option.getD_some,
      Binary64.signed_natAbs] at h
    simpa [signText] using h
  unfold writeExponent
  split
  · rename_i first second rest
    simp only [List.all_cons, Bool.and_eq_true] at hdigits
    have hfirst : [first].all CodePoint.isDigit = true := by simp [hdigits.1]
    have hrest : (second :: rest).all CodePoint.isDigit = true := by simp [hdigits.2]
    refine ⟨_, by simpa using Spelled.pointed (List.cons_ne_nil first []) hfirst hrest hscale,
      ?_, ?_⟩
    · exact Number.isFractional_of_mem (c := '.') (by simp) (.inl rfl)
    · show (Text.valueIn 10 ([first] ++ second :: rest) : ℚ) * 10 ^ (exponent - _) = _
      simp only [List.singleton_append, List.length_cons]
      congr 2
      push_cast
      ring
  · rename_i hlength
    have hone : digits.length = 1 := by
      match digits, hne, hlength with
      | [_], _, _ => rfl
      | first :: second :: rest, _, hlength => exact absurd rfl (hlength first second rest)
    refine ⟨_, by simpa using Spelled.whole hne hdigits hscale, ?_, ?_⟩
    · exact Number.isFractional_of_mem (c := 'e') (by simp) (.inr rfl)
    · simp [value, hone]

theorem writes_writePositional (point : Int) :
    Writes (writePositional digits point)
      (Text.valueIn 10 digits * 10 ^ (point - digits.length)) := by
  unfold writePositional
  split_ifs with hlow hhigh
  · -- All digits stand behind the point.
    have hfraction : (List.replicate (-point).toNat (CodePoint.ofChar '0') ++ digits).all
        CodePoint.isDigit = true := by
      rw [List.all_append, all_isDigit_replicate, hdigits]
      rfl
    have hspelled := @Spelled.pointed "0".toText _ [] 0 (by decide) (by decide) hfraction .none
    have hvalue : Text.valueIn 10 ("0".toText ++
        (List.replicate (-point).toNat (CodePoint.ofChar '0') ++ digits)) =
          Text.valueIn 10 digits := by
      rw [Text.valueIn_append, Text.valueIn_replicate_zero_append,
        show Text.valueIn 10 "0".toText = 0 from rfl, Nat.zero_mul, Nat.zero_add]
    rw [List.append_nil] at hspelled
    refine ⟨_, hspelled, Number.isFractional_of_mem (c := '.') ?_ (.inl rfl), ?_⟩
    · exact List.mem_cons_of_mem _ List.mem_cons_self
    · rw [value, hvalue, List.length_append, List.length_replicate]
      congr 2
      push_cast
      omega
  · -- They all stand before it.
    have hzeros : (digits ++
        List.replicate (point.toNat - digits.length) (CodePoint.ofChar '0')).all
          CodePoint.isDigit = true := by
      rw [List.all_append, all_isDigit_replicate, hdigits]
      rfl
    have hspelled := @Spelled.pointed _ "0".toText [] 0
      (List.append_ne_nil_of_left_ne_nil hne _) hzeros (by decide) .none
    have hvalue : Text.valueIn 10 (digits ++
        List.replicate (point.toNat - digits.length) (CodePoint.ofChar '0') ++ "0".toText) =
          Text.valueIn 10 digits * 10 ^ (point.toNat - digits.length) * 10 := by
      have hzero := Text.valueIn_replicate_zero_append 10 (point.toNat - digits.length) []
      rw [List.append_nil] at hzero
      rw [Text.valueIn_append, Text.valueIn_append, hzero, List.length_replicate]
      rfl
    refine ⟨_, hspelled, Number.isFractional_of_mem (c := '.') ?_ (.inl rfl), ?_⟩
    · exact List.mem_append_right _ List.mem_cons_self
    · have hexponent : (10 : ℚ) ^ (point - digits.length) = 10 ^ (point.toNat - digits.length) := by
        rw [← zpow_natCast]
        congr 1
        omega
      rw [value, hvalue, hexponent]
      push_cast
      rw [show (0 : Int) - ("0".toText.length : Int) = -1 from rfl, zpow_neg_one]
      ring
  · -- The point divides them.
    have hsplit := hdigits
    rw [← List.take_append_drop point.toNat digits, List.all_append, Bool.and_eq_true] at hsplit
    have hwhole : digits.take point.toNat ≠ [] := by
      rw [Ne, List.take_eq_nil_iff, not_or]
      exact ⟨by omega, hne⟩
    have hspelled := Spelled.pointed hwhole hsplit.1 hsplit.2 .none
    rw [List.append_nil] at hspelled
    refine ⟨_, hspelled, Number.isFractional_of_mem (c := '.') (by simp) (.inl rfl), ?_⟩
    rw [value, List.take_append_drop, List.length_drop]
    congr 2
    push_cast
    omega

end

/-- What is written for a decimal has its value. -/
theorem writes_write (style : ExponentStyle) (d : Decimal) : Writes (d.write style) d.value := by
  have hexponent := writes_writeExponent (Text.ofNat_ne_nil d.significand)
    (Text.all_isDigit_ofNat d.significand) style
    (((Text.ofNat d.significand).length : Int) + d.exponent - 1)
  have hpositional := writes_writePositional (Text.ofNat_ne_nil d.significand)
    (Text.all_isDigit_ofNat d.significand) (((Text.ofNat d.significand).length : Int) + d.exponent)
  rw [Text.valueIn_ofNat] at hexponent hpositional
  unfold write
  dsimp only
  split
  · rwa [add_sub_cancel_left] at hpositional
  · rwa [sub_add_cancel, add_sub_cancel_left] at hexponent

end Decimal

/-! ### Spellings that are read -/

namespace Decimal

theorem Scale.mem {scale : Text} {exponent : Int} (h : Scale scale exponent) {c : CodePoint}
    (hc : c ∈ scale) : c.isDigit = true ∨ c ∈ "eE+-".toText := by
  cases h with
  | none => cases hc
  | exponent isMark sign nonempty isDigits =>
    rcases List.mem_cons.mp hc with rfl | hc
    · rcases isMark with rfl | rfl <;> exact .inr (by decide)
    · rcases List.mem_append.mp hc with hc | hc
      · have hsign : ∀ sign, (signText sign).all fun c => "eE+-".toText.contains c := by decide
        exact .inr (List.contains_iff_mem.mp (List.all_eq_true.mp (hsign sign) c hc))
      · exact .inl (List.all_eq_true.mp isDigits c hc)

/-- A decimal is made of digits, points, signs and marks. -/
theorem Spelled.mem {t : Text} {d : Decimal} (h : Spelled t d) {c : CodePoint} (hc : c ∈ t) :
    c.isDigit = true ∨ c ∈ ".eE+-".toText := by
  have hscale : ∀ {scale : Text} {exponent : Int}, Scale scale exponent → c ∈ scale →
      c.isDigit = true ∨ c ∈ ".eE+-".toText := by
    intro scale exponent hscale hc
    exact (hscale.mem hc).imp_right (List.mem_cons_of_mem _)
  cases h with
  | whole nonempty isDigits isScale =>
    rcases List.mem_append.mp hc with hc | hc
    · exact .inl (List.all_eq_true.mp isDigits c hc)
    · exact hscale isScale hc
  | pointed nonempty isDigits isFraction isScale =>
    rcases List.mem_append.mp hc with hc | hc
    · exact .inl (List.all_eq_true.mp isDigits c hc)
    · rcases List.mem_cons.mp hc with rfl | hc
      · exact .inr List.mem_cons_self
      · rcases List.mem_append.mp hc with hc | hc
        · exact .inl (List.all_eq_true.mp isFraction c hc)
        · exact hscale isScale hc

end Decimal

/-! ### Integers as doubles -/

namespace Binary64

theorem isSome_integer?_finite {negative : Bool} {significand : Nat} {exponent : Int}
    (h : 0 ≤ exponent ∨ twoTo (-exponent).toNat ∣ significand) :
    (finite negative significand exponent).integer?.isSome = true := by
  have hmod : (ratio significand exponent).1 % (ratio significand exponent).2 = 0 := by
    unfold ratio scale
    split
    · exact Nat.mod_one _
    · rename_i hsign
      rw [Nat.one_mul]
      exact Nat.mod_eq_zero_of_dvd (h.resolve_left hsign)
  simp only [integer?, if_pos hmod, Option.isSome_some]

/-- Up to the exponent zero an integer is not rounded. -/
theorem significandFor_of_nonpos {n : Nat} (h : exponentFor n 1 ≤ 0) :
    significandFor n 1 = n * twoTo (-exponentFor n 1).toNat := by
  have hscale : scale n 1 (-exponentFor n 1) = (n * twoTo (-exponentFor n 1).toNat, 1) :=
    if_pos (by omega)
  rw [significandFor, hscale, roundDiv]
  simp [Nat.mod_one]

/-- The double nearest to an integer is an integer. -/
theorem isSome_integer?_ofRatio {negative : Bool} {n : Nat}
    (h : (ofRatio negative n 1).isFinite = true) :
    (ofRatio negative n 1).integer?.isSome = true := by
  by_cases hn : n = 0
  · subst hn
    exact isSome_integer?_finite (.inr (Nat.dvd_zero _))
  · rw [ofRatio_eq negative hn] at h ⊢
    have hexact : exponentFor n 1 ≤ 0 →
        significandFor n 1 = n * twoTo (-exponentFor n 1).toNat := significandFor_of_nonpos
    split_ifs at h ⊢ with hcarry hmax hmax
    · cases h
    · -- The carry moves one power of two from the significand to the exponent.
      refine isSome_integer?_finite (or_iff_not_imp_left.mpr fun hsign => ?_)
      have hpower : (-exponentFor n 1).toNat = (-(exponentFor n 1 + 1)).toNat + 1 := by omega
      have hsignificand := hexact (by omega)
      rw [hcarry, hpower] at hsignificand
      refine Dvd.intro_left n (Nat.eq_of_mul_eq_mul_right Nat.two_pos ?_)
      rw [Nat.mul_assoc, ← Nat.pow_succ, twoTo, Nat.pow_eq]
      exact hsignificand.symm
    · cases h
    · refine isSome_integer?_finite (or_iff_not_imp_left.mpr fun hsign => ?_)
      rw [hexact (by omega)]
      exact Nat.dvd_mul_left _ _

end Binary64

/-! ### Numbers that are read -/

namespace Number

/-- A decimal without a zero in front is read as a double, or as an integer if it is one and is
written as one. -/
theorem ofSpelling_spelled {t : Text} {d : Decimal} (h : Decimal.Spelled t d)
    (hzero : hasLeadingZero t = false) :
    ofSpelling t =
      if (Binary64.ofDecimal false d.significand d.exponent).integer?.isSome && !isFractional t then
        (readInt 10 t).map fun i => some (.int i)
      else .ok (some (.float (Binary64.ofDecimal false d.significand d.exponent))) := by
  have hne : ∀ e : CodePoint, e.isDigit = false → e ∉ ".eE+-".toText → e ∉ t := by
    intro e hdigit hmark he
    rcases h.mem he with hmem | hmem
    · rw [hdigit] at hmem
      cases hmem
    · exact hmark hmem
  have hfilter : t.filter (· ≠ CodePoint.ofChar '_') = t := by
    rw [List.filter_eq_self]
    intro c hc
    refine decide_eq_true ?_
    rintro rfl
    exact hne _ (by decide) (by decide) hc
  have hbig : t.getLast? ≠ some (CodePoint.ofChar 'n') := fun hlast =>
    hne _ (by decide) (by decide) (List.mem_of_getLast? hlast)
  have hbase : literalBase? t = none := by
    -- The letters of the other bases do not occur in a decimal.
    have hplain : ∀ c ∈ t, ("xob".toText.contains c.toLower) = false := by
      intro c hc
      rcases h.mem hc with hdigit | hmark
      · simp only [CodePoint.isDigit, Bool.and_eq_true, decide_eq_true_eq] at hdigit
        have hlower : c.toLower = c := by
          rw [CodePoint.toLower, if_neg]
          simp only [CodePoint.isUpper, Bool.and_eq_true, decide_eq_true_eq]
          omega
        have hletters : ("xob".toText.all fun e => 0x39 < e.val) = true := by decide
        rw [hlower, List.contains_eq_mem, decide_eq_false_iff_not]
        intro hmem
        have hletter := List.all_eq_true.mp hletters c hmem
        rw [decide_eq_true_eq] at hletter
        omega
      · have hmarks : (".eE+-".toText.all fun c => !"xob".toText.contains c.toLower) = true := by
          decide
        exact Bool.not_eq_true' _ ▸ List.all_eq_true.mp hmarks c hmark
    unfold literalBase?
    split
    · rename_i z mark rest
      have hother := hplain mark (by simp)
      simp only [List.contains_eq_mem, decide_eq_false_iff_not] at hother
      have hx : mark.toLower ≠ CodePoint.ofChar 'x' := fun heq => hother (heq ▸ by decide)
      have ho : mark.toLower ≠ CodePoint.ofChar 'o' := fun heq => hother (heq ▸ by decide)
      have hb : mark.toLower ≠ CodePoint.ofChar 'b' := fun heq => hother (heq ▸ by decide)
      rw [if_neg hx, if_neg ho, if_neg hb, ite_self]
    · rfl
  have hread := readFloat_spelled false h
  rw [Binary64.withSign, if_neg Bool.false_ne_true] at hread
  simp only [ofSpelling, hfilter, if_neg hbig, hbase, hzero, hread]
  rfl

/-- The double nearest to a number. -/
def double : Number → Binary64
  | .int i => Binary64.ofRatio (i < 0) i.natAbs 1
  | .float f => f

theorem hasLeadingZero_of_isFractional {t : Text} (h : isFractional t = true) :
    hasLeadingZero t = false := by
  obtain ⟨c, hc, hmark⟩ := List.any_eq_true.mp h
  have hdigit : c.isAnyDigit = false := by
    simp only [Bool.or_eq_true, decide_eq_true_eq] at hmark
    rcases hmark with (rfl | rfl) | rfl <;> decide
  have hall : t.all CodePoint.isAnyDigit = false := List.all_eq_false.mpr ⟨c, hc, by simp [hdigit]⟩
  unfold hasLeadingZero
  split
  · rw [hall, Bool.and_false]
  · rfl

/-- The shortest decimal of a double is read as the double. -/
theorem ofSpelling_write {significand : Nat} {exponent : Int}
    (canonical : Binary64.Canonical significand exponent) (hpos : 0 < significand)
    (style : ExponentStyle) :
    ofSpelling ((Binary64.finite false significand exponent).write style) =
      .ok (some (.float (.finite false significand exponent))) := by
  obtain ⟨d, hspelled, hfractional, hvalue⟩ :=
    Decimal.writes_write style (Binary64.shortest significand exponent)
  have hread : Binary64.ofDecimal false d.significand d.exponent =
      .finite false significand exponent := by
    refine Binary64.ofDecimal_of_roundsTo canonical hpos false ?_
    rw [hvalue]
    exact Binary64.roundsTo_shortest canonical hpos
  rw [Binary64.write, if_neg hpos.ne', Binary64.withSign, if_neg Bool.false_ne_true,
    ofSpelling_spelled hspelled (hasLeadingZero_of_isFractional hfractional), hread, hfractional,
    Bool.not_true, Bool.and_false, if_neg Bool.false_ne_true]

theorem exponentBound_le_overflowBound : exponentBound ≤ Binary64.overflowBound := by
  decide +kernel

/-- An integer below the bound has at most 21 digits. -/
theorem length_ofNat_le {n : Nat} (h : n < exponentBound) : (Text.ofNat n).length ≤ 21 := by
  rw [Text.ofNat, List.length_map, Nat.length_toDigits_le_iff (by decide) (by decide)]
  exact h

/-- An integer in the range of doubles has at most 309 digits. -/
theorem length_ofNat_le_of_lt {n : Nat} (h : n < Binary64.overflowBound) :
    (Text.ofNat n).length ≤ 309 := by
  obtain ⟨k, hpos, hk, hbound⟩ : ∃ k, 0 < k ∧ k ≤ 309 ∧ Binary64.overflowBound ≤ 10 ^ k :=
    ⟨309, by decide, le_rfl, by decide +kernel⟩
  refine le_trans ?_ hk
  rw [Text.ofNat, List.length_map, Nat.length_toDigits_le_iff (by decide) hpos]
  exact h.trans_le hbound

/-- An integer in the range of doubles is read as itself. -/
theorem ofSpelling_ofNat {n : Nat} (h : n < Binary64.overflowBound) :
    ofSpelling (Text.ofNat n) = .ok (some (.int n)) := by
  have hdigits := Text.all_isDigit_ofNat n
  have hspelled := Decimal.Spelled.whole (Text.ofNat_ne_nil n) hdigits .none
  rw [List.append_nil, Text.valueIn_ofNat] at hspelled
  have hlength := length_ofNat_le_of_lt h
  have hzero : hasLeadingZero (Text.ofNat n) = false := by
    unfold hasLeadingZero
    split
    · rename_i z d rest heq
      have hz : z ≠ CodePoint.ofChar '0' := by
        rintro rfl
        have hn := Text.eq_zero_of_head?_ofNat (n := n) (by rw [heq]; rfl)
        rw [hn] at heq
        cases heq
      simp [hz]
    · rfl
  have hfloat : Binary64.ofDecimal false n 0 = Binary64.ofRatio false n 1 := by
    by_cases hn : n = 0
    · rw [hn]
      rfl
    · have hmagnitude : Binary64.decimalLength n ≤ 309 := by
        rw [Binary64.decimalLength, if_neg hn]
        rwa [Text.ofNat, List.length_map] at hlength
      unfold Binary64.ofDecimal
      dsimp only
      rw [if_neg (by simp [hn]), if_neg (by omega), if_pos le_rfl]
      exact congrArg₂ _ (Nat.mul_one n) rfl
  have hint : readInt 10 (Text.ofNat n) = .ok n := by
    have hbase : (Text.ofNat n).all (CodePoint.isDigitOf 10) = true := by
      rw [Text.all_isDigitOf_ten, hdigits]
    have hread := readInt_digits false (Text.ofNat_ne_nil n) hbase
      fun _ => hlength.trans (by decide)
    rwa [Text.valueIn_ofNat] at hread
  have hinteger : (Binary64.ofRatio false n 1).integer?.isSome = true := by
    refine Binary64.isSome_integer?_ofRatio ?_
    obtain ⟨significand, exponent, hratio⟩ :=
      Binary64.ofRatio_of_lt false h
    rw [hratio]
    rfl
  have hwhole : isFractional (Text.ofNat n) = false := by
    rw [isFractional, List.any_eq_false]
    intro c hc hmark
    have hdigit := List.all_eq_true.mp hdigits c hc
    simp only [Bool.or_eq_true, decide_eq_true_eq] at hmark
    rcases hmark with (rfl | rfl) | rfl <;> cases hdigit
  rw [ofSpelling_spelled hspelled hzero, hfloat, hinteger, hwhole, hint]
  rfl

/-- A double that is an integer is the double nearest to that integer. -/
theorem ofRatio_of_integer {significand : Nat} {exponent : Int}
    (canonical : Binary64.Canonical significand exponent)
    (h : (Binary64.ratio significand exponent).1 % (Binary64.ratio significand exponent).2 = 0) :
    Binary64.ofRatio false
        ((Binary64.ratio significand exponent).1 / (Binary64.ratio significand exponent).2) 1 =
      .finite false significand exponent := by
  have hden : 0 < (Binary64.ratio significand exponent).2 := Binary64.scale_pos Nat.one_pos _
  have hvalue : (((Binary64.ratio significand exponent).1 /
      (Binary64.ratio significand exponent).2 : Nat) : ℚ) = significand * 2 ^ exponent := by
    have hdiv := @Binary64.scale_div significand 1 exponent
    rw [Nat.cast_one, div_one] at hdiv
    rw [← hdiv, Nat.cast_div_charZero (Nat.dvd_of_mod_eq_zero h)]
    rfl
  generalize (Binary64.ratio significand exponent).1 /
      (Binary64.ratio significand exponent).2 = quotient at hvalue ⊢
  by_cases hzero : significand = 0
  · have hexponent : exponent = Binary64.minExponent :=
      canonical.normal.resolve_left (by omega)
    have hquotient : quotient = 0 := by
      rw [hzero, Nat.cast_zero, zero_mul] at hvalue
      exact_mod_cast hvalue
    rw [hzero, hexponent, hquotient]
    rfl
  · have hpos : 0 < significand := Nat.pos_of_ne_zero hzero
    have hpositive : (0 : ℚ) < quotient := by
      rw [hvalue]
      positivity
    refine Binary64.ofRatio_of_roundsTo false (by exact_mod_cast hpositive) Nat.one_pos canonical ?_
    rw [hvalue, Nat.cast_one, div_one]
    exact Binary64.roundsTo_self significand exponent

/-- The spelling of a double without a sign is read as the double, and spelled that way again. -/
theorem ofSpelling_floatSpelling {significand : Nat} {exponent : Int}
    (canonical : Binary64.Canonical significand exponent) :
    ∃ m, ofSpelling (floatSpelling (.finite false significand exponent)) = .ok (some m) ∧
      m.double = .finite false significand exponent ∧
      m.spelling = .ok (floatSpelling (.finite false significand exponent)) := by
  have hwritten : 0 < significand →
      ofSpelling ((Binary64.finite false significand exponent).write ⟨1⟩) =
        .ok (some (.float (.finite false significand exponent))) := fun hpos =>
    ofSpelling_write canonical hpos ⟨1⟩
  -- Zero is an integer, so what is written out is positive.
  have hnumerator : (Binary64.ratio 0 exponent).1 = 0 := by
    unfold Binary64.ratio Binary64.scale
    split
    · exact Nat.zero_mul _
    · rfl
  by_cases hinteger : (Binary64.ratio significand exponent).1 %
      (Binary64.ratio significand exponent).2 = 0
  · have hratio := ofRatio_of_integer canonical hinteger
    have hvalue : (Binary64.finite false significand exponent).integer? =
        some (((Binary64.ratio significand exponent).1 /
          (Binary64.ratio significand exponent).2 : Nat) : Int) := by
      simp only [Binary64.integer?, if_pos hinteger, signed, Bool.false_eq_true, if_false]
    generalize (Binary64.ratio significand exponent).1 /
      (Binary64.ratio significand exponent).2 = n at hratio hvalue
    by_cases hsmall : n < exponentBound
    · have hspelling : floatSpelling (.finite false significand exponent) = Text.ofNat n := by
        simp only [floatSpelling, hvalue, Int.natAbs_natCast, if_pos hsmall]
        rfl
      refine ⟨.int n, hspelling ▸
        ofSpelling_ofNat (hsmall.trans_le exponentBound_le_overflowBound), ?_, ?_⟩
      · rw [double, Int.natAbs_natCast, decide_eq_false (by omega), hratio]
      · rw [spelling, Int.natAbs_natCast, if_pos hsmall, hspelling]
        rfl
    · have hspelling : floatSpelling (.finite false significand exponent) =
          (Binary64.finite false significand exponent).write ⟨1⟩ := by
        simp only [floatSpelling, hvalue, Int.natAbs_natCast, if_neg hsmall]
      refine ⟨_, hspelling ▸ hwritten (Nat.pos_of_ne_zero fun hzero => hsmall ?_), rfl, rfl⟩
      have hquotient : n = 0 := by
        simp only [hzero, Binary64.integer?, hnumerator, Nat.zero_mod, if_true, Nat.zero_div, signed,
          Bool.false_eq_true, if_false, Option.some.injEq] at hvalue
        omega
      rw [hquotient]
      decide
  · have hspelling : floatSpelling (.finite false significand exponent) =
        (Binary64.finite false significand exponent).write ⟨1⟩ := by
      simp only [floatSpelling, Binary64.integer?, if_neg hinteger]
    refine ⟨_, hspelling ▸ hwritten (Nat.pos_of_ne_zero fun hzero => hinteger ?_), rfl, rfl⟩
    rw [hzero, hnumerator, Nat.zero_mod]

/-- The spelling of a number without a sign is read as a number with the same nearest double and the
same spelling. -/
theorem ofSpelling_spelling {n : Number} (unsigned : n.Unsigned) (canonical : n.double.IsCanonical)
    {t : Text} (h : n.spelling = .ok t) :
    ∃ m, ofSpelling t = .ok (some m) ∧ m.double = n.double ∧ m.spelling = .ok t := by
  cases unsigned with
  | int n =>
    have hsign : decide ((n : Int) < 0) = false := decide_eq_false (by omega)
    have hspelling := h
    simp only [double, Int.natAbs_natCast, hsign] at canonical ⊢
    simp only [spelling] at h
    split at h
    · rename_i hsmall
      obtain rfl := Except.ok.inj h
      refine ⟨.int n,
        ofSpelling_ofNat (hsmall.trans_le exponentBound_le_overflowBound), ?_, hspelling⟩
      simp only [Int.natAbs_natCast, hsign]
    · simp only [toFloat, Binary64.ofInt?, hsign, Int.natAbs_natCast] at h
      rcases Binary64.ofRatio_cases false n 1 with hratio | ⟨significand, exponent, hratio⟩
      · rw [hratio] at h
        cases h
      · rw [hratio] at h canonical ⊢
        obtain rfl := Except.ok.inj h
        exact ofSpelling_floatSpelling canonical
  | float significand exponent =>
    obtain rfl := Except.ok.inj h
    exact ofSpelling_floatSpelling canonical

end Number

/-! ### Signs -/

theorem Binary64.negate_ofRatio (negative : Bool) (num den : Nat) :
    (ofRatio negative num den).negate = ofRatio (!negative) num den := by
  unfold ofRatio
  dsimp only
  split_ifs <;> rfl

theorem Binary64.isCanonical_negate {f : Binary64} : f.negate.IsCanonical ↔ f.IsCanonical := by
  cases f <;> rfl

namespace Number

/-- A number below zero is its magnitude with the other sign. -/
theorem negate_double_magnitude {n : Number} (h : n.isBelowZero = true) :
    n.magnitude.double.negate = n.double := by
  cases n with
  | int i =>
    have hbelow : i < 0 := by simpa [isBelowZero] using h
    have habove : ¬(i.natAbs : Int) < 0 := by omega
    simp only [magnitude, double, Binary64.negate_ofRatio, Int.natAbs_natCast,
      decide_eq_false habove, decide_eq_true hbelow, Bool.not_false]
  | float f =>
    cases f with
    | nan => cases h
    | infinite negative | finite negative significand exponent =>
      obtain rfl : negative = true := h
      rfl

/-- The source of a number is a numeral that is read as the nearest double, or a minus sign and a
numeral that is read as the double with the other sign. A numeral without a sign is spelled as it
is written. -/
theorem ofSpelling_source {n : Number} (canonical : n.double.IsCanonical) {t : Text}
    (h : n.source = .ok (some t)) :
    (Numeral t ∧ n.isBelowZero = false ∧ n.spelling = .ok t ∧
        ∃ m, ofSpelling t = .ok (some m) ∧ m.double = n.double ∧ m.spelling = .ok t) ∨
      n.isBelowZero = true ∧ ∃ digits, t = CodePoint.ofChar '-' :: digits ∧ Numeral digits ∧
        ∃ m, ofSpelling digits = .ok (some m) ∧ m.double.negate = n.double := by
  rcases spelling_of_source h with ⟨hunsigned, hs⟩ | ⟨hsign, hunsigned, digits, hs, rfl⟩
  · exact .inl ⟨hunsigned.numeral hs, hunsigned.isBelowZero, hs,
      ofSpelling_spelling hunsigned canonical hs⟩
  · have hnegate := negate_double_magnitude hsign
    rw [← hnegate, Binary64.isCanonical_negate] at canonical
    obtain ⟨m, hm, hdouble, -⟩ := ofSpelling_spelling hunsigned canonical hs
    exact .inr ⟨hsign, digits, rfl, hunsigned.numeral hs, m, hm, by rw [hdouble, hnegate]⟩

end Number

end Unproxy
