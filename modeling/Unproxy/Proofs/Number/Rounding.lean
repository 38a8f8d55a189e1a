import Mathlib
import Unproxy.Number.Decimal

/-!
# Unproxy.Proofs.Number.Rounding

How quotients are rounded to doubles, said with rational numbers.

Rounding picks an exponent, scales the quotient by it and rounds to an integer. The scaled quotient
has at most 53 bits, so the result is the only significand next to it; only where rounding carries
to the 54th bit is it put one exponent higher.

Main definitions:

* `Binary64.Nearest`: the integer next to a rational number, the even one if there are two;
* `Binary64.Canonical`: the form in which finite numbers are kept;
* `Binary64.RoundsTo`: the rational numbers next to a finite number;
* `Binary64.overflowBound`: from here on numbers are rounded to infinity.

Main statements:

* `Binary64.canonical_of_ofRatio`: what quotients are rounded to is canonical;
* `Binary64.ofRatio_of_roundsTo`: what lies next to a number is rounded to it;
* `Binary64.ofRatio_eq_infinite_iff`, `Binary64.ofInt?_eq_none_iff`: what is beyond the finite
  numbers.
-/

namespace Unproxy.Binary64

/-! ### Powers and quotients -/

theorem cast_twoTo (n : Nat) : ((twoTo n : Nat) : ℚ) = 2 ^ n := by
  rw [twoTo, Nat.pow_eq, Nat.cast_pow, Nat.cast_ofNat]

theorem cast_tenTo (n : Nat) : ((tenTo n : Nat) : ℚ) = 10 ^ n := by
  rw [tenTo, Nat.pow_eq, Nat.cast_pow, Nat.cast_ofNat]

theorem twoTo_pos (n : Nat) : 0 < twoTo n := Nat.pow_pos (by decide)

theorem pow_toNat {b : ℚ} {p : Int} (h : 0 ≤ p) : b ^ p.toNat = b ^ p := by
  rw [← zpow_natCast, Int.toNat_of_nonneg h]

section

variable {num den : Nat}

theorem scale_pos (hden : 0 < den) (power : Int) : 0 < (scale num den power).2 := by
  unfold scale
  split
  · exact hden
  · exact Nat.mul_pos hden (twoTo_pos _)

/-- Scaling multiplies the quotient. -/
theorem scale_div (power : Int) :
    ((scale num den power).1 : ℚ) / (scale num den power).2 = num / den * 2 ^ power := by
  unfold scale
  split
  · rename_i hp
    rw [Nat.cast_mul, cast_twoTo, pow_toNat hp]
    ring
  · rename_i hp
    rw [Nat.cast_mul, cast_twoTo, pow_toNat (by omega), zpow_neg, ← div_div, div_inv_eq_mul]

theorem scale_lt_iff (hden : 0 < den) (k : Int) :
    (scale num den (-k)).1 < (scale num den (-k)).2 ↔ (num : ℚ) / den < 2 ^ k := by
  have hpos : (0 : ℚ) < (scale num den (-k)).2 := by exact_mod_cast scale_pos hden (-k)
  have hk : (0 : ℚ) < 2 ^ k := by positivity
  rw [← Nat.cast_lt (α := ℚ), ← div_lt_one hpos, scale_div, zpow_neg, ← div_eq_mul_inv,
    div_lt_one hk]

end

theorem log2_spec {n : Nat} (h : 0 < n) :
    (2 : ℚ) ^ (n.log2 : Int) ≤ n ∧ (n : ℚ) < 2 ^ ((n.log2 : Int) + 1) := by
  constructor
  · rw [zpow_natCast]
    exact_mod_cast Nat.log2_self_le h.ne'
  · rw [← Nat.cast_succ, zpow_natCast]
    exact_mod_cast Nat.lt_log2_self

/-- The binary logarithm of a quotient, rounded down. -/
theorem floorLog2_spec {num den : Nat} (hnum : 0 < num) (hden : 0 < den) :
    (2 : ℚ) ^ floorLog2 num den ≤ num / den ∧ (num : ℚ) / den < 2 ^ (floorLog2 num den + 1) := by
  have hden' : (0 : ℚ) < den := by exact_mod_cast hden
  obtain ⟨hn, hn'⟩ := log2_spec hnum
  obtain ⟨hd, hd'⟩ := log2_spec hden
  have hlt := @scale_lt_iff num den hden ((num.log2 : Int) - den.log2)
  unfold floorLog2
  generalize (num.log2 : Int) = a at *
  generalize (den.log2 : Int) = b at *
  dsimp only
  simp only [hlt]
  split
  · rename_i hbelow
    refine ⟨?_, by rwa [sub_add_cancel]⟩
    rw [le_div_iff₀ hden']
    calc (2 : ℚ) ^ (a - b - 1) * den ≤ 2 ^ (a - b - 1) * 2 ^ (b + 1) := by gcongr
      _ = 2 ^ a := by rw [← zpow_add₀ two_ne_zero]; congr 1; ring
      _ ≤ num := hn
  · rename_i hbelow
    refine ⟨not_lt.mp hbelow, ?_⟩
    rw [div_lt_iff₀ hden']
    calc (num : ℚ) < 2 ^ (a + 1) := hn'
      _ = 2 ^ (a - b + 1) * 2 ^ b := by rw [← zpow_add₀ two_ne_zero]; congr 1; ring
      _ ≤ 2 ^ (a - b + 1) * den := by gcongr

/-! ### Rounding to integers -/

/-- An integer next to a number; one of two that are equally near is even. -/
structure Nearest (x : ℚ) (m : Nat) : Prop where
  low : m - 1 / 2 ≤ x
  high : x ≤ m + 1 / 2
  tie : x = m - 1 / 2 ∨ x = m + 1 / 2 → m % 2 = 0

theorem Nearest.unique {x : ℚ} {m n : Nat} (hm : Nearest x m) (hn : Nearest x n) : m = n := by
  wlog hle : m ≤ n generalizing m n
  · exact (this hn hm (by omega)).symm
  have hn₁ : (n : ℚ) ≤ m + 1 := by linarith [hn.low, hm.high]
  have hn₁ : n ≤ m + 1 := by exact_mod_cast hn₁
  by_contra hne
  obtain rfl : n = m + 1 := by omega
  have hhalf : x = m + 1 / 2 := by
    have hlow := hn.low
    push_cast at hlow
    exact le_antisymm hm.high (by linarith)
  have heven := hm.tie (.inr hhalf)
  have heven' := hn.tie (.inl (by rw [hhalf]; push_cast; ring))
  omega

theorem nearest_roundDiv (num : Nat) {den : Nat} (hden : 0 < den) :
    Nearest (num / den) (roundDiv num den) := by
  have hden' : (0 : ℚ) < den := by exact_mod_cast hden
  have hsplit : (num : ℚ) = den * (num / den : Nat) + (num % den : Nat) := by
    exact_mod_cast (Nat.div_add_mod num den).symm
  have hvalue : (num : ℚ) / den = (num / den : Nat) + ((num % den : Nat) : ℚ) / den := by
    rw [hsplit, add_div, mul_div_cancel_left₀ _ hden'.ne']
  have hmod : ((num % den : Nat) : ℚ) / den < 1 := by
    rw [div_lt_one hden']
    exact_mod_cast Nat.mod_lt num hden
  have hnonneg : 0 ≤ ((num % den : Nat) : ℚ) / den := by positivity
  have hhalf_lt : den < 2 * (num % den) ↔ 1 / 2 < ((num % den : Nat) : ℚ) / den := by
    rw [div_lt_div_iff₀ two_pos hden', ← Nat.cast_lt (α := ℚ)]
    push_cast
    rw [one_mul, mul_comm]
  have hhalf_eq : 2 * (num % den) = den ↔ ((num % den : Nat) : ℚ) / den = 1 / 2 := by
    rw [div_eq_div_iff hden'.ne' two_ne_zero, ← Nat.cast_inj (R := ℚ)]
    push_cast
    rw [one_mul, mul_comm]
  rw [hvalue]
  unfold roundDiv
  generalize ((num % den : Nat) : ℚ) / den = rest at *
  generalize num / den = q at *
  simp only [Bool.or_eq_true, Bool.and_eq_true, decide_eq_true_eq, beq_iff_eq, hhalf_lt, hhalf_eq]
  split
  · rename_i hup
    refine ⟨?_, ?_, ?_⟩
    · push_cast
      rcases hup with hup | ⟨hup, -⟩ <;> linarith
    · push_cast
      linarith
    · push_cast
      rintro (htie | htie)
      · rcases hup with hup | ⟨-, hodd⟩
        · linarith
        · omega
      · linarith
  · rename_i hdown
    rw [not_or, not_lt, not_and] at hdown
    refine ⟨by linarith, by linarith [hdown.1], ?_⟩
    rintro (htie | htie)
    · linarith
    · have heven := hdown.2 (by linarith)
      omega

/-! ### Rounding to doubles -/

/-- A significand and an exponent in the form in which finite numbers are kept. -/
structure Canonical (significand : Nat) (exponent : Int) : Prop where
  significand_lt : significand < 2 ^ 53
  normal : 2 ^ 52 ≤ significand ∨ exponent = minExponent
  minExponent_le : minExponent ≤ exponent
  le_maxExponent : exponent ≤ maxExponent

/-- The exponent that a quotient is rounded at. -/
def exponentFor (num den : Nat) : Int := max minExponent (floorLog2 num den - 52)

/-- The significand that a quotient is rounded to. -/
def significandFor (num den : Nat) : Nat :=
  roundDiv (scale num den (-exponentFor num den)).1 (scale num den (-exponentFor num den)).2

theorem ofRatio_eq (negative : Bool) {num den : Nat} (hnum : num ≠ 0) :
    ofRatio negative num den =
      if significandFor num den = 2 ^ 53 then
        if maxExponent < exponentFor num den + 1 then .infinite negative
        else .finite negative (2 ^ 52) (exponentFor num den + 1)
      else if maxExponent < exponentFor num den then .infinite negative
      else .finite negative (significandFor num den) (exponentFor num den) := by
  have h53 : twoTo 53 = 2 ^ 53 := rfl
  have h52 : twoTo 52 = 2 ^ 52 := rfl
  unfold ofRatio
  rw [if_neg hnum]
  have hexponent : max minExponent (floorLog2 num den - 52) = exponentFor num den := rfl
  have hsignificand : roundDiv (scale num den (-exponentFor num den)).1
      (scale num den (-exponentFor num den)).2 = significandFor num den := rfl
  simp only [hexponent, hsignificand, h53, h52]
  split <;> rfl

theorem nearest_significandFor (num : Nat) {den : Nat} (hden : 0 < den) :
    Nearest (num / den * 2 ^ (-exponentFor num den)) (significandFor num den) := by
  rw [← scale_div]
  exact nearest_roundDiv _ (scale_pos hden _)

theorem minExponent_le_exponentFor (num den : Nat) : minExponent ≤ exponentFor num den :=
  le_max_left _ _

section

variable {num den : Nat} (hnum : 0 < num) (hden : 0 < den)

include hnum hden

/-- A quotient is rounded at an exponent at which it has no more than 53 bits. -/
theorem scaled_lt : (num : ℚ) / den * 2 ^ (-exponentFor num den) < 2 ^ 53 := by
  obtain ⟨-, hlt⟩ := floorLog2_spec hnum hden
  have hexponent : floorLog2 num den - 52 ≤ exponentFor num den := le_max_right _ _
  calc (num : ℚ) / den * 2 ^ (-exponentFor num den)
      < 2 ^ (floorLog2 num den + 1) * 2 ^ (-exponentFor num den) := by gcongr
    _ = 2 ^ (floorLog2 num den + 1 - exponentFor num den) := by
        rw [← zpow_add₀ two_ne_zero, sub_eq_add_neg]
    _ ≤ 2 ^ (53 : Int) := zpow_le_zpow_right₀ one_le_two (by omega)
    _ = 2 ^ 53 := by norm_num

/-- Above the least exponent it has all of them. -/
theorem le_scaled (h : minExponent < exponentFor num den) :
    2 ^ 52 ≤ (num : ℚ) / den * 2 ^ (-exponentFor num den) := by
  obtain ⟨hle, -⟩ := floorLog2_spec hnum hden
  have hexponent : floorLog2 num den + -exponentFor num den = (52 : Nat) := by
    unfold exponentFor at h ⊢
    omega
  calc (2 : ℚ) ^ 52 = 2 ^ floorLog2 num den * 2 ^ (-exponentFor num den) := by
        rw [← zpow_add₀ two_ne_zero, hexponent, zpow_natCast]
    _ ≤ num / den * 2 ^ (-exponentFor num den) := by gcongr

theorem significandFor_le : significandFor num den ≤ 2 ^ 53 := by
  have hlow := (nearest_significandFor num hden).low
  have hlt : (significandFor num den : ℚ) < (2 ^ 53 + 1 : Nat) := by
    push_cast
    linarith [scaled_lt hnum hden]
  have hlt := Nat.cast_lt.mp hlt
  omega

theorem le_significandFor (h : minExponent < exponentFor num den) :
    2 ^ 52 ≤ significandFor num den := by
  have hhigh := (nearest_significandFor num hden).high
  have hlt : ((2 ^ 52 : Nat) : ℚ) < (significandFor num den + 1 : Nat) := by
    push_cast
    linarith [le_scaled hnum hden h]
  have hlt := Nat.cast_lt.mp hlt
  omega

end

/-- Quotients are rounded to numbers in canonical form. -/
theorem canonical_of_ofRatio {negative negative' : Bool} {num den significand : Nat} {exponent : Int}
    (hden : 0 < den) (h : ofRatio negative num den = .finite negative' significand exponent) :
    Canonical significand exponent := by
  by_cases hnum : num = 0
  · rw [hnum] at h
    cases h
    exact ⟨by decide, .inr rfl, le_refl _, by decide⟩
  · have hpos : 0 < num := Nat.pos_of_ne_zero hnum
    have hmin := minExponent_le_exponentFor num den
    rw [ofRatio_eq negative hnum] at h
    split_ifs at h with hcarry hmax hmax
    · cases h
      exact ⟨by decide, .inl le_rfl, by omega, by omega⟩
    · cases h
      have hle := significandFor_le hpos hden
      refine ⟨by omega, ?_, hmin, by omega⟩
      rcases hmin.eq_or_lt with heq | hlt
      · exact .inr heq.symm
      · exact .inl (le_significandFor hpos hden hlt)

/-! ### What is rounded to a given number -/

/-- How far below a number the next one begins, in units of its last place: half a unit, and half of
that where the numbers below are twice as dense. -/
def gapBelow (significand : Nat) (exponent : Int) : ℚ :=
  if significand = 2 ^ 52 ∧ minExponent < exponent then 1 / 4 else 1 / 2

/-- A positive number lies next to the finite one with this significand and exponent. -/
structure RoundsTo (x : ℚ) (significand : Nat) (exponent : Int) : Prop where
  low : (significand - gapBelow significand exponent) * 2 ^ exponent ≤ x
  high : x ≤ (significand + 1 / 2) * 2 ^ exponent
  tie : x = (significand - gapBelow significand exponent) * 2 ^ exponent ∨
    x = (significand + 1 / 2) * 2 ^ exponent → significand % 2 = 0

theorem gapBelow_le (significand : Nat) (exponent : Int) : gapBelow significand exponent ≤ 1 / 2 := by
  unfold gapBelow
  split <;> norm_num

theorem exponentFor_eq {num den : Nat} (hnum : 0 < num) (hden : 0 < den) {exponent : Int}
    (hmin : minExponent ≤ exponent)
    (hlow : (2 : ℚ) ^ (exponent + 52) ≤ num / den ∨ exponent = minExponent)
    (hhigh : (num : ℚ) / den < 2 ^ (exponent + 53)) : exponentFor num den = exponent := by
  obtain ⟨hfloor, hceil⟩ := floorLog2_spec hnum hden
  have hlt := (zpow_lt_zpow_iff_right₀ one_lt_two).mp (hfloor.trans_lt hhigh)
  unfold exponentFor
  rcases hlow with hlow | rfl
  · have hle := (zpow_lt_zpow_iff_right₀ one_lt_two).mp (hlow.trans_lt hceil)
    omega
  · omega

theorem RoundsTo.nearest {x : ℚ} {significand : Nat} {exponent : Int}
    (h : RoundsTo x significand exponent) : Nearest (x * 2 ^ (-exponent)) significand := by
  have hpos : (0 : ℚ) < 2 ^ exponent := by positivity
  have hgap := gapBelow_le significand exponent
  rw [zpow_neg, ← div_eq_mul_inv]
  refine ⟨?_, ?_, ?_⟩
  · rw [le_div_iff₀ hpos]
    calc ((significand : ℚ) - 1 / 2) * 2 ^ exponent
        ≤ (significand - gapBelow significand exponent) * 2 ^ exponent := by gcongr
      _ ≤ x := h.low
  · rw [div_le_iff₀ hpos]
    exact h.high
  · rw [div_eq_iff hpos.ne', div_eq_iff hpos.ne']
    rintro (htie | htie)
    · refine h.tie (.inl (le_antisymm ?_ h.low))
      rw [htie]
      gcongr
    · exact h.tie (.inr htie)

/-- What lies next to a number is rounded to it. -/
theorem ofRatio_of_roundsTo (negative : Bool) {num den significand : Nat} {exponent : Int}
    (hnum : 0 < num) (hden : 0 < den) (canonical : Canonical significand exponent)
    (h : RoundsTo (num / den) significand exponent) :
    ofRatio negative num den = .finite negative significand exponent := by
  have hpos : (0 : ℚ) < 2 ^ exponent := by positivity
  have hlt : (num : ℚ) / den < 2 ^ (exponent + 53) := by
    have hsignificand : (significand : ℚ) + 1 ≤ 2 ^ 53 := by exact_mod_cast canonical.significand_lt
    calc (num : ℚ) / den ≤ (significand + 1 / 2) * 2 ^ exponent := h.high
      _ < 2 ^ 53 * 2 ^ exponent := by gcongr; linarith
      _ = 2 ^ (exponent + 53) := by
          rw [← zpow_natCast, ← zpow_add₀ two_ne_zero, add_comm]
          rfl
  have hne : significand ≠ 2 ^ 53 := canonical.significand_lt.ne
  rw [ofRatio_eq negative hnum.ne']
  by_cases hlow : (2 : ℚ) ^ (exponent + 52) ≤ num / den ∨ exponent = minExponent
  · have hexponent := exponentFor_eq hnum hden canonical.minExponent_le hlow hlt
    have hsignificand : significandFor num den = significand := by
      have hnearest := nearest_significandFor num hden
      rw [hexponent] at hnearest
      exact hnearest.unique h.nearest
    rw [hsignificand, hexponent, if_neg hne, if_neg (not_lt.mpr canonical.le_maxExponent)]
  · -- Below a power of two the quotient is rounded up to it, one exponent further down.
    rw [not_or, not_le] at hlow
    obtain ⟨hbelow, hmin⟩ := hlow
    have hmin := lt_of_le_of_ne canonical.minExponent_le (Ne.symm hmin)
    have hsplit : (2 : ℚ) ^ (exponent + 52) = 2 ^ 52 * 2 ^ exponent := by
      rw [zpow_add₀ two_ne_zero, mul_comm]
      rfl
    have hsignificand : significand = 2 ^ 52 := by
      refine le_antisymm ?_ (canonical.normal.resolve_right hmin.ne')
      have hle := h.low.trans_lt hbelow
      rw [hsplit, mul_lt_mul_iff_left₀ hpos] at hle
      have hlt : (significand : ℚ) < (2 ^ 52 + 1 : Nat) := by
        push_cast
        linarith [gapBelow_le significand exponent]
      have hlt := Nat.cast_lt.mp hlt
      omega
    have hge : (2 ^ 52 - 1 / 4 : ℚ) * 2 ^ exponent ≤ num / den := by
      have hgap : gapBelow significand exponent = 1 / 4 := if_pos ⟨hsignificand, hmin⟩
      have hlow := h.low
      rw [hgap, hsignificand] at hlow
      exact_mod_cast hlow
    have hexponent : exponentFor num den = exponent - 1 := by
      refine exponentFor_eq hnum hden (by omega) (.inl ?_) ?_
      · calc (2 : ℚ) ^ (exponent - 1 + 52) = 2 ^ 51 * 2 ^ exponent := by
              rw [← zpow_natCast, ← zpow_add₀ two_ne_zero]
              congr 1
              push_cast
              ring
          _ ≤ (2 ^ 52 - 1 / 4) * 2 ^ exponent := by gcongr; norm_num
          _ ≤ num / den := hge
      · rwa [show exponent - 1 + 53 = exponent + 52 by ring]
    have hnearest : Nearest (num / den * 2 ^ (-(exponent - 1))) (2 ^ 53) := by
      have hscale : (2 : ℚ) ^ (-(exponent - 1)) = 2 / 2 ^ exponent := by
        rw [neg_sub, zpow_sub₀ two_ne_zero, zpow_one]
      rw [hscale, mul_div_assoc', div_eq_mul_inv, ← div_eq_mul_inv]
      refine ⟨?_, ?_, fun _ => by decide⟩
      · rw [le_div_iff₀ hpos]
        push_cast
        linarith
      · rw [div_le_iff₀ hpos]
        push_cast
        linarith
    have hcarry : significandFor num den = 2 ^ 53 := by
      have hsignificand := nearest_significandFor num hden
      rw [hexponent] at hsignificand
      exact hsignificand.unique hnearest
    rw [if_pos hcarry, hexponent, sub_add_cancel, if_neg (not_lt.mpr canonical.le_maxExponent),
      hsignificand]

/-! ### The range of finite numbers -/

/-- From here on numbers are rounded to infinity: half a unit above the greatest finite one. -/
def overflowBound : Nat := 2 ^ 1024 - 2 ^ 970

theorem cast_overflowBound : (overflowBound : ℚ) = (2 ^ 53 - 1 / 2) * 2 ^ maxExponent := by
  have hle : 2 ^ 970 ≤ 2 ^ 1024 := Nat.pow_le_pow_right (by decide) (by decide)
  have hpower : (2 : ℚ) ^ maxExponent = 2 * 2 ^ 970 := by
    rw [show maxExponent = ((1 + 970 : Nat) : Int) from rfl, zpow_natCast, pow_add, pow_one]
  rw [overflowBound, Nat.cast_sub hle, Nat.cast_pow, Nat.cast_pow, Nat.cast_ofNat, hpower,
    show 1024 = 54 + 970 from rfl, pow_add]
  ring

/-- A positive quotient is rounded to infinity exactly from the bound on. -/
theorem ofRatio_eq_infinite_iff (negative : Bool) {num den : Nat} (hnum : 0 < num)
    (hden : 0 < den) :
    ofRatio negative num den = .infinite negative ↔ (overflowBound : ℚ) ≤ num / den := by
  have hrange : minExponent < maxExponent := by decide
  have hexponent : (0 : ℚ) < 2 ^ exponentFor num den := by positivity
  have hlt := scaled_lt hnum hden
  have hnearest := nearest_significandFor num hden
  rw [ofRatio_eq negative hnum.ne', cast_overflowBound]
  generalize maxExponent = maxExponent at *
  have hmax : (0 : ℚ) < 2 ^ maxExponent := by positivity
  rcases lt_trichotomy (exponentFor num den) maxExponent with hbelow | heq | habove
  · have hfinite : (num : ℚ) / den < (2 ^ 53 - 1 / 2) * 2 ^ maxExponent := by
      rw [zpow_neg, ← div_eq_mul_inv, div_lt_iff₀ hexponent] at hlt
      calc (num : ℚ) / den < 2 ^ 53 * 2 ^ exponentFor num den := hlt
        _ ≤ 2 ^ 53 * 2 ^ (maxExponent - 1) := by
            gcongr
            · exact one_le_two
            · omega
        _ = 2 ^ 52 * 2 ^ maxExponent := by
            rw [zpow_sub_one₀ two_ne_zero]
            ring
        _ ≤ (2 ^ 53 - 1 / 2) * 2 ^ maxExponent := by gcongr; norm_num
    refine iff_of_false ?_ (not_le.mpr hfinite)
    split_ifs
    all_goals first | omega | simp
  · rw [heq] at hlt hnearest ⊢
    rw [zpow_neg, ← div_eq_mul_inv] at hlt hnearest
    rw [← le_div_iff₀ hmax]
    split_ifs with hcarry hover hover
    · rw [hcarry] at hnearest
      exact iff_of_true rfl (by exact_mod_cast hnearest.low)
    · omega
    · omega
    · refine iff_of_false (by simp) fun hle => hcarry (hnearest.unique ⟨?_, ?_, fun _ => by decide⟩)
      · exact_mod_cast hle
      · push_cast
        linarith
  · have hle := le_scaled hnum hden (by omega)
    rw [zpow_neg, ← div_eq_mul_inv, le_div_iff₀ hexponent] at hle
    have hlarge : (2 ^ 53 - 1 / 2) * 2 ^ maxExponent ≤ (num : ℚ) / den := by
      calc (2 ^ 53 - 1 / 2 : ℚ) * 2 ^ maxExponent ≤ 2 ^ 53 * 2 ^ maxExponent := by gcongr; norm_num
        _ = 2 ^ 52 * 2 ^ (maxExponent + 1) := by
            rw [zpow_add_one₀ two_ne_zero]
            ring
        _ ≤ 2 ^ 52 * 2 ^ exponentFor num den := by
            gcongr
            · exact one_le_two
            · omega
        _ ≤ num / den := hle
    refine iff_of_true ?_ hlarge
    rw [if_pos (show maxExponent < exponentFor num den + 1 by omega), if_pos habove, ite_self]

theorem ofRatio_cases (negative : Bool) (num den : Nat) :
    ofRatio negative num den = .infinite negative ∨
      ∃ significand exponent, ofRatio negative num den = .finite negative significand exponent := by
  simp only [ofRatio, signedZero]
  split_ifs
  all_goals first | exact .inl rfl | exact .inr ⟨_, _, rfl⟩

/-- Below the bound an integer is next to a finite number. -/
theorem ofRatio_of_lt (negative : Bool) {n : Nat} (h : n < overflowBound) :
    ∃ significand exponent, ofRatio negative n 1 = .finite negative significand exponent := by
  rcases ofRatio_cases negative n 1 with hratio | hratio
  · by_cases hn : n = 0
    · exact ⟨0, minExponent, by rw [hn]; rfl⟩
    · have hle := (ofRatio_eq_infinite_iff negative (Nat.pos_of_ne_zero hn) Nat.one_pos).mp hratio
      rw [Nat.cast_one, div_one, Nat.cast_le] at hle
      exact absurd h (Nat.not_lt.mpr hle)
  · exact hratio

/-- Exactly the integers from the bound on are beyond the finite numbers. -/
theorem ofInt?_eq_none_iff (i : Int) : ofInt? i = none ↔ overflowBound ≤ i.natAbs := by
  by_cases hzero : i = 0
  · rw [hzero]
    refine iff_of_false (by decide) (Nat.not_le.mpr ?_)
    exact Nat.sub_pos_of_lt (Nat.pow_lt_pow_right (by decide) (by decide))
  · have hiff := ofRatio_eq_infinite_iff (decide (i < 0)) (Int.natAbs_pos.mpr hzero) Nat.one_pos
    rw [Nat.cast_one, div_one, Nat.cast_le] at hiff
    rw [← hiff, ofInt?]
    rcases ofRatio_cases (decide (i < 0)) i.natAbs 1 with hratio | ⟨significand, exponent, hratio⟩
    · rw [hratio]
      exact iff_of_true rfl rfl
    · rw [hratio]
      exact iff_of_false (by simp) (by simp)

/-! ### Canonical numbers -/

/-- A double as it is kept: infinite, not a number, or finite in canonical form. -/
def IsCanonical : Binary64 → Prop
  | .finite _ significand exponent => Canonical significand exponent
  | _ => True

theorem isCanonical_iff {f : Binary64} : f.isCanonical = true ↔ f.IsCanonical := by
  cases f with
  | finite negative significand exponent =>
    simp only [isCanonical, IsCanonical, Bool.and_eq_true, Bool.or_eq_true, decide_eq_true_eq]
    constructor
    · rintro ⟨⟨⟨hlt, hnormal⟩, hmin⟩, hmax⟩
      exact ⟨hlt, hnormal, hmin, hmax⟩
    · intro h
      exact ⟨⟨⟨h.significand_lt, h.normal⟩, h.minExponent_le⟩, h.le_maxExponent⟩
  | _ => exact iff_of_true rfl trivial

theorem isCanonical_signedZero (negative : Bool) : (signedZero negative).IsCanonical :=
  ⟨by decide, .inr rfl, le_refl _, by decide⟩

theorem isCanonical_ofRatio (negative : Bool) (num : Nat) {den : Nat} (hden : 0 < den) :
    (ofRatio negative num den).IsCanonical := by
  rcases ofRatio_cases negative num den with h | ⟨significand, exponent, h⟩
  · rw [h]
    trivial
  · rw [h]
    exact canonical_of_ofRatio hden h

theorem isCanonical_ofDecimal (negative : Bool) (significand : Nat) (exponent : Int) :
    (ofDecimal negative significand exponent).IsCanonical := by
  unfold ofDecimal
  dsimp only
  split_ifs
  · exact isCanonical_signedZero negative
  · trivial
  · exact isCanonical_ofRatio _ _ Nat.one_pos
  · exact isCanonical_ofRatio _ _ (Nat.pow_pos (by decide))

end Unproxy.Binary64
