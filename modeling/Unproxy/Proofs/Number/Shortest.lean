import Mathlib
import Unproxy.Proofs.Number.Rounding

/-!
# Unproxy.Proofs.Number.Shortest

The shortest decimal of a double is rounded back to the double.

The search for it tries the neighbours of the number on one decimal grid after the other, from the
coarsest on. With seventeen digits the grid is finer than the range of numbers that are rounded to
the double, so one of the two neighbours lies in the range.

Main definitions:

* `Decimal.value`: the rational number that a decimal stands for;
* `Binary64.Chosen`: the nearer of two multiples of a power of ten around a number;
* `Binary64.candidate?`: the neighbour of a number on the grid that gives it a count of digits.

Main statements:

* `Binary64.contains_rounding_iff`: the range of a number holds what is rounded to it;
* `Binary64.neighbour?_spec`: of the two multiples around a number the nearer one is its neighbour;
* `Binary64.exists_neighbour?`: a fine grid has a neighbour in the range;
* `Binary64.shortest_search`: the search ends at the coarsest grid that has one;
* `Binary64.roundsTo_shortest`: the shortest decimal lies next to its number;
* `Binary64.ofDecimal_of_roundsTo`: what lies next to a number is read as it.
-/

namespace Unproxy

/-- The rational number that a decimal stands for. -/
def Decimal.value (d : Decimal) : ℚ := d.significand * 10 ^ d.exponent

namespace Binary64

/-! ### Lengths -/

theorem tenTo_pos (n : Nat) : 0 < tenTo n := Nat.pow_pos (by decide)

/-- A positive number lies between the powers of ten that its length gives. -/
theorem decimalLength_spec {n : Nat} (h : 0 < n) :
    (10 : ℚ) ^ ((decimalLength n : Int) - 1) ≤ n ∧ (n : ℚ) < 10 ^ (decimalLength n : Int) := by
  have hlength : decimalLength n = (Nat.toDigits 10 n).length := if_neg h.ne'
  have hpos : 0 < (Nat.toDigits 10 n).length := Nat.length_toDigits_pos
  have hlt : n < 10 ^ (Nat.toDigits 10 n).length :=
    (Nat.length_toDigits_le_iff (by decide) hpos).mp le_rfl
  have hle : 10 ^ ((Nat.toDigits 10 n).length - 1) ≤ n := by
    by_contra hbelow
    by_cases hone : (Nat.toDigits 10 n).length = 1
    · rw [hone] at hbelow
      exact hbelow h
    · have hshort := (Nat.length_toDigits_le_iff (by decide) (by omega)).mpr (not_le.mp hbelow)
      omega
  rw [hlength]
  constructor
  · rw [← Nat.cast_pred hpos, zpow_natCast]
    exact_mod_cast hle
  · rw [zpow_natCast]
    exact_mod_cast hlt

/-- A decimal lies between the powers of ten around its first digit. -/
theorem value_spec {d : Decimal} (h : 0 < d.significand) :
    (10 : ℚ) ^ ((decimalLength d.significand : Int) + d.exponent - 1) ≤ d.value ∧
      d.value < 10 ^ ((decimalLength d.significand : Int) + d.exponent) := by
  obtain ⟨hleast, hmost⟩ := decimalLength_spec h
  unfold Decimal.value
  constructor
  · rw [add_sub_right_comm, zpow_add₀ (by norm_num)]
    gcongr
  · rw [zpow_add₀ (by norm_num)]
    gcongr

theorem significand_pos {d : Decimal} (h : 0 < d.value) : 0 < d.significand := by
  refine Nat.pos_of_ne_zero fun hzero => ?_
  rw [Decimal.value, hzero, Nat.cast_zero, zero_mul] at h
  exact lt_irrefl _ h

/-- A quotient has its first digit behind the power of ten below its decimal point. -/
theorem decimalPoint_spec {num den : Nat} (hnum : 0 < num) (hden : 0 < den) :
    (10 : ℚ) ^ (decimalPoint num den - 1) ≤ num / den ∧
      (num : ℚ) / den < 10 ^ decimalPoint num den := by
  have hnum' : (0 : ℚ) < num := by exact_mod_cast hnum
  have hden' : (0 : ℚ) < den := by exact_mod_cast hden
  unfold decimalPoint
  split
  · rename_i hle
    have hquotient : ((num / den : Nat) : ℚ) ≤ num / den := Nat.cast_div_le
    obtain ⟨hleast, hmost⟩ := decimalLength_spec (Nat.div_pos hle hden)
    refine ⟨hleast.trans hquotient, ?_⟩
    have hnext : ((num / den : Nat) : ℚ) + 1 ≤ 10 ^ (decimalLength (num / den) : Int) := by
      rw [zpow_natCast] at hmost ⊢
      exact_mod_cast hmost
    refine lt_of_lt_of_le ?_ hnext
    rw [div_lt_iff₀ hden', mul_comm]
    exact_mod_cast Nat.lt_mul_div_succ num hden
  · -- Below one, the inverse is rounded up, and the length is that of the number before it.
    rename_i hlt
    have hceil : den ≤ ((den + num - 1) / num - 1 + 1) * num ∧
        ((den + num - 1) / num - 1) * num < den ∧ 0 < (den + num - 1) / num - 1 := by
      have hmod := Nat.div_add_mod (den + num - 1) num
      have hrest := Nat.mod_lt (den + num - 1) hnum
      have htwo : 2 ≤ (den + num - 1) / num := by
        rw [Nat.le_div_iff_mul_le hnum]
        omega
      refine ⟨?_, ?_, by omega⟩
      · rw [Nat.sub_add_cancel (by omega), mul_comm]
        omega
      · rw [Nat.sub_mul, mul_comm]
        omega
    generalize (den + num - 1) / num - 1 = c at hceil
    obtain ⟨hleast, hmost⟩ := decimalLength_spec hceil.2.2
    constructor
    · have hinverse : (c + 1 : ℚ) ≤ 10 ^ (decimalLength c : Int) := by
        rw [zpow_natCast] at hmost ⊢
        exact_mod_cast hmost
      have hbound : (den : ℚ) ≤ (c + 1) * num := by exact_mod_cast hceil.1
      rw [show 1 - (decimalLength c : Int) - 1 = -(decimalLength c : Int) by ring, zpow_neg,
        le_div_iff₀ hden', inv_mul_le_iff₀ (by positivity)]
      calc (den : ℚ) ≤ (c + 1) * num := hbound
        _ ≤ 10 ^ (decimalLength c : Int) * num := by gcongr
    · have hbound : (c : ℚ) * num < den := by exact_mod_cast hceil.2.1
      rw [show 1 - (decimalLength c : Int) = -((decimalLength c : Int) - 1) by ring, zpow_neg,
        div_lt_iff₀ hden', lt_inv_mul_iff₀ (by positivity)]
      calc (10 : ℚ) ^ ((decimalLength c : Int) - 1) * num ≤ c * num := by gcongr
        _ < den := hbound

/-! ### The range of a number -/

theorem RoundsTo.of_lt {x : ℚ} {significand : Nat} {exponent : Int}
    (hlow : (significand - gapBelow significand exponent) * 2 ^ exponent < x)
    (hhigh : x < (significand + 1 / 2) * 2 ^ exponent) : RoundsTo x significand exponent := by
  refine ⟨hlow.le, hhigh.le, ?_⟩
  rintro (htie | htie)
  · exact absurd htie hlow.ne'
  · exact absurd htie hhigh.ne

theorem roundsTo_self (significand : Nat) (exponent : Int) :
    RoundsTo (significand * 2 ^ exponent) significand exponent := by
  have hgap : 0 < gapBelow significand exponent := by
    unfold gapBelow
    split <;> norm_num
  have hpower : (0 : ℚ) < 2 ^ exponent := by positivity
  refine .of_lt ?_ ?_
  · gcongr
    linarith
  · gcongr
    linarith

/-- What is rounded to a number is at least half a unit of its last place. -/
theorem RoundsTo.half_le {x : ℚ} {significand : Nat} {exponent : Int}
    (h : RoundsTo x significand exponent) (hpos : 0 < significand) : 1 / 2 * 2 ^ exponent ≤ x := by
  have hone : (1 : ℚ) ≤ significand := by exact_mod_cast hpos
  calc (1 / 2 : ℚ) * 2 ^ exponent ≤ (significand - gapBelow significand exponent) * 2 ^ exponent := by
        gcongr
        linarith [gapBelow_le significand exponent]
    _ ≤ x := h.low

theorem RoundsTo.pos {x : ℚ} {significand : Nat} {exponent : Int}
    (h : RoundsTo x significand exponent) (hpos : 0 < significand) : 0 < x :=
  lt_of_lt_of_le (by positivity) (h.half_le hpos)

/-- Whether a decimal lies between the ends of a range. -/
theorem contains_iff {i : Interval} (hden : 0 < i.den) (d : Decimal) :
    i.contains d.significand d.exponent = true ↔
      if i.closed = true then (i.low : ℚ) / i.den ≤ d.value ∧ d.value ≤ i.high / i.den
      else (i.low : ℚ) / i.den < d.value ∧ d.value < i.high / i.den := by
  have hden' : (0 : ℚ) < i.den := by exact_mod_cast hden
  have hpoint : ∃ unit point : Nat, 0 < unit ∧ (point : ℚ) = d.value * i.den * unit ∧
      i.contains d.significand d.exponent =
        if i.closed then decide (i.low * unit ≤ point) && decide (point ≤ i.high * unit)
        else decide (i.low * unit < point) && decide (point < i.high * unit) := by
    unfold Decimal.value
    by_cases hsign : 0 ≤ d.exponent
    · refine ⟨1, d.significand * tenTo d.exponent.toNat * i.den, Nat.one_pos, ?_, ?_⟩
      · rw [Nat.cast_mul, Nat.cast_mul, cast_tenTo, pow_toNat hsign, Nat.cast_one, mul_one]
      · simp only [Interval.contains, if_pos hsign]
    · refine ⟨tenTo (-d.exponent).toNat, d.significand * i.den, tenTo_pos _, ?_, ?_⟩
      · rw [Nat.cast_mul, cast_tenTo, pow_toNat (by omega), zpow_neg]
        field_simp
      · simp only [Interval.contains, if_neg hsign]
  obtain ⟨unit, point, hunit, hvalue, hcontains⟩ := hpoint
  have hunit' : (0 : ℚ) < unit := by exact_mod_cast hunit
  have hle : ∀ n : Nat, n * unit ≤ point ↔ (n : ℚ) / i.den ≤ d.value := by
    intro n
    rw [div_le_iff₀ hden', ← mul_le_mul_iff_left₀ hunit', ← hvalue]
    exact_mod_cast Iff.rfl
  have hge : ∀ n : Nat, point ≤ n * unit ↔ d.value ≤ (n : ℚ) / i.den := by
    intro n
    rw [le_div_iff₀ hden', ← mul_le_mul_iff_left₀ hunit', ← hvalue]
    exact_mod_cast Iff.rfl
  have hlt : ∀ n : Nat, n * unit < point ↔ (n : ℚ) / i.den < d.value := by
    intro n
    rw [← not_le, hge, not_le]
  have hgt : ∀ n : Nat, point < n * unit ↔ d.value < (n : ℚ) / i.den := by
    intro n
    rw [← not_le, hle, not_le]
  rw [hcontains]
  split
  · rw [Bool.and_eq_true, decide_eq_true_eq, decide_eq_true_eq, hle, hge]
  · rw [Bool.and_eq_true, decide_eq_true_eq, decide_eq_true_eq, hlt, hgt]

section

variable {significand : Nat} (hpos : 0 < significand) (exponent : Int)

theorem scale_one_snd (m n : Nat) (power : Int) : (scale m 1 power).2 = (scale n 1 power).2 := by
  unfold scale
  split <;> rfl

theorem rounding_den_pos (significand : Nat) (exponent : Int) :
    0 < (rounding significand exponent).den :=
  scale_pos Nat.one_pos _

include hpos

theorem rounding_low :
    ((rounding significand exponent).low : ℚ) / (rounding significand exponent).den =
      (significand - gapBelow significand exponent) * 2 ^ exponent := by
  have hquarter : ∀ (below : Nat), below ≤ 4 * significand →
      ((scale (4 * significand - below) 1 (exponent - 2)).1 : ℚ) /
          (scale (4 * significand - below) 1 (exponent - 2)).2 =
        (significand - below / 4) * 2 ^ exponent := by
    intro below hbelow
    rw [scale_div, Nat.cast_sub hbelow, zpow_sub₀ two_ne_zero]
    push_cast
    ring
  have h52 : twoTo 52 = 2 ^ 52 := rfl
  simp only [rounding, h52, gapBelow, Bool.and_eq_true, decide_eq_true_eq]
  split
  · rw [hquarter 1 (by omega)]
    norm_num
  · rw [hquarter 2 (by omega)]
    norm_num

omit hpos in
theorem rounding_high (significand : Nat) :
    ((rounding significand exponent).high : ℚ) / (rounding significand exponent).den =
      (significand + 1 / 2) * 2 ^ exponent := by
  have hhigh := @scale_div (4 * significand + 2) 1 (exponent - 2)
  simp only [rounding]
  rw [scale_one_snd _ (4 * significand + 2), hhigh, zpow_sub₀ two_ne_zero]
  push_cast
  ring

/-- The range of a number holds exactly the decimals that are rounded to it. -/
theorem contains_rounding_iff (d : Decimal) :
    (rounding significand exponent).contains d.significand d.exponent = true ↔
      RoundsTo d.value significand exponent := by
  have hclosed : (rounding significand exponent).closed = true ↔ significand % 2 = 0 := by
    simp [rounding]
  rw [contains_iff (rounding_den_pos significand exponent), rounding_low hpos, rounding_high]
  simp only [hclosed]
  by_cases heven : significand % 2 = 0
  · rw [if_pos heven]
    exact ⟨fun h => ⟨h.1, h.2, fun _ => heven⟩, fun h => ⟨h.low, h.high⟩⟩
  · rw [if_neg heven]
    constructor
    · exact fun h => .of_lt h.1 h.2
    · intro h
      refine ⟨lt_of_le_of_ne h.low ?_, lt_of_le_of_ne h.high ?_⟩
      · exact fun htie => heven (h.tie (.inl htie.symm))
      · exact fun htie => heven (h.tie (.inr htie))

end

/-! ### Neighbours on a grid -/

/-- What is taken for a number of the multiples `low` and `low + 1` of a power of ten around it: one
that is allowed, and if both are, the nearer one, which is even if both are as near. -/
inductive Chosen (allowed : Nat → Prop) (x : ℚ) (place : Int) (low : Nat) : Nat → Prop
  | low (isAllowed : allowed low)
      (near : allowed (low + 1) → 2 * x ≤ (2 * low + 1) * 10 ^ place ∧
        (2 * x = (2 * low + 1) * 10 ^ place → low % 2 = 0)) : Chosen allowed x place low low
  | high (isAllowed : allowed (low + 1))
      (near : allowed low → (2 * low + 1) * 10 ^ place ≤ 2 * x ∧
        (2 * x = (2 * low + 1) * 10 ^ place → (low + 1) % 2 = 0)) :
      Chosen allowed x place low (low + 1)

theorem Chosen.isAllowed {allowed : Nat → Prop} {x : ℚ} {place : Int} {low n : Nat}
    (h : Chosen allowed x place low n) : allowed n := by
  cases h with
  | low isAllowed => exact isAllowed
  | high isAllowed => exact isAllowed

/-- The neighbours of a quotient are the two multiples of a power of ten around it. -/
theorem neighbour?_spec {num den : Nat} (hden : 0 < den) (i : Interval) (place : Int) :
    ∃ low : Nat, (low : ℚ) * 10 ^ place ≤ num / den ∧
      (num : ℚ) / den < (low + 1 : Nat) * 10 ^ place ∧
      (neighbour? num den i place = none ∧ ¬i.contains low place = true ∧
          ¬i.contains (low + 1) place = true ∨
        ∃ n, neighbour? num den i place = some n ∧
          Chosen (fun n => i.contains n place = true) (num / den) place low n) := by
  have hscaled : ∃ n d : Nat, 0 < d ∧ (n : ℚ) / d * 10 ^ place = num / den ∧
      (if 0 ≤ place then (num, den * tenTo place.toNat)
        else (num * tenTo (-place).toNat, den)) = (n, d) := by
    have hten : (10 : ℚ) ^ place ≠ 0 := by positivity
    by_cases hsign : 0 ≤ place
    · refine ⟨num, den * tenTo place.toNat, Nat.mul_pos hden (tenTo_pos _), ?_, if_pos hsign⟩
      rw [Nat.cast_mul, cast_tenTo, pow_toNat hsign, ← div_div, div_mul_cancel₀ _ hten]
    · refine ⟨num * tenTo (-place).toNat, den, hden, ?_, if_neg hsign⟩
      rw [Nat.cast_mul, cast_tenTo, pow_toNat (by omega), zpow_neg, ← div_eq_mul_inv, div_right_comm,
        div_mul_cancel₀ _ hten]
  obtain ⟨n, d, hd, hquotient, hpair⟩ := hscaled
  have hd' : (0 : ℚ) < d := by exact_mod_cast hd
  have hten : (0 : ℚ) < 10 ^ place := by positivity
  have hdivision : (n : ℚ) = (n / d : Nat) * d + (n % d : Nat) := by
    exact_mod_cast (Nat.div_add_mod' n d).symm
  -- Twice the number is the middle, with twice the rest in place of the divisor.
  have htwice : 2 * ((num : ℚ) / den) =
      (2 * (n / d : Nat) + 2 * (n % d : Nat) / d) * 10 ^ place := by
    rw [← hquotient, hdivision]
    field_simp
  have hle : 2 * (n % d) ≤ d ↔ 2 * ((num : ℚ) / den) ≤ (2 * (n / d : Nat) + 1) * 10 ^ place := by
    rw [htwice, mul_le_mul_iff_left₀ hten, add_le_add_iff_left, div_le_one hd']
    exact_mod_cast Iff.rfl
  have hge : d ≤ 2 * (n % d) ↔ (2 * (n / d : Nat) + 1) * 10 ^ place ≤ 2 * ((num : ℚ) / den) := by
    rw [htwice, mul_le_mul_iff_left₀ hten, add_le_add_iff_left, one_le_div hd']
    exact_mod_cast Iff.rfl
  refine ⟨n / d, ?_, ?_, ?_⟩
  · rw [← hquotient]
    gcongr
    exact Nat.cast_div_le
  · rw [← hquotient]
    gcongr
    rw [div_lt_iff₀ hd', mul_comm]
    exact_mod_cast Nat.lt_mul_div_succ n hd
  simp only [neighbour?, hpair]
  cases hlow : i.contains (n / d) place with
  | false =>
    cases hhigh : i.contains (n / d + 1) place with
    | false => exact .inl ⟨rfl, Bool.false_ne_true, Bool.false_ne_true⟩
    | true => exact .inr ⟨_, rfl, .high hhigh fun h => absurd (hlow.symm.trans h) (by decide)⟩
  | true =>
    cases hhigh : i.contains (n / d + 1) place with
    | false => exact .inr ⟨_, rfl, .low hlow fun h => absurd (hhigh.symm.trans h) (by decide)⟩
    | true =>
      refine .inr ⟨_, rfl, ?_⟩
      simp only [Bool.or_eq_true, decide_eq_true_eq, Bool.and_eq_true, beq_iff_eq]
      split
      · refine .low hlow fun _ => ⟨hle.mp (by omega), fun htie => ?_⟩
        have hhalf := hge.mpr htie.ge
        omega
      · refine .high hhigh fun _ => ⟨hge.mp (by omega), fun htie => ?_⟩
        have hhalf := hle.mpr htie.le
        omega

/-- On a grid that is finer than the gap below a number, one of its neighbours is rounded to it. -/
theorem exists_neighbour? {num den significand : Nat} {exponent place : Int} (hden : 0 < den)
    (hpos : 0 < significand) (hratio : (num : ℚ) / den = significand * 2 ^ exponent)
    (hfine : (10 : ℚ) ^ place < 2 * gapBelow significand exponent * 2 ^ exponent) :
    (neighbour? num den (rounding significand exponent) place).isSome = true := by
  obtain ⟨low, hlow, hhigh, hcases⟩ :=
    @neighbour?_spec num den hden (rounding significand exponent) place
  suffices h : (rounding significand exponent).contains low place = true ∨
      (rounding significand exponent).contains (low + 1) place = true by
    rcases hcases with ⟨-, hnot, hnot'⟩ | ⟨n, hn, -⟩
    · exact absurd h (not_or.mpr ⟨hnot, hnot'⟩)
    · rw [hn]
      rfl
  have hpower : (0 : ℚ) < 2 ^ exponent := by positivity
  have hten : (0 : ℚ) < 10 ^ place := by positivity
  have hgap : gapBelow significand exponent * 2 ^ exponent ≤ 1 / 2 * 2 ^ exponent := by
    gcongr
    exact gapBelow_le _ _
  rw [hratio] at hlow hhigh
  push_cast at hhigh
  -- The nearer of the two is no further away than half the width of the grid.
  by_cases hnear : significand * 2 ^ exponent - low * 10 ^ place ≤ (1 / 2 : ℚ) * 10 ^ place
  · refine .inl ((contains_rounding_iff hpos exponent ⟨low, place⟩).mpr (.of_lt ?_ ?_))
    · show _ < (low : ℚ) * 10 ^ place
      linarith
    · show (low : ℚ) * 10 ^ place < _
      linarith
  · refine .inr ((contains_rounding_iff hpos exponent ⟨low + 1, place⟩).mpr (.of_lt ?_ ?_))
    · show _ < ((low + 1 : Nat) : ℚ) * 10 ^ place
      push_cast
      linarith
    · show ((low + 1 : Nat) : ℚ) * 10 ^ place < _
      push_cast
      linarith

/-! ### The search -/

/-- The place in front of the first digit of a number. -/
def point (significand : Nat) (exponent : Int) : Int :=
  decimalPoint (ratio significand exponent).1 (ratio significand exponent).2

/-- The neighbour of a number on the grid that gives it a count of digits. -/
def candidate? (significand : Nat) (exponent : Int) (count : Nat) : Option Nat :=
  neighbour? (ratio significand exponent).1 (ratio significand exponent).2
    (rounding significand exponent) (point significand exponent - count)

theorem ratio_spec (significand : Nat) (exponent : Int) :
    0 < (ratio significand exponent).2 ∧
      ((ratio significand exponent).1 : ℚ) / (ratio significand exponent).2 =
        significand * 2 ^ exponent := by
  refine ⟨scale_pos Nat.one_pos _, ?_⟩
  rw [ratio, scale_div, Nat.cast_one, div_one]

theorem point_spec {significand : Nat} (hpos : 0 < significand) (exponent : Int) :
    (10 : ℚ) ^ (point significand exponent - 1) ≤ significand * 2 ^ exponent ∧
      (significand * 2 ^ exponent : ℚ) < 10 ^ point significand exponent := by
  obtain ⟨hden, hratio⟩ := ratio_spec significand exponent
  have hnum : 0 < (ratio significand exponent).1 := by
    refine Nat.pos_of_ne_zero fun hzero => ?_
    have hvalue : (0 : ℚ) < significand * 2 ^ exponent := by positivity
    rw [← hratio, hzero, Nat.cast_zero, zero_div] at hvalue
    exact lt_irrefl _ hvalue
  rw [← hratio]
  exact decimalPoint_spec hnum hden

/-- What the grid for a count of digits has to offer. -/
theorem candidate?_cases {significand : Nat} (hpos : 0 < significand) (exponent : Int) (count : Nat)
    {place : Int} (hplace : place = point significand exponent - count) :
    ∃ low : Nat, (low : ℚ) * 10 ^ place ≤ significand * 2 ^ exponent ∧
      (significand * 2 ^ exponent : ℚ) < (low + 1 : Nat) * 10 ^ place ∧
      (candidate? significand exponent count = none ∧
          ¬RoundsTo (low * 10 ^ place) significand exponent ∧
          ¬RoundsTo ((low + 1 : Nat) * 10 ^ place) significand exponent ∨
        ∃ n, candidate? significand exponent count = some n ∧
          Chosen (fun n => RoundsTo (n * 10 ^ place) significand exponent)
            (significand * 2 ^ exponent) place low n) := by
  obtain ⟨hden, hratio⟩ := ratio_spec significand exponent
  have hcontains : ∀ n : Nat, (rounding significand exponent).contains n place = true ↔
      RoundsTo (n * 10 ^ place) significand exponent := fun n =>
    contains_rounding_iff hpos exponent ⟨n, place⟩
  have hspec := @neighbour?_spec (ratio significand exponent).1 _ hden
    (rounding significand exponent) place
  rw [candidate?, ← hplace]
  simpa only [hratio, hcontains] using hspec

/-- A search through a range finds the first number that has a result. -/
theorem findSome?_range {α : Type} {f : Nat → Option α} {n : Nat} {a : α}
    (h : (List.range n).findSome? f = some a) : ∃ k < n, f k = some a ∧ ∀ j < k, f j = none := by
  induction n with
  | zero => cases h
  | succ n ih =>
    rw [List.range_succ, List.findSome?_append] at h
    cases hfound : (List.range n).findSome? f with
    | some b =>
      rw [hfound] at h ih
      obtain ⟨k, hk, hrest⟩ := ih h
      exact ⟨k, hk.trans n.lt_succ_self, hrest⟩
    | none =>
      rw [hfound] at h
      refine ⟨n, n.lt_succ_self, by simpa using h, fun j hj => ?_⟩
      exact List.findSome?_eq_none_iff.mp hfound j (List.mem_range.mpr hj)

theorem value_div_ten {d : Decimal} (h : d.significand % 10 = 0) :
    (⟨d.significand / 10, d.exponent + 1⟩ : Decimal).value = d.value := by
  have hten : ((d.significand / 10 : Nat) : ℚ) * 10 = d.significand := by
    exact_mod_cast Nat.div_mul_cancel (Nat.dvd_of_mod_eq_zero h)
  rw [Decimal.value, Decimal.value, zpow_add_one₀ (by norm_num), ← hten]
  ring

theorem value_dropZeros (n : Nat) (d : Decimal) : (dropZeros n d).value = d.value := by
  induction n generalizing d with
  | zero => rfl
  | succ n ih =>
    rw [dropZeros]
    split
    · rename_i hzero
      rw [ih, value_div_ten hzero]
    · rfl

section

variable {significand : Nat} {exponent : Int} (canonical : Canonical significand exponent)
  (hpos : 0 < significand)

include canonical in
/-- Seventeen digits are enough: where the first of them is the first digit of a number, the grid is
finer than the gap below it. -/
theorem seventeen_digits {point : Int}
    (h : (10 : ℚ) ^ (point - 1) ≤ significand * 2 ^ exponent) :
    (10 : ℚ) ^ (point - 17) < 2 * gapBelow significand exponent * 2 ^ exponent := by
  have hpower : (0 : ℚ) < 2 ^ exponent := by positivity
  have hsplit : (10 : ℚ) ^ (point - 1) = 10 ^ (point - 17) * 10 ^ 16 := by
    rw [← zpow_natCast (10 : ℚ) 16, ← zpow_add₀ (by norm_num)]
    congr 1
    push_cast
    ring
  have hlt : (significand : ℚ) < 2 * gapBelow significand exponent * 10 ^ 16 := by
    unfold gapBelow
    split
    · rename_i hbinade
      rw [hbinade.1]
      norm_num
    · have hbound : (significand : ℚ) < (2 ^ 53 : Nat) := by
        exact_mod_cast canonical.significand_lt
      push_cast at hbound
      linarith
  rw [hsplit] at h
  have hscaled : (10 : ℚ) ^ (point - 17) * 10 ^ 16 <
      2 * gapBelow significand exponent * 2 ^ exponent * 10 ^ 16 := by
    calc (10 : ℚ) ^ (point - 17) * 10 ^ 16 ≤ significand * 2 ^ exponent := h
      _ < 2 * gapBelow significand exponent * 10 ^ 16 * 2 ^ exponent := by gcongr
      _ = 2 * gapBelow significand exponent * 2 ^ exponent * 10 ^ 16 := by ring
  exact lt_of_mul_lt_mul_right hscaled (by norm_num)

include canonical hpos

/-- The shortest decimal is the first neighbour that the grids have, from the coarsest on. -/
theorem shortest_search :
    ∃ k n, k < 17 ∧ candidate? significand exponent (k + 1) = some n ∧
      (∀ j < k, candidate? significand exponent (j + 1) = none) ∧
      shortest significand exponent =
        dropZeros 17 ⟨n, point significand exponent - (k + 1 : Nat)⟩ := by
  obtain ⟨hden, hratio⟩ := ratio_spec significand exponent
  have hpoint := (point_spec hpos exponent).1
  have hlast : (candidate? significand exponent 17).isSome = true :=
    exists_neighbour? hden hpos hratio (seventeen_digits canonical hpoint)
  have hsearch : shortest significand exponent = dropZeros 17
      (((List.range 17).findSome? fun k => (candidate? significand exponent (k + 1)).map fun n =>
        (⟨n, point significand exponent - (k + 1 : Nat)⟩ : Decimal)).getD ⟨0, 0⟩) := rfl
  generalize hfound : List.findSome? _ (List.range 17) = found at hsearch
  cases found with
  | none =>
    have hnone := List.findSome?_eq_none_iff.mp hfound 16 (by decide)
    rw [Option.map_eq_none_iff] at hnone
    rw [hnone] at hlast
    cases hlast
  | some d =>
    obtain ⟨k, hk, hsome, hfirst⟩ := findSome?_range hfound
    obtain ⟨n, hn, rfl⟩ := Option.map_eq_some_iff.mp hsome
    exact ⟨k, n, hk, hn, fun j hj => Option.map_eq_none_iff.mp (hfirst j hj), hsearch⟩

/-- The shortest decimal of a number lies next to it. -/
theorem roundsTo_shortest : RoundsTo (shortest significand exponent).value significand exponent := by
  obtain ⟨k, n, -, hn, -, heq⟩ := shortest_search canonical hpos
  obtain ⟨low, -, -, hcases⟩ := candidate?_cases hpos exponent (k + 1) rfl
  rw [heq, value_dropZeros]
  rcases hcases with ⟨hnone, -⟩ | ⟨n', hn', hchosen⟩
  · rw [hn] at hnone
    cases hnone
  · rw [Option.some.inj (hn.symm.trans hn')]
    exact hchosen.isAllowed

omit canonical hpos in
/-- The range of doubles in powers of ten. -/
theorem decimal_range : (10 : ℚ) ^ (-331 : Int) ≤ 1 / 2 * 2 ^ minExponent ∧
    (2 : ℚ) ^ 53 * 2 ^ maxExponent ≤ 10 ^ (310 : Int) := by
  have hbits : (2 : ℚ) ^ 93 ≤ 10 ^ 28 := by norm_num
  have hmany : ((2 : ℚ) ^ 93) ^ 11 ≤ (10 ^ 28) ^ 11 := by gcongr
  constructor
  · have hleast : (1 / 2 : ℚ) * 2 ^ minExponent = ((2 ^ 93) ^ 11 * 2 ^ 52)⁻¹ := by
      rw [show minExponent = -((93 * 11 + 51 : Nat) : Int) from rfl, zpow_neg, zpow_natCast, pow_add,
        pow_mul, mul_inv, mul_inv]
      ring
    have hten : (10 : ℚ) ^ (-331 : Int) = ((10 ^ 28) ^ 11 * 10 ^ 23)⁻¹ := by
      rw [show (-331 : Int) = -((28 * 11 + 23 : Nat) : Int) from rfl, zpow_neg, zpow_natCast, pow_add,
        pow_mul]
    rw [hleast, hten]
    refine inv_anti₀ (by positivity) ?_
    gcongr
    norm_num
  · have hmost : (2 : ℚ) ^ 53 * 2 ^ maxExponent = (2 ^ 93) ^ 11 * 2 := by
      rw [show maxExponent = ((93 * 10 + 41 : Nat) : Int) from rfl, zpow_natCast, pow_add, pow_mul]
      ring
    have hten : (10 : ℚ) ^ (310 : Int) = (10 ^ 28) ^ 11 * 10 ^ 2 := by
      rw [show (310 : Int) = ((28 * 11 + 2 : Nat) : Int) from rfl, zpow_natCast, pow_add, pow_mul]
    rw [hmost, hten]
    gcongr
    norm_num

/-- A decimal next to a number is read as it. -/
theorem ofDecimal_of_roundsTo (negative : Bool) {d : Decimal}
    (h : RoundsTo d.value significand exponent) :
    ofDecimal negative d.significand d.exponent = .finite negative significand exponent := by
  have hpower : (0 : ℚ) < 2 ^ exponent := by positivity
  have hlow : (1 / 2 : ℚ) * 2 ^ minExponent ≤ d.value := by
    calc (1 / 2 : ℚ) * 2 ^ minExponent ≤ 1 / 2 * 2 ^ exponent := by
          gcongr
          · exact one_le_two
          · exact canonical.minExponent_le
      _ ≤ d.value := h.half_le hpos
  have hhigh : d.value < 2 ^ 53 * 2 ^ maxExponent := by
    have hlt : (significand : ℚ) + 1 ≤ 2 ^ 53 := by exact_mod_cast canonical.significand_lt
    calc d.value ≤ (significand + 1 / 2) * 2 ^ exponent := h.high
      _ < 2 ^ 53 * 2 ^ exponent := by gcongr; linarith
      _ ≤ 2 ^ 53 * 2 ^ maxExponent := by
          gcongr
          · exact one_le_two
          · exact canonical.le_maxExponent
  have hsignificand := significand_pos (h.pos hpos)
  obtain ⟨hleast, hmost⟩ := value_spec hsignificand
  -- Neither shortcut applies: the number is neither too small nor too large for a double.
  have hsmall : ¬(decimalLength d.significand : Int) + d.exponent < -330 := by
    intro hlt
    have hbelow : (10 : ℚ) ^ ((decimalLength d.significand : Int) + d.exponent) ≤ 10 ^ (-331 : Int) :=
      zpow_le_zpow_right₀ (by norm_num) (by omega)
    linarith [decimal_range.1]
  have hlarge : ¬310 < (decimalLength d.significand : Int) + d.exponent := by
    intro hlt
    have habove : (10 : ℚ) ^ (310 : Int) ≤ 10 ^ ((decimalLength d.significand : Int) + d.exponent - 1) :=
      zpow_le_zpow_right₀ (by norm_num) (by omega)
    linarith [decimal_range.2]
  unfold ofDecimal
  dsimp only
  rw [if_neg (by simp [hsignificand.ne', hsmall]), if_neg hlarge]
  split
  · rename_i hsign
    refine ofRatio_of_roundsTo negative (Nat.mul_pos hsignificand (tenTo_pos _)) Nat.one_pos canonical ?_
    rwa [Nat.cast_mul, cast_tenTo, pow_toNat hsign, Nat.cast_one, div_one]
  · rename_i hsign
    refine ofRatio_of_roundsTo negative hsignificand (tenTo_pos _) canonical ?_
    rwa [cast_tenTo, pow_toNat (by omega), zpow_neg, div_inv_eq_mul]

end

end Binary64

end Unproxy
