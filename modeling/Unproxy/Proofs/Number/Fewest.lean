import Mathlib
import Unproxy.Proofs.Number.Shortest

/-!
# Unproxy.Proofs.Number.Fewest

The decimal that stands for a double where it is shown. Among the decimals that are read as the
double it has the fewest digits, among those it is the nearest, and halfway between two it is the even
one. There is exactly one such decimal, and the search finds it.

All decimals with a count of digits that are rounded to a number lie on the grid that gives the
number so many digits, or below the power of ten at its first digit, which is on that grid as well.
So a grid on which neither neighbour of the number is rounded to it rules out the whole count.

Main definitions:

* `Binary64.Fewest`: the decimal has the fewest digits and is the nearest of those.

Main statements:

* `Binary64.Fewest.unique`: there is one such decimal at most;
* `Binary64.fewest_shortest`: the shortest decimal is one.
-/

namespace Unproxy.Binary64

/-- A decimal that is rounded to a number, with the fewest digits, nearest to it among those, and even
if there is another one as near. -/
structure Fewest (d : Decimal) (significand : Nat) (exponent : Int) : Prop where
  rounds : RoundsTo d.value significand exponent
  fewest : ∀ d' : Decimal, RoundsTo d'.value significand exponent →
    decimalLength d.significand ≤ decimalLength d'.significand
  nearest : ∀ d' : Decimal, RoundsTo d'.value significand exponent →
    decimalLength d'.significand = decimalLength d.significand →
    |d.value - significand * 2 ^ exponent| ≤ |d'.value - significand * 2 ^ exponent|
  even : ∀ d' : Decimal, RoundsTo d'.value significand exponent →
    decimalLength d'.significand = decimalLength d.significand →
    |d'.value - significand * 2 ^ exponent| = |d.value - significand * 2 ^ exponent| →
    d' ≠ d → d.significand % 2 = 0

/-! ### Decimals -/

theorem RoundsTo.between {x y z : ℚ} {significand : Nat} {exponent : Int}
    (hx : RoundsTo x significand exponent) (hz : RoundsTo z significand exponent)
    (hxy : x ≤ y) (hyz : y ≤ z) : RoundsTo y significand exponent := by
  refine ⟨hx.low.trans hxy, hyz.trans hz.high, ?_⟩
  intro htie
  rcases htie with htie | htie
  · exact hx.tie (.inl (le_antisymm (hxy.trans htie.le) hx.low))
  · exact hz.tie (.inr (le_antisymm hz.high (htie.ge.trans hyz)))

theorem decimalLength_le_iff (n k : Nat) : decimalLength n ≤ k ↔ n < 10 ^ k := by
  by_cases hn : n = 0
  · simp [hn, decimalLength]
  · obtain ⟨hleast, hmost⟩ := decimalLength_spec (Nat.pos_of_ne_zero hn)
    constructor
    · intro hle
      have hlt : (n : ℚ) < 10 ^ (k : Int) :=
        hmost.trans_le (zpow_le_zpow_right₀ (by norm_num) (by omega))
      rw [zpow_natCast] at hlt
      exact_mod_cast hlt
    · intro hlt
      by_contra hle
      have hbelow : (10 : ℚ) ^ (k : Int) ≤ n :=
        (zpow_le_zpow_right₀ (by norm_num) (by omega)).trans hleast
      rw [zpow_natCast] at hbelow
      exact absurd hlt (not_lt.mpr (by exact_mod_cast hbelow))

theorem decimalLength_pos {n : Nat} (h : 0 < n) : 0 < decimalLength n := by
  refine Nat.pos_of_ne_zero fun hzero => ?_
  have hlt := (decimalLength_le_iff n 0).mp hzero.le
  omega

/-- A decimal is a multiple of every smaller power of ten. -/
theorem value_eq_mul {d : Decimal} {place : Int} (h : place ≤ d.exponent) :
    d.value = (d.significand * 10 ^ (d.exponent - place).toNat : Nat) * 10 ^ place := by
  rw [Decimal.value, Nat.cast_mul, Nat.cast_pow, Nat.cast_ofNat, pow_toNat (by omega), mul_assoc,
    ← zpow_add₀ (by norm_num), sub_add_cancel]

/-- Of two decimals with the same count of digits, the smaller has no larger exponent. -/
theorem exponent_le_of_value_le {d d' : Decimal} (hpos : 0 < d.significand) (hpos' : 0 < d'.significand)
    (hlength : decimalLength d.significand = decimalLength d'.significand)
    (hle : d.value ≤ d'.value) : d.exponent ≤ d'.exponent := by
  have hlt := (value_spec hpos).1.trans_lt (hle.trans_lt (value_spec hpos').2)
  rw [zpow_lt_zpow_iff_right₀ (by norm_num)] at hlt
  omega

theorem eq_of_value_eq {d d' : Decimal} (hpos : 0 < d.significand) (hpos' : 0 < d'.significand)
    (hlength : decimalLength d.significand = decimalLength d'.significand)
    (hvalue : d.value = d'.value) : d = d' := by
  have hexponent : d.exponent = d'.exponent :=
    le_antisymm (exponent_le_of_value_le hpos hpos' hlength hvalue.le)
      (exponent_le_of_value_le hpos' hpos hlength.symm hvalue.ge)
  rw [Decimal.value, Decimal.value, hexponent, mul_left_inj' (by positivity)] at hvalue
  cases d
  cases d'
  simp_all

/-! ### One decimal at most -/

namespace Fewest

variable {d d' : Decimal} {significand : Nat} {exponent : Int}

theorem significand_pos (h : Fewest d significand exponent) (hpos : 0 < significand) :
    0 < d.significand :=
  Binary64.significand_pos (h.rounds.pos hpos)

/-- The last digit is no zero. -/
theorem mod_ten_ne (h : Fewest d significand exponent) (hpos : 0 < significand) :
    d.significand % 10 ≠ 0 := by
  intro hzero
  have hlength := decimalLength_pos (h.significand_pos hpos)
  have hle := h.fewest ⟨d.significand / 10, d.exponent + 1⟩ (by
    rw [value_div_ten hzero]
    exact h.rounds)
  have hlt := (decimalLength_le_iff d.significand _).mp le_rfl
  have hshort : decimalLength (d.significand / 10) ≤ decimalLength d.significand - 1 := by
    rw [decimalLength_le_iff, Nat.div_lt_iff_lt_mul (by decide), ← pow_succ,
      Nat.sub_add_cancel hlength]
    exact hlt
  exact absurd (hle.trans hshort) (by omega)

/-- Between two even decimals around a number with the same count of digits there is one more, and it
is nearer. -/
theorem not_lt_of_even (h : Fewest d significand exponent) (hpos : 0 < significand)
    (hrounds : RoundsTo d'.value significand exponent)
    (hlength : decimalLength d.significand = decimalLength d'.significand)
    (hmiddle : d.value + d'.value = 2 * (significand * 2 ^ exponent))
    (heven : d.significand % 2 = 0) (heven' : d'.significand % 2 = 0) : ¬d.value < d'.value := by
  intro hlt
  have hsignificand := h.significand_pos hpos
  have hexponent : d.exponent ≤ d'.exponent :=
    exponent_le_of_value_le hsignificand (Binary64.significand_pos (hrounds.pos hpos)) hlength hlt.le
  have hten : (0 : ℚ) < 10 ^ d.exponent := by positivity
  have hnext : (⟨d.significand + 1, d.exponent⟩ : Decimal).value = d.value + 10 ^ d.exponent := by
    rw [Decimal.value, Decimal.value]
    push_cast
    ring
  have hbelow : d.value + 10 ^ d.exponent < d'.value := by
    have hgap : d.significand + 2 ≤ d'.significand * 10 ^ (d'.exponent - d.exponent).toNat := by
      have hless : d.significand < d'.significand * 10 ^ (d'.exponent - d.exponent).toNat := by
        rw [Decimal.value, value_eq_mul hexponent, mul_lt_mul_iff_left₀ hten] at hlt
        exact_mod_cast hlt
      have hproduct : d'.significand * 10 ^ (d'.exponent - d.exponent).toNat % 2 = 0 := by
        rw [Nat.mul_mod, heven', Nat.zero_mul, Nat.zero_mod]
      omega
    calc d.value + 10 ^ d.exponent < (d.significand + 2 : Nat) * 10 ^ d.exponent := by
          rw [Decimal.value]
          push_cast
          linarith
      _ ≤ d'.value := by
          rw [value_eq_mul hexponent]
          gcongr
  have hcount : decimalLength (d.significand + 1) = decimalLength d.significand := by
    have hless := (decimalLength_le_iff d.significand _).mp le_rfl
    have htens : 10 ^ decimalLength d.significand % 2 = 0 := by
      rw [← Nat.sub_add_cancel (decimalLength_pos hsignificand), pow_succ]
      omega
    refine le_antisymm ((decimalLength_le_iff _ _).mpr (by omega)) ?_
    rw [decimalLength_le_iff]
    exact (Nat.lt_succ_self _).trans ((decimalLength_le_iff _ _).mp le_rfl)
  have hnearest := h.nearest ⟨d.significand + 1, d.exponent⟩
    (h.rounds.between hrounds (by rw [hnext]; linarith) (by rw [hnext]; exact hbelow.le)) hcount
  rw [hnext, abs_of_neg (by linarith)] at hnearest
  refine absurd hnearest (not_le.mpr (abs_lt.mpr ⟨?_, ?_⟩)) <;> linarith

theorem unique (h : Fewest d significand exponent) (h' : Fewest d' significand exponent)
    (hpos : 0 < significand) : d = d' := by
  have hlength := le_antisymm (h.fewest d' h'.rounds) (h'.fewest d h.rounds)
  have hdistance := le_antisymm (h.nearest d' h'.rounds hlength.symm) (h'.nearest d h.rounds hlength)
  by_contra hne
  have heven := h.even d' h'.rounds hlength.symm hdistance.symm (Ne.symm hne)
  have heven' := h'.even d h.rounds hlength hdistance hne
  have hvalue : d.value ≠ d'.value := fun hvalue =>
    hne (eq_of_value_eq (h.significand_pos hpos) (h'.significand_pos hpos) hlength hvalue)
  -- The two lie on either side of the number.
  have hmiddle : d.value + d'.value = 2 * (significand * 2 ^ exponent) := by
    rcases abs_eq_abs.mp hdistance with hsame | hopposite
    · exact absurd (sub_left_injective hsame) hvalue
    · linarith
  rcases lt_or_gt_of_ne hvalue with hlt | hgt
  · exact h.not_lt_of_even hpos h'.rounds hlength hmiddle heven heven' hlt
  · exact h'.not_lt_of_even hpos h.rounds hlength.symm (by linarith) heven' heven hgt

end Fewest

/-! ### Decimals and candidates -/

section

variable {significand : Nat} {exponent : Int} (hpos : 0 < significand)

include hpos

/-- A decimal that is rounded to a number lies beyond one of the neighbours that the number has on the
grid for the decimal's count of digits. -/
theorem beyond_neighbour {d : Decimal} (h : RoundsTo d.value significand exponent) {low : Nat}
    {place : Int} (hplace : place = point significand exponent - decimalLength d.significand)
    (hlow : (low : ℚ) * 10 ^ place ≤ significand * 2 ^ exponent)
    (hhigh : (significand * 2 ^ exponent : ℚ) < (low + 1 : Nat) * 10 ^ place) :
    RoundsTo (low * 10 ^ place) significand exponent ∧ d.value ≤ low * 10 ^ place ∨
      RoundsTo ((low + 1 : Nat) * 10 ^ place) significand exponent ∧
        (low + 1 : Nat) * 10 ^ place ≤ d.value := by
  have hself := roundsTo_self significand exponent
  have hten : (0 : ℚ) < 10 ^ place := by positivity
  have hsignificand := significand_pos (h.pos hpos)
  have hlength := decimalLength_pos hsignificand
  by_cases hfirst : (decimalLength d.significand : Int) + d.exponent < point significand exponent
  · -- The power of ten at the first digit of the number lies between.
    have hpower : (10 : ℚ) ^ (point significand exponent - 1) =
        (10 ^ (decimalLength d.significand - 1) : Nat) * 10 ^ place := by
      rw [Nat.cast_pow, Nat.cast_ofNat, ← zpow_natCast, ← zpow_add₀ (by norm_num)]
      congr 1
      omega
    have hbelow : d.value ≤ 10 ^ (point significand exponent - 1) :=
      (value_spec hsignificand).2.le.trans (zpow_le_zpow_right₀ (by norm_num) (by omega))
    have hmultiple : (10 : ℚ) ^ (point significand exponent - 1) ≤ low * 10 ^ place := by
      have hlt := (point_spec hpos exponent).1.trans_lt hhigh
      rw [hpower, mul_lt_mul_iff_left₀ hten] at hlt
      rw [hpower]
      gcongr
      exact Nat.lt_succ_iff.mp (by exact_mod_cast hlt)
    have hle := hbelow.trans hmultiple
    exact .inl ⟨h.between hself hle hlow, hle⟩
  · have hvalue := @value_eq_mul d place (by omega)
    by_cases hside : d.significand * 10 ^ (d.exponent - place).toNat ≤ low
    · have hle : d.value ≤ low * 10 ^ place := by
        rw [hvalue]
        gcongr
      exact .inl ⟨h.between hself hle hlow, hle⟩
    · have hle : (low + 1 : Nat) * 10 ^ place ≤ d.value := by
        rw [hvalue]
        gcongr
        omega
      exact .inr ⟨hself.between h hhigh.le hle, hle⟩

/-- A count of digits without a candidate is ruled out for all decimals. -/
theorem lt_decimalLength {d : Decimal} (h : RoundsTo d.value significand exponent) {k : Nat}
    (hnone : ∀ j < k, candidate? significand exponent (j + 1) = none) :
    k < decimalLength d.significand := by
  by_contra hle
  have hlength := decimalLength_pos (significand_pos (h.pos hpos))
  have hcandidate := hnone (decimalLength d.significand - 1) (by omega)
  rw [Nat.sub_add_cancel hlength] at hcandidate
  obtain ⟨low, hlow, hhigh, hcases⟩ :=
    candidate?_cases hpos exponent (decimalLength d.significand) rfl
  rcases hcases with ⟨-, hrounds, hnext⟩ | ⟨n, hsome, -⟩
  · rcases beyond_neighbour hpos h rfl hlow hhigh with ⟨hr, -⟩ | ⟨hr, -⟩
    · exact hrounds hr
    · exact hnext hr
  · rw [hcandidate] at hsome
    cases hsome

end

/-! ### The search ends at the decimal -/

namespace Chosen

variable {significand low n : Nat} {exponent place : Int}

theorem le_succ {allowed : Nat → Prop} {x : ℚ} (h : Chosen allowed x place low n) :
    n ≤ low + 1 := by
  cases h <;> omega

/-- What is chosen is as near as anything beyond the two multiples, and another number that is as near
lies halfway. -/
theorem nearest (h : Chosen (fun n => RoundsTo (n * 10 ^ place) significand exponent)
      (significand * 2 ^ exponent) place low n) {y : ℚ}
    (hlow : (low : ℚ) * 10 ^ place ≤ significand * 2 ^ exponent)
    (hhigh : (significand * 2 ^ exponent : ℚ) < (low + 1 : Nat) * 10 ^ place)
    (hbeyond : RoundsTo (low * 10 ^ place) significand exponent ∧ y ≤ low * 10 ^ place ∨
      RoundsTo ((low + 1 : Nat) * 10 ^ place) significand exponent ∧
        (low + 1 : Nat) * 10 ^ place ≤ y) :
    |(n : ℚ) * 10 ^ place - significand * 2 ^ exponent| ≤ |y - significand * 2 ^ exponent| ∧
      (|y - significand * 2 ^ exponent| = |(n : ℚ) * 10 ^ place - significand * 2 ^ exponent| →
        y = n * 10 ^ place ∨
          2 * (significand * 2 ^ exponent : ℚ) = (2 * low + 1) * 10 ^ place ∧
            RoundsTo (low * 10 ^ place) significand exponent ∧ n % 2 = 0) := by
  have hnext : ((low + 1 : Nat) : ℚ) * 10 ^ place = low * 10 ^ place + 10 ^ place := by
    push_cast
    ring
  have hmiddle : (2 * low + 1 : ℚ) * 10 ^ place = 2 * (low * 10 ^ place) + 10 ^ place := by ring
  rw [hmiddle]
  rcases hbeyond with ⟨hrounds, hle⟩ | ⟨hrounds, hle⟩
  · rw [abs_of_nonpos (by linarith : y - significand * 2 ^ exponent ≤ 0)]
    cases h with
    | low rounds near =>
      rw [abs_of_nonpos (by linarith : (low : ℚ) * 10 ^ place - significand * 2 ^ exponent ≤ 0)]
      exact ⟨by linarith, fun heq => .inl (by linarith)⟩
    | high rounds near =>
      obtain ⟨hnear, htie⟩ := near hrounds
      rw [hmiddle] at hnear htie
      rw [abs_of_nonneg (by linarith)]
      refine ⟨by linarith, fun heq => ?_⟩
      have hhalf : 2 * (significand * 2 ^ exponent : ℚ) = 2 * (low * 10 ^ place) + 10 ^ place := by
        linarith
      exact .inr ⟨hhalf, hrounds, htie hhalf⟩
  · rw [abs_of_nonneg (by linarith : 0 ≤ y - significand * 2 ^ exponent)]
    cases h with
    | low rounds near =>
      obtain ⟨hnear, htie⟩ := near hrounds
      rw [hmiddle] at hnear htie
      rw [abs_of_nonpos (by linarith)]
      refine ⟨by linarith, fun heq => ?_⟩
      have hhalf : 2 * (significand * 2 ^ exponent : ℚ) = 2 * (low * 10 ^ place) + 10 ^ place := by
        linarith
      exact .inr ⟨hhalf, rounds, htie hhalf⟩
    | high rounds near =>
      rw [abs_of_nonneg (by linarith)]
      exact ⟨by linarith, fun heq => .inl (by linarith)⟩

end Chosen

section

variable {significand : Nat} {exponent : Int} (canonical : Canonical significand exponent)

include canonical

/-- Nine times a power of ten is not rounded to a number halfway between it and ten times the power.
Such a number would be among the least ones, and five would divide a power of two. -/
theorem not_halfway_nine {place : Int} (h : RoundsTo ((9 : Nat) * 10 ^ place) significand exponent) :
    2 * (significand * 2 ^ exponent : ℚ) ≠ 19 * 10 ^ place := by
  intro htie
  have hpower : (0 : ℚ) < 2 ^ exponent := by positivity
  have hfine : (10 : ℚ) ^ place ≤ 2 ^ exponent := by
    have hgap : gapBelow significand exponent * 2 ^ exponent ≤ 1 / 2 * 2 ^ exponent := by
      gcongr
      exact gapBelow_le _ _
    have hlow := h.low
    rw [sub_mul] at hlow
    push_cast at hlow
    linarith
  have hsmall : significand < 10 := by
    have hlt : (significand : ℚ) * 2 ^ exponent < 10 * 2 ^ exponent := by linarith
    exact_mod_cast lt_of_mul_lt_mul_right hlt hpower.le
  have hleast : exponent = minExponent := canonical.normal.resolve_left (by omega)
  have hplace : place < 0 := by
    by_contra hsign
    have hone : (1 : ℚ) ≤ 10 ^ place := one_le_zpow₀ (by norm_num) (by omega)
    have hless : (2 : ℚ) ^ exponent < 1 := zpow_lt_one_of_neg₀ (by norm_num) (by rw [hleast]; decide)
    linarith
  -- In natural numbers, five divides the left side and not the right one.
  have hproduct : 2 * significand * 10 ^ (-place).toNat = 19 * 2 ^ (-exponent).toNat := by
    have htwo : (2 : ℚ) ^ (-exponent).toNat * 2 ^ exponent = 1 := by
      rw [pow_toNat (by rw [hleast]; decide), ← zpow_add₀ two_ne_zero, neg_add_cancel, zpow_zero]
    have hten : (10 : ℚ) ^ (-place).toNat * 10 ^ place = 1 := by
      rw [pow_toNat (by omega), ← zpow_add₀ (by norm_num), neg_add_cancel, zpow_zero]
    have hscaled : (2 * significand * 10 ^ (-place).toNat : ℚ) = 19 * 2 ^ (-exponent).toNat := by
      calc (2 * significand * 10 ^ (-place).toNat : ℚ)
          = 2 * (significand * 2 ^ exponent) * 10 ^ (-place).toNat * 2 ^ (-exponent).toNat := by
            linear_combination (-(2 * significand * 10 ^ (-place).toNat : ℚ)) * htwo
        _ = 19 * 2 ^ (-exponent).toNat := by
            rw [htie]
            linear_combination (19 * 2 ^ (-exponent).toNat : ℚ) * hten
    exact_mod_cast hscaled
  have hdivides : 5 ∣ 19 * 2 ^ (-exponent).toNat := by
    rw [← hproduct]
    exact ((by decide : 5 ∣ 10).trans (dvd_pow_self 10 (by omega))).mul_left _
  rcases (Nat.Prime.dvd_mul (by decide)).mp hdivides with hnineteen | htwo
  · exact absurd hnineteen (by decide)
  · exact absurd (Nat.Prime.dvd_of_dvd_pow (by decide) htwo) (by decide)

variable (hpos : 0 < significand)

include hpos

/-- The shortest decimal is the one of the first candidate. Only ten loses its zero. -/
theorem shortest_cases :
    ∃ (k n low : Nat) (place : Int), place = point significand exponent - (k + 1 : Nat) ∧
      (∀ j < k, candidate? significand exponent (j + 1) = none) ∧
      (low : ℚ) * 10 ^ place ≤ significand * 2 ^ exponent ∧
      (significand * 2 ^ exponent : ℚ) < (low + 1 : Nat) * 10 ^ place ∧
      Chosen (fun n => RoundsTo (n * 10 ^ place) significand exponent) (significand * 2 ^ exponent)
        place low n ∧
      (shortest significand exponent).value = n * 10 ^ place ∧
      decimalLength (shortest significand exponent).significand = k + 1 ∧
      ((shortest significand exponent).significand = n ∨ k = 0 ∧ low = 9) := by
  obtain ⟨k, n, -, hn, hnone, heq⟩ := shortest_search canonical hpos
  obtain ⟨place, hplace⟩ : ∃ place, place = point significand exponent - (k + 1 : Nat) := ⟨_, rfl⟩
  obtain ⟨low, hlow, hhigh, hcases⟩ := candidate?_cases hpos exponent (k + 1) hplace
  have hchosen : Chosen (fun n => RoundsTo (n * 10 ^ place) significand exponent)
      (significand * 2 ^ exponent) place low n := by
    rcases hcases with ⟨hcandidate, -⟩ | ⟨n', hcandidate, hchosen⟩
    · rw [hn] at hcandidate
      cases hcandidate
    · rwa [Option.some.inj (hn.symm.trans hcandidate)]
  have hlength : k < decimalLength (shortest significand exponent).significand :=
    lt_decimalLength hpos (roundsTo_shortest canonical hpos) hnone
  have hshift : (10 : ℚ) ^ point significand exponent = (10 ^ (k + 1) : Nat) * 10 ^ place := by
    rw [hplace, Nat.cast_pow, Nat.cast_ofNat, ← zpow_natCast, ← zpow_add₀ (by norm_num),
      add_sub_cancel]
  have hbound : low < 10 ^ (k + 1) := by
    have hlt := hlow.trans_lt (point_spec hpos exponent).2
    rw [hshift, mul_lt_mul_iff_left₀ (by positivity)] at hlt
    exact_mod_cast hlt
  rw [← hplace] at heq
  have hvalue : (shortest significand exponent).value = n * 10 ^ place := by
    rw [heq, value_dropZeros]
    rfl
  refine ⟨k, n, low, place, hplace, hnone, hlow, hhigh, hchosen, hvalue, ?_⟩
  have hle := hchosen.le_succ
  by_cases hzero : n % 10 = 0
  · -- With a zero at its end it has a digit less on the next coarser grid, so it is a power of ten.
    have hcoarse := lt_decimalLength (d := ⟨n / 10, place + 1⟩) hpos (by
      rw [@value_div_ten ⟨n, place⟩ hzero]
      exact hchosen.isAllowed) hnone
    rw [← not_le, decimalLength_le_iff, not_lt, Nat.le_div_iff_mul_le (by decide), ← pow_succ]
      at hcoarse
    have hpower : n = 10 ^ (k + 1) := by omega
    have hone := lt_decimalLength (d := ⟨1, point significand exponent⟩) hpos (by
      rw [Decimal.value, Nat.cast_one, one_mul, hshift, ← hpower]
      exact hchosen.isAllowed) hnone
    have hk : k = 0 := by
      by_contra hk
      rw [← not_le, decimalLength_le_iff] at hone
      exact hone (Nat.one_lt_pow hk (by decide))
    subst hk
    subst hpower
    refine ⟨le_antisymm ?_ hlength, .inr ⟨rfl, by omega⟩⟩
    have hstripped : (shortest significand exponent).significand = 1 := by
      rw [heq]
      simp [dropZeros]
    rw [hstripped, decimalLength_le_iff]
    decide
  · have hsame : (shortest significand exponent).significand = n := by
      rw [heq, dropZeros, if_neg hzero]
    refine ⟨le_antisymm ?_ hlength, .inl hsame⟩
    rw [hsame, decimalLength_le_iff]
    refine lt_of_le_of_ne (by omega) fun hpower => hzero ?_
    rw [hpower, pow_succ, Nat.mul_mod_left]

/-- The search finds the decimal with the fewest digits. -/
theorem fewest_shortest : Fewest (shortest significand exponent) significand exponent := by
  obtain ⟨k, n, low, place, hplace, hnone, hlow, hhigh, hchosen, hvalue, hlength, hsame⟩ :=
    shortest_cases canonical hpos
  have hrounds := roundsTo_shortest canonical hpos
  have hnearest : ∀ d : Decimal, RoundsTo d.value significand exponent →
      decimalLength d.significand = decimalLength (shortest significand exponent).significand → _ :=
    fun d hd hd' =>
      hchosen.nearest hlow hhigh
        (beyond_neighbour hpos hd (by rw [hd', hlength, hplace]) hlow hhigh)
  refine ⟨hrounds, ?_, ?_, ?_⟩
  · intro d hd
    rw [hlength]
    exact lt_decimalLength hpos hd hnone
  · intro d hd hd'
    rw [hvalue]
    exact (hnearest d hd hd').1
  · intro d hd hd' hdistance hne
    rw [hvalue] at hdistance
    rcases (hnearest d hd hd').2 hdistance with heq | ⟨hhalf, hbelow, heven⟩
    · exact absurd (eq_of_value_eq (significand_pos (hd.pos hpos))
        (significand_pos (hrounds.pos hpos)) hd' (heq.trans hvalue.symm)) hne
    · rcases hsame with hsame | ⟨rfl, rfl⟩
      · rwa [hsame]
      · refine absurd hhalf ?_
        norm_num
        exact not_halfway_nine canonical hbelow

end

end Unproxy.Binary64
