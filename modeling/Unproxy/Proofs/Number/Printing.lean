import Mathlib
import Unproxy.Proofs.Number.Fewest
import Unproxy.Proofs.Number.Spelling

/-!
# Unproxy.Proofs.Number.Printing

How the language prints numbers, and which numbers are spelled that way. A double is printed as its
decimal with the fewest digits: positional from `10 ^ (-6)` up to `10 ^ 21`, and with an exponent
elsewhere. Spellings differ from that in two places: integers have all their digits, where the language
prints zeros from the last digit that matters on, and fractions below `10 ^ (-4)` have an exponent.

Main definitions:

* `Decimal.printed`, `Binary64.Printed`: what the language prints;
* `Number.Misprinted`: the numbers with another spelling.

Main statements:

* `Decimal.printed_eq_ofNat_iff`: the decimals that are printed as an integer;
* `Decimal.write_eq_printed_iff`: the fractions that are written as they are printed;
* `Binary64.Fewest.value_of_whole`: the integers below `2 ^ 53` need all their digits;
* `Number.spelling_eq_printed_iff`: the numbers that are spelled as they are printed.
-/

namespace Unproxy

open Binary64 (Canonical Fewest RoundsTo decimalLength pow_toNat signed withSign)
open Syntax.Lexeme (all_isDigit_replicate)

/-! ### The layout of decimals -/

namespace Decimal

/-- The place in front of the first digit, counted from the point. -/
def point (d : Decimal) : Int := (Text.ofNat d.significand).length + d.exponent

/-- Digits with a point behind the first of them, and an exponent with its sign. -/
def scientific (digits : Text) (exponent : Int) : Text :=
  digits.take 1 ++ (if digits.length = 1 then [] else CodePoint.ofChar '.' :: digits.drop 1) ++
    CodePoint.ofChar 'e' :: (if exponent < 0 then '-' else '+') :: Text.ofNat exponent.natAbs

/-- A decimal as the language prints it. -/
def printed (d : Decimal) : Text :=
  let digits := Text.ofNat d.significand
  if digits.length ≤ d.point ∧ d.point ≤ 21 then
    digits ++ List.replicate (d.point - digits.length).toNat (CodePoint.ofChar '0')
  else if 0 < d.point ∧ d.point ≤ 21 then
    digits.take d.point.toNat ++ CodePoint.ofChar '.' :: digits.drop d.point.toNat
  else if -6 < d.point ∧ d.point ≤ 0 then
    "0.".toText ++ List.replicate (-d.point).toNat (CodePoint.ofChar '0') ++ digits
  else scientific digits (d.point - 1)

theorem mem_scientific (digits : Text) (exponent : Int) :
    CodePoint.ofChar 'e' ∈ scientific digits exponent :=
  List.mem_append_right _ List.mem_cons_self

theorem length_ofNat {n : Nat} (h : 0 < n) : (Text.ofNat n).length = decimalLength n := by
  rw [Text.ofNat, List.length_map, decimalLength, if_neg h.ne']

/-- The powers of ten up to a decimal are those behind its point. -/
theorem pow_le_value_iff {d : Decimal} (h : 0 < d.significand) (power : Int) :
    (10 : ℚ) ^ power ≤ d.value ↔ power < d.point := by
  obtain ⟨hleast, hmost⟩ := Binary64.value_spec h
  rw [point, length_ofNat h]
  constructor
  · intro hle
    exact (zpow_lt_zpow_iff_right₀ (by norm_num)).mp (hle.trans_lt hmost)
  · intro hlt
    exact (zpow_le_zpow_right₀ (by norm_num) (by omega)).trans hleast

theorem natCast_value {d : Decimal} (h : 0 ≤ d.exponent) :
    d.value = (d.significand * 10 ^ d.exponent.toNat : Nat) := by
  rw [Binary64.value_eq_mul h, sub_zero, zpow_zero, mul_one]

/-- Zeros behind a numeral multiply it by a power of ten. -/
theorem ofNat_append_zeros {n : Nat} (h : 0 < n) (zeros : Nat) :
    Text.ofNat n ++ List.replicate zeros (CodePoint.ofChar '0') = Text.ofNat (n * 10 ^ zeros) := by
  have hvalue : Text.valueIn 10 (Text.ofNat n ++ List.replicate zeros (CodePoint.ofChar '0')) =
      n * 10 ^ zeros := by
    have hzero := Text.valueIn_replicate_zero_append 10 zeros []
    rw [List.append_nil] at hzero
    rw [Text.valueIn_append, hzero, List.length_replicate, Text.valueIn_ofNat]
    rfl
  rw [← hvalue, Text.ofNat_valueIn (List.append_ne_nil_of_left_ne_nil (Text.ofNat_ne_nil n) _)]
  · rw [List.all_append, Text.all_isDigit_ofNat, all_isDigit_replicate]
    rfl
  · intro hhead
    rw [List.head?_append_of_ne_nil _ (Text.ofNat_ne_nil n)] at hhead
    exact absurd (Text.eq_zero_of_head?_ofNat hhead) h.ne'

/-- Only a decimal that is an integer and not too large is printed without a point and a mark. -/
theorem mem_printed {d : Decimal} (h : ¬(0 ≤ d.exponent ∧ d.point ≤ 21)) :
    CodePoint.ofChar '.' ∈ d.printed ∨ CodePoint.ofChar 'e' ∈ d.printed := by
  have hlength : d.point = (Text.ofNat d.significand).length + d.exponent := rfl
  rw [printed, if_neg (by omega)]
  by_cases hpoint : 0 < d.point ∧ d.point ≤ 21
  · rw [if_pos hpoint]
    exact .inl (by simp)
  · rw [if_neg hpoint]
    by_cases hzeros : -6 < d.point ∧ d.point ≤ 0
    · rw [if_pos hzeros]
      exact .inl (List.mem_append_left _ (List.mem_append_left _ (by decide)))
    · rw [if_neg hzeros]
      exact .inr (mem_scientific _ _)

/-- An integer is printed for a decimal if it is the decimal's value. -/
theorem printed_eq_ofNat_iff {d : Decimal} (h : d.significand % 10 ≠ 0) {i : Nat}
    (small : i < 10 ^ 21) : d.printed = Text.ofNat i ↔ d.value = i := by
  have hpos : 0 < d.significand := Nat.pos_of_ne_zero fun hzero => h (by rw [hzero])
  by_cases hwhole : 0 ≤ d.exponent ∧ d.point ≤ 21
  · have hprinted : d.printed = Text.ofNat (d.significand * 10 ^ d.exponent.toNat) := by
      have hlength : ((Text.ofNat d.significand).length : Int) ≤ d.point := by
        unfold point
        omega
      rw [printed, if_pos ⟨hlength, hwhole.2⟩, ← ofNat_append_zeros hpos, point, add_sub_cancel_left]
    rw [hprinted, natCast_value hwhole.1, Nat.cast_inj]
    constructor
    · intro heq
      rw [← Text.valueIn_ofNat (d.significand * _), heq, Text.valueIn_ofNat]
    · exact congrArg Text.ofNat
  · refine iff_of_false ?_ ?_
    · intro heq
      have hdigit : ∀ c ∈ d.printed, c.isDigit = true := by
        rw [heq]
        exact List.all_eq_true.mp (Text.all_isDigit_ofNat i)
      rcases mem_printed hwhole with hmem | hmem
      · exact absurd (hdigit _ hmem) (by decide)
      · exact absurd (hdigit _ hmem) (by decide)
    · intro hvalue
      refine hwhole ⟨?_, ?_⟩
      · -- Behind the point the last digit would have to be a zero.
        by_contra hsign
        have hproduct : d.significand = i * 10 ^ (-d.exponent).toNat := by
          have hscaled : (d.significand : ℚ) = i * 10 ^ (-d.exponent).toNat := by
            rw [← hvalue, value, pow_toNat (by omega), mul_assoc, ← zpow_add₀ (by norm_num),
              add_neg_cancel, zpow_zero, mul_one]
          exact_mod_cast hscaled
        refine h (Nat.mod_eq_zero_of_dvd ?_)
        rw [hproduct]
        exact (dvd_pow_self 10 (by omega)).mul_left i
      · by_contra hpoint
        have hle := (pow_le_value_iff hpos 21).mpr (by omega)
        rw [hvalue] at hle
        exact absurd small (Nat.not_lt.mpr (by exact_mod_cast hle))

theorem writeExponent_eq {digits : Text} (h : digits ≠ []) (exponent : Int) :
    writeExponent ⟨1⟩ digits exponent = scientific digits exponent := by
  have hzeros : 1 - (Text.ofNat exponent.natAbs).length = 0 :=
    Nat.sub_eq_zero_of_le (List.length_pos_of_ne_nil (Text.ofNat_ne_nil _))
  match digits, h with
  | [c], _ => simp [writeExponent, scientific, hzeros]
  | c :: c' :: r, _ => simp [writeExponent, scientific, hzeros]

/-- A fraction, or an integer that is too large, is written as it is printed unless it has too many
zeros behind the point. -/
theorem write_eq_printed_iff {d : Decimal} (h : 21 < d.point ∨ d.point ≤ 16 ∧ d.exponent < 0) :
    d.write ⟨1⟩ = d.printed ↔ ¬(-6 < d.point ∧ d.point ≤ -4) := by
  have hwrite : d.write ⟨1⟩ = if -4 < d.point ∧ d.point ≤ 16 then
      writePositional (Text.ofNat d.significand) d.point
      else writeExponent ⟨1⟩ (Text.ofNat d.significand) (d.point - 1) := by
    unfold write
    refine if_congr ?_ rfl rfl
    rw [Bool.and_eq_true, decide_eq_true_eq, decide_eq_true_eq]
    rfl
  have hlength : d.point = (Text.ofNat d.significand).length + d.exponent := rfl
  rw [hwrite, writeExponent_eq (Text.ofNat_ne_nil _), printed]
  by_cases hscale : 21 < d.point ∨ d.point ≤ -6
  · rw [if_neg (by omega), if_neg (by omega), if_neg (by omega), if_neg (by omega)]
    exact iff_of_true rfl (by omega)
  by_cases hzeros : d.point ≤ -4
  · rw [if_neg (by omega), if_neg (by omega), if_neg (by omega), if_pos (by omega)]
    refine iff_of_false (fun heq => ?_) (by omega)
    -- The one has a mark, and the other has not.
    have hmark : CodePoint.ofChar 'e' ∈ "0.".toText ++
        List.replicate (-d.point).toNat (CodePoint.ofChar '0') ++ Text.ofNat d.significand := by
      rw [← heq]
      exact mem_scientific _ _
    rcases List.mem_append.mp hmark with hmark | hmark
    · rcases List.mem_append.mp hmark with hmark | hmark
      · exact absurd hmark (by decide)
      · exact absurd (List.eq_of_mem_replicate hmark) (by decide)
    · exact absurd (List.all_eq_true.mp (Text.all_isDigit_ofNat _) _ hmark) (by decide)
  · rw [if_pos (by omega), if_neg (by omega), writePositional]
    refine iff_of_true ?_ (by omega)
    by_cases hbelow : d.point ≤ 0
    · rw [if_pos hbelow, if_neg (by omega), if_pos (by omega)]
    · rw [if_neg hbelow, if_neg (by omega), if_pos (by omega)]

end Decimal

/-! ### Doubles as they are printed -/

namespace Binary64

/-- What the language prints for a finite double. -/
inductive Printed : Binary64 → Text → Prop
  | zero (negative : Bool) (exponent : Int) : Printed (.finite negative 0 exponent) "0".toText
  | nonzero {negative : Bool} {significand : Nat} {exponent : Int} {d : Decimal}
      (pos : 0 < significand) (fewest : Fewest d significand exponent) :
      Printed (.finite negative significand exponent) (withSign negative d.printed)

theorem Printed.unique {f : Binary64} {t t' : Text} (h : f.Printed t) (h' : f.Printed t') :
    t = t' := by
  cases h with
  | zero =>
    cases h' with
    | zero => rfl
    | nonzero pos => exact absurd pos (lt_irrefl 0)
  | nonzero pos fewest =>
    cases h' with
    | zero => exact absurd pos (lt_irrefl 0)
    | nonzero _ fewest' => rw [fewest.unique fewest' pos]

namespace Fewest

variable {d : Decimal} {significand : Nat} {exponent : Int} (h : Fewest d significand exponent)
  (canonical : Canonical significand exponent) (hpos : 0 < significand)

include h hpos

/-- Beyond `10 ^ 21` a decimal is printed with an exponent: that power has one digit, so nothing below
it is taken for a number above it. -/
theorem point_of_large (large : (10 : ℚ) ^ (21 : Int) ≤ significand * 2 ^ exponent) :
    21 < d.point := by
  rw [← Decimal.pow_le_value_iff (h.significand_pos hpos)]
  by_contra hbelow
  have hvalue : (⟨1, 21⟩ : Decimal).value = 10 ^ (21 : Int) := by
    rw [Decimal.value, Nat.cast_one, one_mul]
  have hrounds : RoundsTo (⟨1, 21⟩ : Decimal).value significand exponent := by
    rw [hvalue]
    exact h.rounds.between (roundsTo_self significand exponent) (not_le.mp hbelow).le large
  have hlength : decimalLength 1 = decimalLength d.significand :=
    le_antisymm (decimalLength_pos (h.significand_pos hpos)) (h.fewest _ hrounds)
  have hnearest := h.nearest _ hrounds hlength
  rw [hvalue, abs_of_nonpos (by linarith), abs_of_nonpos (by linarith)] at hnearest
  linarith

include canonical

/-- A fraction has digits behind the point, and not too many before it. -/
theorem point_of_fraction {negative : Bool}
    (fraction : (finite negative significand exponent).integer? = none) :
    d.point ≤ 16 ∧ d.exponent < 0 := by
  have hexponent : exponent < 0 := by
    by_contra hsign
    have hsome := @isSome_integer?_finite negative significand exponent (.inl (by omega))
    rw [fraction] at hsome
    cases hsome
  constructor
  · by_contra hpoint
    have hle := (Decimal.pow_le_value_iff (h.significand_pos hpos) 16).mpr (by omega)
    have hsignificand : (significand : ℚ) + 1 ≤ 2 ^ 53 := by
      exact_mod_cast canonical.significand_lt
    have hupper : d.value ≤ 2 ^ 53 * 2 ^ (-1 : Int) := by
      calc d.value ≤ (significand + 1 / 2) * 2 ^ exponent := h.rounds.high
        _ ≤ 2 ^ 53 * 2 ^ (-1 : Int) := by
            gcongr
            · linarith
            · exact one_le_two
            · omega
    exact absurd (hle.trans hupper) (by norm_num)
  · -- A decimal without them is an integer, and the double nearest to an integer is one.
    by_contra hsign
    have hrounds := h.rounds
    have hpositive := h.rounds.pos hpos
    rw [Decimal.natCast_value (by omega)] at hrounds hpositive
    have hratio := ofRatio_of_roundsTo negative (by exact_mod_cast hpositive) Nat.one_pos canonical
      (by rwa [Nat.cast_one, div_one])
    have hsome := isSome_integer?_ofRatio (by rw [hratio]; rfl)
    rw [hratio, fraction] at hsome
    cases hsome

/-- An integer below `2 ^ 53` is its own decimal: what is rounded to it is at most a half away, so
neither another integer nor a shorter decimal is. -/
theorem value_of_whole {i : Nat} (whole : (significand * 2 ^ exponent : ℚ) = i) (small : i < 2 ^ 53) :
    d.value = i := by
  have hsignificand := h.significand_pos hpos
  have hsmall : (i : ℚ) < 2 ^ 53 := by exact_mod_cast small
  have hexponent : exponent ≤ 0 := by
    by_contra hsign
    have hnormal : 2 ^ 52 ≤ significand := canonical.normal.resolve_right (by
      intro hleast
      rw [hleast] at hsign
      exact hsign (by decide))
    have hlarge : (2 : ℚ) ^ 52 * 2 ^ (1 : Int) ≤ significand * 2 ^ exponent := by
      gcongr
      · exact_mod_cast hnormal
      · exact one_le_two
      · omega
    rw [whole] at hlarge
    norm_num at hlarge hsmall
    linarith
  obtain ⟨hlow, hhigh⟩ : (i : ℚ) - 1 / 2 ≤ d.value ∧ d.value ≤ i + 1 / 2 := by
    have hpower : (0 : ℚ) < 2 ^ exponent := by positivity
    have hunit : (2 : ℚ) ^ exponent ≤ 1 := zpow_le_one_of_nonpos₀ one_le_two hexponent
    have hgap : gapBelow significand exponent * 2 ^ exponent ≤ 1 / 2 * 2 ^ exponent := by
      gcongr
      exact gapBelow_le _ _
    have hleast := h.rounds.low
    have hmost := h.rounds.high
    rw [sub_mul, whole] at hleast
    rw [add_mul, whole] at hmost
    exact ⟨by linarith, by linarith⟩
  have hvalue : (⟨i, 0⟩ : Decimal).value = i := by rw [Decimal.value, zpow_zero, mul_one]
  have hself : RoundsTo (⟨i, 0⟩ : Decimal).value significand exponent := by
    rw [hvalue, ← whole]
    exact roundsTo_self significand exponent
  rcases (h.fewest _ hself).eq_or_lt with hlength | hlength
  · have hnearest := h.nearest _ hself hlength.symm
    rw [hvalue, whole, sub_self, abs_zero] at hnearest
    exact sub_eq_zero.mp (abs_nonpos_iff.mp hnearest)
  by_cases hsign : 0 ≤ d.exponent
  · rw [Decimal.natCast_value hsign] at hlow hhigh ⊢
    have hle : d.significand * 10 ^ d.exponent.toNat < i + 1 := by
      exact_mod_cast (show ((d.significand * 10 ^ d.exponent.toNat : Nat) : ℚ) < i + 1 by linarith)
    have hge : i < d.significand * 10 ^ d.exponent.toNat + 1 := by
      exact_mod_cast (show (i : ℚ) < (d.significand * 10 ^ d.exponent.toNat : Nat) + 1 by linarith)
    exact congrArg Nat.cast (by omega)
  · -- With fewer digits, and some of them behind the point, it is a tenth of the integer at most.
    have hpositive : 0 < i := by
      refine Nat.pos_of_ne_zero fun hzero => ?_
      have hvalue : (0 : ℚ) < significand * 2 ^ exponent := by positivity
      rw [whole, hzero, Nat.cast_zero] at hvalue
      exact lt_irrefl _ hvalue
    have hcount := decimalLength_pos hsignificand
    have hmost : d.value < 10 ^ ((decimalLength d.significand : Int) - 1) :=
      (value_spec hsignificand).2.trans_le (zpow_le_zpow_right₀ (by norm_num) (by omega))
    have hleast : (10 : ℚ) ^ ((decimalLength d.significand : Int) - 1) * 10 ≤ i := by
      rw [← zpow_add_one₀ (by norm_num), sub_add_cancel]
      exact (zpow_le_zpow_right₀ (by norm_num) (by simp only at hlength; omega)).trans
        (decimalLength_spec hpositive).1
    have hone : (1 : ℚ) ≤ 10 ^ ((decimalLength d.significand : Int) - 1) :=
      one_le_zpow₀ (by norm_num) (by omega)
    linarith

end Fewest

/-- A finite double is a fraction or an integer. -/
theorem integer?_cases (negative : Bool) (significand : Nat) (exponent : Int) :
    (finite negative significand exponent).integer? = none ∨
      ∃ k : Nat, (finite negative significand exponent).integer? = some (signed negative k) ∧
        (significand * 2 ^ exponent : ℚ) = k := by
  by_cases hmod : (ratio significand exponent).1 % (ratio significand exponent).2 = 0
  · refine .inr ⟨(ratio significand exponent).1 / (ratio significand exponent).2, ?_, ?_⟩
    · simp only [integer?, if_pos hmod]
    · rw [← (ratio_spec significand exponent).2, Nat.cast_div_charZero (Nat.dvd_of_mod_eq_zero hmod)]
  · left
    simp only [integer?, if_neg hmod]

/-- The double nearest to a positive integer is positive, and it is the integer below `2 ^ 53`. -/
theorem ofRatio_whole {negative negative' : Bool} {n significand : Nat} {exponent : Int}
    (hn : 0 < n) (h : ofRatio negative n 1 = .finite negative' significand exponent) :
    0 < significand ∧ (n < 2 ^ 53 → (significand * 2 ^ exponent : ℚ) = n) := by
  rw [ofRatio_eq negative hn.ne'] at h
  by_cases hexponent : exponentFor n 1 ≤ 0
  · have hexact := significandFor_of_nonpos hexponent
    have hvalue : (significandFor n 1 * 2 ^ exponentFor n 1 : ℚ) = n := by
      rw [hexact, Nat.cast_mul, cast_twoTo, pow_toNat (by omega), mul_assoc,
        ← zpow_add₀ two_ne_zero, neg_add_cancel, zpow_zero, mul_one]
    have hpositive : 0 < significandFor n 1 := by
      rw [hexact]
      exact Nat.mul_pos hn (twoTo_pos _)
    split_ifs at h with hcarry
    · cases h
      refine ⟨Nat.pow_pos Nat.two_pos, fun _ => ?_⟩
      rw [← hvalue, hcarry, zpow_add_one₀ two_ne_zero]
      push_cast
      ring
    · cases h
      exact ⟨hpositive, fun _ => hvalue⟩
  · have hmin : minExponent < exponentFor n 1 := by
      have hleast : minExponent = -1074 := rfl
      omega
    refine ⟨?_, fun hsmall => ?_⟩
    · have hlarge := le_significandFor hn Nat.one_pos hmin
      split_ifs at h with hcarry
      · cases h
        exact Nat.pow_pos Nat.two_pos
      · cases h
        omega
    · -- A larger exponent is for larger integers.
      have hscaled := le_scaled hn Nat.one_pos hmin
      have hhalf : (n : ℚ) / (1 : Nat) * 2 ^ (-exponentFor n 1) ≤ n / (1 : Nat) * 2 ^ (-1 : Int) := by
        gcongr
        · exact one_le_two
        · omega
      have hlarge : (2 : ℚ) ^ 53 ≤ n := by
        have hle := hscaled.trans hhalf
        rw [Nat.cast_one, div_one, zpow_neg_one] at hle
        linarith
      exact absurd hsmall (Nat.not_lt.mpr (by exact_mod_cast hlarge))

end Binary64

/-! ### Numbers as they are spelled -/

theorem Text.ofInt_signed (negative : Bool) {k : Nat} (h : 0 < k) :
    ofInt (signed negative k) = withSign negative (ofNat k) := by
  cases negative with
  | false => rfl
  | true =>
    obtain ⟨k, rfl⟩ := Nat.exists_eq_succ_of_ne_zero h.ne'
    rfl

theorem Binary64.withSign_inj {negative : Bool} {t t' : Text} :
    withSign negative t = withSign negative t' ↔ t = t' := by
  cases negative <;> simp [withSign]

namespace Number

open Binary64 (integer?_cases natAbs_signed ofRatio_whole)

/-- The integer that a number is. -/
def whole? : Number → Option Int
  | .int i => some i
  | .float f => f.integer?

/-- The integers below `10 ^ 21` and the finite doubles. -/
inductive Printable : Number → Prop
  | int {i : Int} (small : i.natAbs < 10 ^ 21) : Printable (.int i)
  | float {negative : Bool} {significand : Nat} {exponent : Int}
      (canonical : Canonical significand exponent) :
      Printable (.float (.finite negative significand exponent))

/-- A number that is spelled in another way than it is printed: an integer that needs fewer digits to
be told from the other doubles than it has, or a fraction with four or five zeros behind the point. -/
inductive Misprinted : Number → Prop
  | whole {n : Number} {i : Int} {negative : Bool} {significand : Nat} {exponent : Int} {d : Decimal}
      (isWhole : n.whole? = some i) (small : i.natAbs < 10 ^ 21)
      (isDouble : n.double = .finite negative significand exponent) (pos : 0 < significand)
      (fewest : Fewest d significand exponent) (other : d.value ≠ i.natAbs) : Misprinted n
  | fraction {negative : Bool} {significand : Nat} {exponent : Int} {d : Decimal}
      (isFraction : (Binary64.finite negative significand exponent).integer? = none)
      (fewest : Fewest d significand exponent) (low : 10 ^ (-6 : Int) ≤ d.value)
      (high : d.value < 10 ^ (-4 : Int)) : Misprinted (.float (.finite negative significand exponent))

/-- A number is spelled as an integer, or as the shortest decimal of its double. -/
theorem Printable.spelling_cases {n : Number} (h : n.Printable) :
    ∃ negative significand exponent, n.double = .finite negative significand exponent ∧
      Canonical significand exponent ∧
      ((∃ k : Nat, k < 10 ^ 21 ∧ n.whole? = some (signed negative k) ∧
          n.spelling = .ok (Text.ofInt (signed negative k)) ∧ (0 < significand ↔ 0 < k) ∧
          (k < 2 ^ 53 → (significand * 2 ^ exponent : ℚ) = k)) ∨
        n = .float (.finite negative significand exponent) ∧ 0 < significand ∧
          n.spelling = .ok (withSign negative
            ((Binary64.shortest significand exponent).write ⟨1⟩)) ∧
          ((Binary64.finite negative significand exponent).integer? = none ∨
            ∃ k : Nat, n.whole? = some (signed negative k) ∧ 10 ^ 21 ≤ k ∧
              (significand * 2 ^ exponent : ℚ) = k)) := by
  cases h with
  | @int i small =>
    obtain ⟨significand, exponent, hratio⟩ := Binary64.ofRatio_of_lt (i < 0)
      (n := i.natAbs) (small.trans_le exponentBound_le_overflowBound)
    refine ⟨_, significand, exponent, hratio, Binary64.canonical_of_ofRatio Nat.one_pos hratio,
      .inl ⟨i.natAbs, small, ?_, ?_, ?_⟩⟩
    · rw [Binary64.signed_natAbs]
      rfl
    · rw [Binary64.signed_natAbs, spelling]
      exact if_pos small
    · rcases Nat.eq_zero_or_pos i.natAbs with hzero | hpos
      · rw [hzero] at hratio ⊢
        cases hratio
        simp
      · obtain ⟨hpositive, hexact⟩ := ofRatio_whole hpos hratio
        exact ⟨iff_of_true hpositive hpos, hexact⟩
  | @float negative significand exponent canonical =>
    refine ⟨negative, significand, exponent, rfl, canonical, ?_⟩
    rcases integer?_cases negative significand exponent with hnone | ⟨k, hsome, hvalue⟩
    · have hpos : 0 < significand := by
        refine Nat.pos_of_ne_zero fun hzero => ?_
        have hsome := @Binary64.isSome_integer?_finite negative significand exponent
          (.inr (by rw [hzero]; exact Nat.dvd_zero _))
        rw [hnone] at hsome
        cases hsome
      refine .inr ⟨rfl, hpos, ?_, .inl hnone⟩
      simp only [spelling, floatSpelling, hnone, Binary64.write, if_neg hpos.ne']
    · have hiff : 0 < significand ↔ 0 < k := by
        have hpower : (0 : ℚ) < 2 ^ exponent := by positivity
        rw [← @Nat.cast_pos ℚ, ← mul_pos_iff_of_pos_right hpower, hvalue, Nat.cast_pos]
      by_cases small : k < exponentBound
      · refine .inl ⟨k, small, hsome, ?_, hiff, fun _ => hvalue⟩
        simp only [spelling, floatSpelling, hsome, natAbs_signed, if_pos small]
      · have hpos := hiff.mpr (Nat.pos_of_ne_zero fun hzero => small (by rw [hzero]; decide))
        refine .inr ⟨rfl, hpos, ?_, .inr ⟨k, hsome, Nat.not_lt.mp small, hvalue⟩⟩
        simp only [spelling, floatSpelling, hsome, natAbs_signed, if_neg small, Binary64.write,
          if_neg hpos.ne']

section

variable {negative : Bool} {significand : Nat} {exponent : Int} {d : Decimal}
  (hpos : 0 < significand) (fewest : Fewest d significand exponent)

include hpos fewest

theorem misprinted_iff_of_whole {n : Number} {i : Int} (isWhole : n.whole? = some i)
    (small : i.natAbs < 10 ^ 21) (isDouble : n.double = .finite negative significand exponent) :
    n.Misprinted ↔ d.value ≠ i.natAbs := by
  constructor
  · intro h
    cases h with
    | whole isWhole' small' isDouble' pos fewest' other =>
      obtain rfl := Option.some.inj (isWhole.symm.trans isWhole')
      cases isDouble.symm.trans isDouble'
      rwa [fewest.unique fewest' hpos]
    | fraction isFraction =>
      rw [whole?, isFraction] at isWhole
      cases isWhole
  · exact .whole isWhole small isDouble hpos fewest

theorem misprinted_iff_of_float (hwhole : ∀ i, (Binary64.finite negative significand
      exponent).integer? = some i → 10 ^ 21 ≤ i.natAbs ∧ 21 < d.point) :
    (Number.float (.finite negative significand exponent)).Misprinted ↔
      -6 < d.point ∧ d.point ≤ -4 := by
  have hsignificand := fewest.significand_pos hpos
  constructor
  · intro h
    cases h with
    | whole isWhole small => exact absurd small (Nat.not_lt.mpr (hwhole _ isWhole).1)
    | fraction isFraction fewest' low high =>
      rw [← fewest.unique fewest' hpos] at low high
      have hlow := (Decimal.pow_le_value_iff hsignificand _).mp low
      have hhigh := mt (Decimal.pow_le_value_iff hsignificand _).mpr (not_le.mpr high)
      exact ⟨hlow, not_lt.mp hhigh⟩
  · rintro ⟨hlow, hhigh⟩
    refine .fraction ?_ fewest ((Decimal.pow_le_value_iff hsignificand _).mpr hlow) ?_
    · by_contra hsome
      obtain ⟨i, hi⟩ := Option.ne_none_iff_exists'.mp hsome
      have hlarge := (hwhole i hi).2
      omega
    · rw [← not_le, Decimal.pow_le_value_iff hsignificand]
      exact not_lt.mpr hhigh

end

/-- What is spelled and what is printed, and when they are the same. -/
theorem Printable.exists_printed {n : Number} (h : n.Printable) :
    ∃ t p, n.spelling = .ok t ∧ n.double.Printed p ∧ (t = p ↔ ¬n.Misprinted) ∧
      ∀ i, n.whole? = some i → i.natAbs < 2 ^ 53 → t = p := by
  obtain ⟨negative, significand, exponent, hdouble, canonical, hcases⟩ := h.spelling_cases
  rw [hdouble]
  by_cases hpos : 0 < significand
  · have fewest := Binary64.fewest_shortest canonical hpos
    generalize Binary64.shortest significand exponent = d at hcases fewest
    have hprinted : (Binary64.finite negative significand exponent).Printed
      (withSign negative d.printed) := .nonzero hpos fewest
    rcases hcases with ⟨k, small, hwhole, hspelling, hiff, hexact⟩ | ⟨rfl, -, hspelling, hlarge⟩
    · have hkey : withSign negative (Text.ofNat k) = withSign negative d.printed ↔ d.value = k := by
        rw [Binary64.withSign_inj, eq_comm]
        exact Decimal.printed_eq_ofNat_iff (fewest.mod_ten_ne hpos) small
      rw [Text.ofInt_signed negative (hiff.mp hpos)] at hspelling
      refine ⟨_, _, hspelling, hprinted, ?_, ?_⟩
      · rw [hkey, misprinted_iff_of_whole hpos fewest hwhole (by rwa [natAbs_signed]) hdouble,
          natAbs_signed, not_not]
      · intro i hi hsmall
        obtain rfl := Option.some.inj (hwhole.symm.trans hi)
        rw [natAbs_signed] at hsmall
        exact hkey.mpr (fewest.value_of_whole canonical hpos (hexact hsmall) hsmall)
    · have hwhole : ∀ i, (Binary64.finite negative significand exponent).integer? = some i →
          10 ^ 21 ≤ i.natAbs ∧ 21 < d.point := by
        intro i hi
        rcases hlarge with hnone | ⟨k, hsome, hle, hvalue⟩
        · rw [hnone] at hi
          cases hi
        · obtain rfl := Option.some.inj (hsome.symm.trans hi)
          refine ⟨by rwa [natAbs_signed], fewest.point_of_large hpos ?_⟩
          rw [hvalue]
          exact_mod_cast hle
      have hshape : 21 < d.point ∨ d.point ≤ 16 ∧ d.exponent < 0 := by
        rcases hlarge with hnone | ⟨k, hsome, -⟩
        · exact .inr (fewest.point_of_fraction canonical hpos hnone)
        · exact .inl (hwhole _ hsome).2
      refine ⟨_, _, hspelling, hprinted, ?_, ?_⟩
      · rw [Binary64.withSign_inj, Decimal.write_eq_printed_iff hshape,
          misprinted_iff_of_float hpos fewest hwhole]
      · intro i hi hsmall
        have hle := (hwhole i hi).1
        omega
  · rcases hcases with ⟨k, -, hwhole, hspelling, hiff, -⟩ | ⟨-, hpos', -⟩
    · obtain rfl : k = 0 := Nat.eq_zero_of_not_pos (mt hiff.mpr hpos)
      obtain rfl : significand = 0 := Nat.eq_zero_of_not_pos hpos
      have htext : Text.ofInt (signed negative 0) = "0".toText := by cases negative <;> rfl
      rw [htext] at hspelling
      refine ⟨_, _, hspelling, .zero negative exponent, iff_of_true rfl ?_, fun _ _ _ => rfl⟩
      intro hmisprinted
      cases hmisprinted with
      | whole _ _ isDouble pos =>
        cases hdouble.symm.trans isDouble
        exact absurd pos (lt_irrefl 0)
      | fraction isFraction =>
        rw [whole?, isFraction] at hwhole
        cases hwhole
    · exact absurd hpos' hpos

/-- A number is spelled as the language prints the double nearest to it, unless it is misprinted. The
integers below `2 ^ 53` are not. -/
theorem spelling_eq_printed_iff {n : Number} (h : n.Printable) :
    ∃ t p, n.spelling = .ok t ∧ n.double.Printed p ∧ (∀ q, n.double.Printed q → q = p) ∧
      (t = p ↔ ¬n.Misprinted) ∧ ∀ i, n.whole? = some i → i.natAbs < 2 ^ 53 → t = p := by
  obtain ⟨t, p, hspelling, hprinted, hiff, hsmall⟩ := h.exists_printed
  exact ⟨t, p, hspelling, hprinted, fun q hq => hq.unique hprinted, hiff, hsmall⟩

/-- A fraction with four zeros behind its point, an integer that is no double, and the least integer
above `-2 ^ 53`. -/
theorem spelling_eq_printed_iff_samples :
    let small := Number.float (.finite false 5902958103587057 (-69))
    let large := Number.int 9007199254740993
    let last := Number.int (-9007199254740991)
    (small.spelling = .ok "1e-5".toText ∧ small.double.Printed "0.00001".toText ∧
      small.Misprinted) ∧
    (large.spelling = .ok "9007199254740993".toText ∧
      large.double.Printed "9007199254740992".toText ∧ large.Misprinted) ∧
    last.spelling = .ok "-9007199254740991".toText ∧
      last.double.Printed "-9007199254740991".toText := by
  intro small large last
  have hcanonical : Canonical 5902958103587057 (-69) :=
    ⟨by decide, .inl (by decide), by decide, by decide⟩
  have hspelling : small.spelling = .ok "1e-5".toText := congrArg Except.ok (by decide +kernel)
  have hprinted : small.double.Printed "0.00001".toText := by
    have hshortest : (Binary64.shortest 5902958103587057 (-69)).printed = "0.00001".toText := by
      decide +kernel
    rw [← hshortest]
    exact .nonzero (by decide) (Binary64.fewest_shortest hcanonical (by decide))
  have hspelling' : large.spelling = .ok "9007199254740993".toText :=
    congrArg Except.ok (by decide +kernel)
  have hprinted' : large.double.Printed "9007199254740992".toText := by
    have hdouble : large.double = .finite false 4503599627370496 1 := by decide +kernel
    have hshortest : (Binary64.shortest 4503599627370496 1).printed =
        "9007199254740992".toText := by decide +kernel
    rw [hdouble, ← hshortest]
    exact .nonzero (by decide) (Binary64.fewest_shortest
      ⟨by decide, .inl (by decide), by decide, by decide⟩ (by decide))
  refine ⟨⟨hspelling, hprinted, ?_⟩, ⟨hspelling', hprinted', ?_⟩, ?_⟩
  · obtain ⟨t, p, ht, -, hunique, hiff, -⟩ := spelling_eq_printed_iff (n := small) (.float hcanonical)
    obtain rfl := Except.ok.inj (hspelling.symm.trans ht)
    obtain rfl := hunique _ hprinted
    exact not_not.mp (mt hiff.mpr (by decide))
  · obtain ⟨t, p, ht, -, hunique, hiff, -⟩ := spelling_eq_printed_iff (n := large) (.int (by decide))
    obtain rfl := Except.ok.inj (hspelling'.symm.trans ht)
    obtain rfl := hunique _ hprinted'
    exact not_not.mp (mt hiff.mpr (by decide))
  · obtain ⟨t, p, ht, hp, -, -, hsmall⟩ := spelling_eq_printed_iff (n := last) (.int (by decide))
    have hlast : last.spelling = .ok "-9007199254740991".toText :=
      congrArg Except.ok (by decide +kernel)
    obtain rfl := Except.ok.inj (hlast.symm.trans ht)
    obtain rfl := hsmall _ rfl (by decide)
    exact ⟨hlast, hp⟩

end Number

end Unproxy
