import Mathlib
import Unproxy.Text.Basic

/-!
# Unproxy.Proofs.Text.Numeral

Numerals read back as the number they were written for.

Main statements:

* `Text.valueIn_ofNat`, `Text.valueIn_hex`: decimal numerals, and hexadecimal ones
  filled with zeros up to a width;
* `Text.all_isDigit_ofNat`, `Text.eq_zero_of_head?_ofNat`: what a decimal numeral
  looks like, a leading zero included;
* `Text.ofNat_valueIn`: digits without a zero in front are a decimal numeral;
* `Text.length_hex_four`: a numeral that fits into its width fills it exactly.
-/

namespace Unproxy

namespace CodePoint

@[simp] theorem val_ofNat {n : Nat} (h : n < 0x110000) : (ofNat n).val = n :=
  Nat.mod_eq_of_lt h

@[simp] theorem ofNat_val (c : CodePoint) : ofNat c.val = c :=
  Fin.ext (Nat.mod_eq_of_lt c.isLt)

/-- A character keeps its number as a code point. -/
theorem val_ofChar (c : Char) : (ofChar c).val = c.toNat := by
  refine val_ofNat ?_
  rcases c.valid with h | ⟨-, h⟩
  · exact Nat.lt_trans h (by decide)
  · exact h

theorem ofChar_inj {c d : Char} : ofChar c = ofChar d ↔ c = d := by
  constructor
  · intro h
    have hval := congrArg Fin.val h
    rw [val_ofChar, val_ofChar] at hval
    exact Char.toNat_inj.mp hval
  · exact congrArg ofChar

/-- The digits below sixteen have the values they are written for. -/
theorem digitValue?_digitChar {d : Nat} (h : d < 16) :
    (ofChar d.digitChar).digitValue? = some d := by
  interval_cases d <;> decide

theorem isDigitOf_digitChar {base d : Nat} (hbase : base ≤ 16) (h : d < base) :
    (ofChar d.digitChar).isDigitOf base = true := by
  have hvalue := digitValue?_digitChar (Nat.lt_of_lt_of_le h hbase)
  simp only [isDigitOf, hvalue, decide_eq_true_eq]
  exact h

theorem isDigit_digitChar {d : Nat} (h : d < 10) : (ofChar d.digitChar).isDigit = true := by
  interval_cases d <;> decide

theorem exists_digitChar {c : CodePoint} (h : c.isDigit = true) :
    ∃ d < 10, c = ofChar d.digitChar := by
  obtain ⟨n, hn⟩ := c
  simp only [isDigit, Bool.and_eq_true, decide_eq_true_eq] at h
  obtain ⟨hlow, hhigh⟩ := h
  refine ⟨n - 0x30, by omega, ?_⟩
  interval_cases n <;> rfl

/-- The digits of base ten are the code points from `0` to `9`. -/
theorem isDigitOf_ten (c : CodePoint) : c.isDigitOf 10 = c.isDigit := by
  unfold isDigitOf digitValue?
  cases hd : c.isDigit with
  | true =>
    simp only [isDigit, Bool.and_eq_true, decide_eq_true_eq] at hd
    simp only [if_true, decide_eq_true_eq]
    omega
  | false =>
    simp only [Bool.false_eq_true, if_false]
    cases hl : c.isLower with
    | true =>
      simp only [isLower, Bool.and_eq_true, decide_eq_true_eq] at hl
      simp only [if_true, decide_eq_false_iff_not]
      omega
    | false =>
      cases hu : c.isUpper with
      | true =>
        simp only [isUpper, Bool.and_eq_true, decide_eq_true_eq] at hu
        simp only [Bool.false_eq_true, if_false, if_true, decide_eq_false_iff_not]
        omega
      | false => simp

/-- The digits of base eight are the code points from `0` to `7`. -/
theorem isDigitOf_eight {c : CodePoint} (h : c.isOctalDigit = true) : c.isDigitOf 8 = true := by
  simp only [isOctalDigit, Bool.and_eq_true, decide_eq_true_eq] at h
  have hdigit : c.isDigit = true := by
    simp only [isDigit, Bool.and_eq_true, decide_eq_true_eq]
    omega
  simp only [isDigitOf, digitValue?, hdigit, if_true, decide_eq_true_eq]
  omega

theorem isAscii_of_isDigit {c : CodePoint} (h : c.isDigit = true) : c.isAscii = true := by
  simp only [isDigit, Bool.and_eq_true, decide_eq_true_eq] at h
  simp only [isAscii, decide_eq_true_eq]
  omega

theorem isAscii_of_isHexDigit {c : CodePoint} (h : c.isHexDigit = true) : c.isAscii = true := by
  simp only [isHexDigit, isDigitOf, digitValue?, isDigit, isLower, isUpper, Bool.and_eq_true,
    decide_eq_true_eq] at h
  simp only [isAscii, decide_eq_true_eq]
  split_ifs at h <;> grind

end CodePoint

namespace Text

theorem all_isDigitOf_ten (t : Text) :
    t.all (CodePoint.isDigitOf 10) = t.all CodePoint.isDigit := by
  rw [funext CodePoint.isDigitOf_ten]

theorem all_isDigitOf_eight {t : Text} (h : t.all CodePoint.isOctalDigit = true) :
    t.all (CodePoint.isDigitOf 8) = true :=
  List.all_eq_true.mpr fun c hc => CodePoint.isDigitOf_eight (List.all_eq_true.mp h c hc)

/-! ### Values of digit rows -/

theorem valueIn_append_singleton (base : Nat) (t : Text) (c : CodePoint) :
    valueIn base (t ++ [c]) = valueIn base t * base + c.digitValue?.getD 0 := by
  simp [valueIn, ofDigits]

/-- Digits behind a row of digits move it up by as many places. -/
theorem valueIn_append (base : Nat) (s t : Text) :
    valueIn base (s ++ t) = valueIn base s * base ^ t.length + valueIn base t := by
  induction t using List.reverseRecOn with
  | nil => simp [valueIn, ofDigits]
  | append_singleton t c ih =>
    rw [← List.append_assoc, valueIn_append_singleton, ih, valueIn_append_singleton,
      List.length_append, List.length_singleton, pow_succ]
    ring

/-- Zeros in front do not count. -/
theorem valueIn_replicate_zero_append (base n : Nat) (t : Text) :
    valueIn base (List.replicate n (CodePoint.ofChar '0') ++ t) = valueIn base t := by
  have hzero : (CodePoint.ofChar '0').digitValue?.getD 0 = 0 := by decide
  induction n with
  | zero => rfl
  | succ n ih =>
    rw [← ih]
    simp [valueIn, ofDigits, List.replicate_succ, hzero]

theorem valueIn_lt {base : Nat} {t : Text} (h : t.all (CodePoint.isDigitOf base) = true) :
    valueIn base t < base ^ t.length := by
  induction t using List.reverseRecOn with
  | nil => simp [valueIn, ofDigits]
  | append_singleton t c ih =>
    simp only [List.all_append, List.all_cons, List.all_nil, Bool.and_true, Bool.and_eq_true] at h
    have hdigit : c.digitValue?.getD 0 < base := by
      have hc := h.2
      unfold CodePoint.isDigitOf at hc
      split at hc
      · rename_i v hv
        rw [hv, Option.getD_some]
        exact of_decide_eq_true hc
      · cases hc
    calc valueIn base (t ++ [c]) = valueIn base t * base + c.digitValue?.getD 0 :=
          valueIn_append_singleton base t c
      _ < (valueIn base t + 1) * base := by rw [Nat.add_mul, Nat.one_mul]; omega
      _ ≤ base ^ t.length * base := Nat.mul_le_mul_right base (ih h.1)
      _ = base ^ (t ++ [c]).length := by rw [List.length_append, List.length_singleton, pow_succ]

/-- The digits of a number in a base stand for that number. -/
theorem valueIn_toDigits {base : Nat} (hlow : 1 < base) (hhigh : base ≤ 16) (n : Nat) :
    valueIn base ((Nat.toDigits base n).map CodePoint.ofChar) = n := by
  induction n using Nat.strong_induction_on with
  | _ n ih =>
    rw [Nat.toDigits_eq_if hlow]
    split
    · rename_i h
      simp [valueIn, ofDigits, CodePoint.digitValue?_digitChar (Nat.lt_of_lt_of_le h hhigh)]
    · rename_i h
      have hmod : n % base < base := Nat.mod_lt n (by omega)
      rw [List.map_append, List.map_singleton, valueIn_append_singleton,
        ih (n / base) (Nat.div_lt_self (by omega) hlow),
        CodePoint.digitValue?_digitChar (Nat.lt_of_lt_of_le hmod hhigh)]
      exact Nat.div_add_mod' n base

theorem mem_toDigits {base : Nat} (hlow : 1 < base) {n : Nat} {c : Char}
    (h : c ∈ Nat.toDigits base n) : ∃ d < base, c = d.digitChar := by
  induction n using Nat.strong_induction_on with
  | _ n ih =>
    rw [Nat.toDigits_eq_if hlow] at h
    split at h
    · rename_i hn
      exact ⟨n, hn, List.mem_singleton.mp h⟩
    · rename_i hn
      rcases List.mem_append.mp h with h | h
      · exact ih (n / base) (Nat.div_lt_self (by omega) hlow) h
      · exact ⟨n % base, Nat.mod_lt n (by omega), List.mem_singleton.mp h⟩

/-! ### Decimal numerals -/

@[simp] theorem valueIn_ofNat (n : Nat) : valueIn 10 (ofNat n) = n :=
  valueIn_toDigits (by decide) (by decide) n

theorem ofNat_ne_nil (n : Nat) : ofNat n ≠ [] := by
  simp [ofNat]

theorem all_isDigit_ofNat (n : Nat) : (ofNat n).all CodePoint.isDigit = true := by
  rw [List.all_eq_true]
  intro c hc
  obtain ⟨d, hd, rfl⟩ := List.mem_map.mp hc
  obtain ⟨k, hk, rfl⟩ := mem_toDigits (by decide) hd
  exact CodePoint.isDigit_digitChar hk

/-- Only the numeral of zero begins with a zero. -/
theorem eq_zero_of_head?_ofNat {n : Nat} (h : (ofNat n).head? = some (CodePoint.ofChar '0')) :
    n = 0 := by
  induction n using Nat.strong_induction_on with
  | _ n ih =>
    rw [ofNat, Nat.toDigits_eq_if (by decide)] at h
    split at h
    · rename_i hn
      simp only [List.map_cons, List.head?_cons, Option.some.injEq, CodePoint.ofChar_inj] at h
      have hdigit : ∀ d < 10, Nat.digitChar d = '0' → d = 0 := by decide
      exact hdigit n hn h
    · rename_i hn
      rw [List.map_append, List.head?_append_of_ne_nil _ (by simp)] at h
      have := ih (n / 10) (Nat.div_lt_self (by omega) (by decide)) h
      omega

/-- Digits without a zero in front are the numeral of the number they stand for. -/
theorem ofNat_valueIn {t : Text} (hne : t ≠ []) (hdigits : t.all CodePoint.isDigit = true)
    (hhead : t.head? = some (CodePoint.ofChar '0') → t.length = 1) : ofNat (valueIn 10 t) = t := by
  induction t using List.reverseRecOn with
  | nil => exact absurd rfl hne
  | append_singleton t c ih =>
    simp only [List.all_append, List.all_cons, List.all_nil, Bool.and_true, Bool.and_eq_true]
      at hdigits
    obtain ⟨d, hd, rfl⟩ : ∃ d < 10, c = CodePoint.ofChar d.digitChar :=
      CodePoint.exists_digitChar hdigits.2
    have hvalue : (CodePoint.ofChar d.digitChar).digitValue?.getD 0 = d := by
      rw [CodePoint.digitValue?_digitChar (by omega), Option.getD_some]
    rw [valueIn_append_singleton, hvalue, ofNat]
    by_cases ht : t = []
    · subst ht
      rw [show valueIn 10 [] * 10 + d = d from Nat.zero_add d, Nat.toDigits_eq_if (by decide),
        if_pos hd]
      rfl
    · have hfirst : t.head? ≠ some (CodePoint.ofChar '0') := by
        intro hzero
        have hlength := hhead (by rw [List.head?_append_of_ne_nil _ ht, hzero])
        rw [List.length_append, List.length_singleton] at hlength
        exact ht (List.length_eq_zero_iff.mp (by omega))
      have hnumeral := ih ht hdigits.1 fun hzero => absurd hzero hfirst
      -- More digits stand in front, and they are not all zeros.
      have hpos : valueIn 10 t ≠ 0 := by
        intro hzero
        rw [hzero] at hnumeral
        exact hfirst (hnumeral ▸ rfl)
      rw [Nat.toDigits_eq_if (by decide), if_neg (by omega),
        show (valueIn 10 t * 10 + d) / 10 = valueIn 10 t by omega,
        show (valueIn 10 t * 10 + d) % 10 = d by omega, List.map_append, List.map_singleton]
      exact congrArg (· ++ [CodePoint.ofChar d.digitChar]) hnumeral

/-! ### Hexadecimal numerals -/

@[simp] theorem valueIn_hex (width n : Nat) : valueIn 16 (hex width n) = n := by
  rw [hex, valueIn_replicate_zero_append]
  exact valueIn_toDigits (by decide) (by decide) n

theorem all_isHexDigit_hex (width n : Nat) : (hex width n).all CodePoint.isHexDigit = true := by
  rw [List.all_eq_true]
  intro c hc
  rcases List.mem_append.mp hc with hc | hc
  · rw [(List.mem_replicate.mp hc).2]
    decide
  · obtain ⟨d, hd, rfl⟩ := List.mem_map.mp hc
    obtain ⟨k, hk, rfl⟩ := mem_toDigits (by decide) hd
    exact CodePoint.isDigitOf_digitChar (by decide) hk

/-- A number of at most four digits takes four. -/
theorem length_hex_four {n : Nat} (h : n < 0x10000) : (hex 4 n).length = 4 := by
  have hle : (Nat.toDigits 16 n).length ≤ 4 :=
    (Nat.length_toDigits_le_iff (by decide) (by decide)).mpr h
  simp only [hex, List.length_append, List.length_replicate, List.length_map]
  omega

/-! ### Numerals are ASCII -/

theorem all_isAscii_ofNat (n : Nat) : (ofNat n).all CodePoint.isAscii = true :=
  List.all_eq_true.mpr fun c hc =>
    CodePoint.isAscii_of_isDigit (List.all_eq_true.mp (all_isDigit_ofNat n) c hc)

theorem all_isAscii_ofInt : ∀ i : Int, (ofInt i).all CodePoint.isAscii = true
  | .ofNat n => all_isAscii_ofNat n
  | .negSucc n => all_isAscii_ofNat (n + 1)

theorem all_isAscii_hex (width n : Nat) : (hex width n).all CodePoint.isAscii = true :=
  List.all_eq_true.mpr fun c hc =>
    CodePoint.isAscii_of_isHexDigit (List.all_eq_true.mp (all_isHexDigit_hex width n) c hc)

end Text

end Unproxy
