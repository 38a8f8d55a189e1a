import Mathlib
import Unproxy.Table.Code
import Unproxy.Proofs.Number.Rounding
import Unproxy.Proofs.Text.Units

/-!
# Unproxy.Proofs.Table.Code

Rows of codes and the texts they spell. A hole counts zero and an integer counts modulo
`2 ^ 16`; nothing is lost in the text but where its pairs were.

Main definitions:

* `Code.ofUnits`: units as the codes of a raw table.

Main statements:

* `Code.units_of_lt`, `Code.units_of_le`: the units of integers and holes, and that integers beyond
  the range of doubles have none;
* `Code.encode_text`: the text they spell has these units, and every text without unjoined halves
  is spelt by its own.
-/

namespace Unproxy

/-- Integers up to `2 ^ 1023` are within the range of doubles. -/
theorem Binary64.lt_overflowBound {n : Nat} (h : n ≤ 2 ^ 1023) : n < overflowBound := by
  have hbound : 2 ^ 1023 < overflowBound := by decide +kernel
  exact h.trans_lt hbound

namespace Code

/-- Units as the codes of a raw table. -/
def ofUnits (units : List Nat) : List Code := units.map fun u : Nat => some (.int (u : Int))

theorem unit_int {i : Int} (h : i.natAbs < Binary64.overflowBound) :
    unit (some (.int i)) = .ok (i % 0x10000).toNat := by
  cases hdouble : Binary64.ofInt? i with
  | none => exact absurd ((Binary64.ofInt?_eq_none_iff i).mp hdouble) (Nat.not_le.mpr h)
  | some f => simp only [unit, hdouble]

theorem unit_int_of_le {i : Int} (h : Binary64.overflowBound ≤ i.natAbs) :
    unit (some (.int i)) = .error .tooLarge := by
  simp only [unit, (Binary64.ofInt?_eq_none_iff i).mpr h]

/-- The units of integers within the range of doubles and of holes. -/
theorem units_of_lt {codes : List (Option Int)}
    (h : ∀ i, some i ∈ codes → i.natAbs < Binary64.overflowBound) :
    Code.units (codes.map (Option.map .int)) =
      .ok (codes.map fun code => (code.getD 0 % 0x10000).toNat) := by
  induction codes with
  | nil => rfl
  | cons code codes ih =>
    have hunit : unit (code.map .int) = .ok (code.getD 0 % 0x10000).toNat := by
      cases code with
      | none => rfl
      | some i => exact unit_int (h i List.mem_cons_self)
    have hrest := ih fun i hi => h i (List.mem_cons_of_mem code hi)
    unfold Code.units at hrest ⊢
    rw [List.map_cons, List.mapM_cons, hunit, hrest]
    rfl

/-- An integer beyond the range of doubles has no unit. -/
theorem units_of_le {codes : List (Option Int)} {i : Int} (hmem : some i ∈ codes)
    (h : Binary64.overflowBound ≤ i.natAbs) :
    Code.units (codes.map (Option.map .int)) = .error .tooLarge := by
  induction codes with
  | nil => cases hmem
  | cons code codes ih =>
    unfold Code.units at ih ⊢
    rw [List.map_cons, List.mapM_cons]
    rcases List.mem_cons.mp hmem with rfl | hlater
    · rw [Option.map_some, unit_int_of_le h]
      rfl
    · -- What comes first may be beyond the range too.
      rw [ih hlater]
      cases code with
      | none => rfl
      | some j =>
        by_cases hj : j.natAbs < Binary64.overflowBound
        · rw [Option.map_some, unit_int hj]
          rfl
        · rw [Option.map_some, unit_int_of_le (Nat.not_lt.mp hj)]
          rfl

/-- The units of integers and holes. -/
theorem units_integers {codes : List (Option Int)}
    (h : ∀ i, some i ∈ codes → i.natAbs ≤ 2 ^ 1023) :
    Code.units (codes.map (Option.map .int)) =
      .ok (codes.map fun code => (code.getD 0 % 0x10000).toNat) :=
  units_of_lt fun i hi => Binary64.lt_overflowBound (h i hi)

theorem units_ofUnits {units : List Nat} (h : ∀ u ∈ units, u < 0x10000) :
    Code.units (ofUnits units) = .ok units := by
  have hcodes : ofUnits units =
      (units.map fun u : Nat => some (u : Int)).map (Option.map Number.int) := by
    rw [List.map_map]
    rfl
  have hsame : units.map (fun u : Nat => ((u : Int) % 0x10000).toNat) = units := by
    refine (List.map_congr_left fun u hu => ?_).trans (List.map_id units)
    have hlt := h u hu
    show ((u : Int) % 0x10000).toNat = u
    omega
  rw [hcodes, units_integers, List.map_map]
  · exact congrArg Except.ok hsame
  · intro i hi
    obtain ⟨u, hu, heq⟩ := List.mem_map.mp hi
    obtain rfl := Option.some.inj heq
    have hbound : (0x10000 : Nat) ≤ 2 ^ 1023 := by decide +kernel
    rw [Int.natAbs_natCast]
    exact (Nat.le_of_lt (h u hu)).trans hbound

/-- Integers and holes spell a text that has exactly their units, integers being counted modulo
`2 ^ 16` and holes as zero, and that text has no unjoined halves. A text without unjoined halves is
spelt by its own units. -/
theorem encode_text :
    (∀ codes : List (Option Int), (∀ i, some i ∈ codes → i.natAbs ≤ 2 ^ 1023) →
      Code.units (codes.map (Option.map .int)) =
          .ok (codes.map fun code => (code.getD 0 % 0x10000).toNat) ∧
        ∃ t, Code.text (codes.map (Option.map .int)) = .ok t ∧
          Utf16.encode t = codes.map (fun code => (code.getD 0 % 0x10000).toNat) ∧
          Utf16.Joined t) ∧
      ∀ t : Text, Utf16.Joined t → Code.text (ofUnits (Utf16.encode t)) = .ok t := by
  constructor
  · intro codes hcodes
    have hunits := units_integers hcodes
    have hlt : ∀ u ∈ codes.map fun code => (code.getD 0 % 0x10000).toNat, u < 0x10000 := by
      intro u hu
      obtain ⟨code, -, rfl⟩ := List.mem_map.mp hu
      omega
    refine ⟨hunits, _, ?_, Utf16.encode_decode hlt, Utf16.joined_decode hlt⟩
    rw [Code.text, hunits]
    rfl
  · intro t ht
    rw [Code.text, units_ofUnits fun _ => Utf16.encode_lt]
    exact congrArg Except.ok (Utf16.decode_encode ht)

/-- A hole, negative integers and ones beyond the units, a run of high halves of which the last is
joined, a low half before a high one, and a lone half at the end; and the text itself. -/
theorem encode_text_halves :
    let codes : List (Option Int) := [none, some (-1), some 0xD83D, some (0xD83D - 2 ^ 1000),
      some (0xDE00 + 2 ^ 1023 - 2 ^ 16), some 0xDE00, some 0xD83D]
    let t : Text := [0, 0xFFFF, 0xD83D, 0x1F600, 0xDE00, 0xD83D].map CodePoint.ofNat
    Code.text (codes.map (Option.map .int)) = .ok t ∧
      Utf16.encode t = [0, 0xFFFF, 0xD83D, 0xD83D, 0xDE00, 0xDE00, 0xD83D] ∧ Utf16.Joined t ∧
      Code.text (ofUnits (Utf16.encode t)) = .ok t := by
  intro codes t
  have hbound : ∀ i, some i ∈ codes → i.natAbs ≤ 2 ^ 1023 := by
    have hall : (codes.all fun code => code.all fun i => i.natAbs ≤ 2 ^ 1023) = true := by
      decide +kernel
    exact fun i hi => of_decide_eq_true (List.all_eq_true.mp hall (some i) hi)
  obtain ⟨-, t', ht', hunits, hjoined⟩ := encode_text.1 codes hbound
  have htext : Code.text (codes.map (Option.map .int)) = .ok t := by decide +kernel
  obtain rfl : t = t' := Except.ok.inj (htext.symm.trans ht')
  refine ⟨htext, ?_, hjoined, encode_text.2 t hjoined⟩
  rw [hunits]
  decide +kernel

end Code

end Unproxy
