import Mathlib
import Unproxy.Table.Code

/-!
# Unproxy.Proofs.Cipher

The rolling cipher, unit by unit, and why it is its own inverse.

The place in the key moves on with every unit and starts again behind the last byte that
counts, so the byte for a unit is known from the unit's number alone. A unit is changed
only in its low five bits, and whether it is changed depends on three bits above them. So
the second pass changes the same units, each under the same byte of the key.

Main definitions:

* `Cipher.keyAt`: what the key puts on the unit with a number.

Main statements:

* `Cipher.apply_eq_mapIdx`: the cipher unit by unit;
* `Cipher.apply_apply`: applying a key twice gives the units back;
* `Cipher.apply_lt`: units of sixteen bits stay such;
* `Cipher.getElem?_apply`: the three together, with the bits written out.
-/

namespace Unproxy.Cipher

/-! ### One unit -/

theorem and_high_of_lt {byte : Nat} (h : byte < 0x20) : byte &&& 0xE0 = 0 := by
  have hall : ∀ b < 0x20, b &&& 0xE0 = 0 := by decide
  exact hall byte h

/-- The bits that decide whether a unit is changed are never changed. -/
theorem xor_and_high {byte : Nat} (unit : Nat) (h : byte < 0x20) :
    (unit ^^^ byte) &&& 0xE0 = unit &&& 0xE0 := by
  rw [Nat.and_xor_distrib_right, and_high_of_lt h, Nat.xor_zero]

theorem mask_mask {byte : Nat} (unit : Nat) (h : byte < 0x20) :
    mask byte (mask byte unit) = unit := by
  unfold mask
  by_cases hunit : unit &&& 0xE0 = 0
  · simp only [if_pos hunit]
  · simp only [if_neg hunit, xor_and_high unit h]
    rw [Nat.xor_assoc, Nat.xor_self, Nat.xor_zero]

theorem mask_lt {byte unit : Nat} (h : byte < 0x20) (hunit : unit < 0x10000) :
    mask byte unit < 0x10000 := by
  unfold mask
  split
  · exact hunit
  · exact Nat.xor_lt_two_pow (n := 16) hunit (Nat.lt_trans h (by decide))

/-! ### Rows of units -/

/-- What a key puts on the unit with a number: the low five bits of a byte of the key,
nothing if the key is empty. -/
def keyAt (key : Bytes) (i : Nat) : Nat :=
  (key[i % min key.length maxKeyLength]?.map fun byte => byte.toNat &&& 0x1F).getD 0

theorem keyAt_lt (key : Bytes) (i : Nat) : keyAt key i < 0x20 := by
  rw [keyAt]
  cases key[i % min key.length maxKeyLength]? with
  | none => decide
  | some byte => exact Nat.lt_of_le_of_lt Nat.and_le_right (by decide)

/-- The bytes that count, one after the other and round again, are what the key puts on
the units. -/
theorem getD_activeKey (key : Bytes) (i : Nat) :
    (activeKey key).getD (i % (activeKey key).length) 0 = keyAt key i := by
  have hlength : (activeKey key).length = min key.length maxKeyLength := by
    rw [activeKey, List.length_map, List.length_take, Nat.min_comm]
  rw [hlength, keyAt, List.getD_eq_getElem?_getD, activeKey, List.getElem?_map]
  cases key with
  | nil => rfl
  | cons byte key =>
    have hlt : i % min (byte :: key).length maxKeyLength < maxKeyLength := by
      have hpos : 0 < min (byte :: key).length maxKeyLength :=
        Nat.lt_min.mpr ⟨Nat.succ_pos _, by decide⟩
      exact Nat.lt_of_lt_of_le (Nat.mod_lt i hpos) (Nat.min_le_right _ _)
    rw [List.getElem?_take_of_lt hlt]

/-- From any place in the key on, the unit with a number is under the byte that stands as
many places further on. -/
theorem applyFrom_eq_mapIdx {key : List Nat} (hkey : key ≠ []) {place : Nat}
    (hplace : place ≤ key.length) (units : List Nat) :
    applyFrom key (key.drop place) units =
      units.mapIdx fun i unit => mask (key.getD ((place + i) % key.length) 0) unit := by
  induction units generalizing place with
  | nil => rw [applyFrom, List.mapIdx_nil]
  | cons unit units ih =>
    rcases Nat.lt_or_eq_of_le hplace with hlt | rfl
    · rw [List.drop_eq_getElem_cons hlt, applyFrom, ih hlt, List.mapIdx_cons, Nat.add_zero,
        Nat.mod_eq_of_lt hlt, List.getD_eq_getElem _ _ hlt]
      have hshift : ∀ i, place + 1 + i = place + (i + 1) := fun i => by omega
      simp only [hshift]
    · -- Behind the last byte the key starts again.
      obtain ⟨byte, left, rfl⟩ := List.exists_cons_of_ne_nil hkey
      have hleft : applyFrom (byte :: left) left units = _ :=
        @ih 1 (Nat.succ_le_of_lt (Nat.succ_pos _))
      rw [List.drop_length, applyFrom, hleft, List.mapIdx_cons, Nat.add_zero, Nat.mod_self,
        List.getD_cons_zero]
      simp only [Nat.add_mod_left, Nat.add_comm 1]

/-- The cipher unit by unit. -/
theorem apply_eq_mapIdx (units : List Nat) (key : Bytes) :
    apply units key = units.mapIdx fun i unit => mask (keyAt key i) unit := by
  simp only [← getD_activeKey]
  by_cases hkey : activeKey key = []
  · have hmask : ∀ unit, mask 0 unit = unit := fun unit => by rw [mask, Nat.xor_zero, ite_self]
    have hfrom : applyFrom [] [] units = units := by cases units <;> rfl
    simp only [apply, hkey, hfrom, List.getD_nil, hmask]
    exact List.ext_getElem? fun i => by rw [List.getElem?_mapIdx, Option.map_id']
  · have hfrom := applyFrom_eq_mapIdx hkey (Nat.zero_le _) units
    simpa only [apply, List.drop_zero, Nat.zero_add] using hfrom

/-- Applying a key twice gives the units back. -/
theorem apply_apply (units : List Nat) (key : Bytes) : apply (apply units key) key = units := by
  rw [apply_eq_mapIdx, apply_eq_mapIdx, List.mapIdx_mapIdx]
  refine List.ext_getElem? fun i => ?_
  rw [List.getElem?_mapIdx]
  cases units[i]? with
  | none => rfl
  | some unit => exact congrArg some (mask_mask unit (keyAt_lt key i))

theorem apply_lt {units : List Nat} (key : Bytes) (h : ∀ u ∈ units, u < 0x10000) :
    ∀ u ∈ apply units key, u < 0x10000 := by
  intro u hu
  rw [apply_eq_mapIdx] at hu
  obtain ⟨i, hi, rfl⟩ := List.mem_mapIdx.mp hu
  exact mask_lt (keyAt_lt key i) (h _ (List.getElem_mem hi))

/-- The cipher in bits. A row keeps its length. Under a key that is not empty, a unit with
one of the bits `0xE0` takes the low five bits of the byte of the key that its number
selects, round and round among the first 32; other units stay. Whatever the key, applying
it twice gives the row back, and units of sixteen bits stay such. -/
theorem getElem?_apply (units : List Nat) (key : Bytes) :
    (apply units key).length = units.length ∧
      (key ≠ [] → ∀ (i unit : Nat), units[i]? = some unit →
        ∃ byte, key[i % min key.length 32]? = some byte ∧
          (apply units key)[i]? =
            some (if unit &&& 0xE0 ≠ 0 then unit ^^^ (byte.toNat &&& 0x1F) else unit)) ∧
      apply (apply units key) key = units ∧
      ∀ (i unit : Nat), units[i]? = some unit → unit < 0x10000 →
        ∃ unit', (apply units key)[i]? = some unit' ∧ unit' < 0x10000 := by
  have hentry : ∀ (i unit : Nat), units[i]? = some unit →
      (apply units key)[i]? = some (mask (keyAt key i) unit) := by
    intro i unit hunit
    rw [apply_eq_mapIdx, List.getElem?_mapIdx, hunit, Option.map_some]
  refine ⟨by rw [apply_eq_mapIdx, List.length_mapIdx], ?_, apply_apply units key, ?_⟩
  · intro hkey i unit hunit
    have hpos : 0 < min key.length maxKeyLength :=
      Nat.lt_min.mpr ⟨List.length_pos_iff.mpr hkey, by decide⟩
    have hlt : i % min key.length maxKeyLength < key.length :=
      Nat.lt_of_lt_of_le (Nat.mod_lt i hpos) (Nat.min_le_left _ _)
    have hbyte := List.getElem?_eq_getElem hlt
    refine ⟨_, hbyte, ?_⟩
    rw [hentry i unit hunit, keyAt, hbyte, Option.map_some, Option.getD_some, mask, ite_not]
  · intro i unit hunit hlt
    exact ⟨_, hentry i unit hunit, mask_lt (keyAt_lt key i) hlt⟩

/-- The theorem at a key of 33 bytes, the last of which does not count, and a row in which
a unit that stays uses up the second one. -/
theorem getElem?_apply_long_key :
    let key : Bytes := 0xE3 :: 2 :: 4 :: List.replicate 29 1 ++ [8]
    let units : List Nat := 0x61 :: 0x05 :: List.replicate 31 0x40
    key ≠ [] ∧ units[0]? = some 0x61 ∧ units[1]? = some 0x05 ∧ units[32]? = some 0x40 ∧
      (apply units key)[0]? = some 0x62 ∧ (apply units key)[1]? = some 0x05 ∧
      (apply units key)[2]? = some 0x44 ∧ (apply units key)[32]? = some 0x43 ∧
      (∃ unit, (apply units key)[32]? = some unit ∧ unit < 0x10000) ∧
      (apply units key).length = 33 ∧ apply (apply units key) key = units := by
  intro key units
  have hkey : key ≠ [] := by decide
  obtain ⟨hlength, hentries, hback, hsmall⟩ := getElem?_apply units key
  have hentry : ∀ (i unit : Nat) (byte : UInt8), units[i]? = some unit →
      key[i % min key.length 32]? = some byte →
      (apply units key)[i]? =
        some (if unit &&& 0xE0 ≠ 0 then unit ^^^ (byte.toNat &&& 0x1F) else unit) := by
    intro i unit byte hunit hbyte
    obtain ⟨byte', hbyte', h⟩ := hentries hkey i unit hunit
    obtain rfl := Option.some.inj (hbyte.symm.trans hbyte')
    exact h
  exact ⟨hkey, rfl, rfl, rfl, hentry 0 0x61 0xE3 rfl rfl, hentry 1 0x05 2 rfl rfl,
    hentry 2 0x40 4 rfl rfl, hentry 32 0x40 0xE3 rfl (by decide),
    hsmall 32 0x40 rfl (by decide), hlength, hback⟩

end Unproxy.Cipher
