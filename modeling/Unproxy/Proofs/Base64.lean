import Mathlib
import Unproxy.Base64
import Unproxy.Proofs.Text.Numeral

/-!
# Unproxy.Proofs.Base64

The standard writer of base64, and its round trip through the strict decoder.

Main definitions:

* `Base64.sextets`: bytes cut into groups of six bits, the last group filled up
  with zero bits;
* `Base64.symbol`, `Base64.encode`: their characters, and `=` up to a multiple of
  four.

Main statements:

* `Base64.decode_encode`: what is written decodes to the bytes it was written for;
* `Base64.all_isSymbol_encode`, `Base64.length_encode_mod`: what is written holds
  nothing but the alphabet and padding, in full groups.
-/

namespace Unproxy.Base64

/-- The six bits that each character stands for: three bytes give four groups. -/
def sextets : Bytes → List Nat
  | [] => []
  | [a] => [a.toNat / 4, a.toNat % 4 * 16]
  | [a, b] => [a.toNat / 4, a.toNat % 4 * 16 + b.toNat / 16, b.toNat % 16 * 4]
  | a :: b :: c :: rest =>
    a.toNat / 4 :: (a.toNat % 4 * 16 + b.toNat / 16) :: (b.toNat % 16 * 4 + c.toNat / 64) ::
      (c.toNat % 64) :: sextets rest

/-- The character of six bits. -/
def symbol (value : Nat) : CodePoint :=
  if value < 26 then CodePoint.ofNat (0x41 + value)
  else if value < 52 then CodePoint.ofNat (0x61 + (value - 26))
  else if value < 62 then CodePoint.ofNat (0x30 + (value - 52))
  else if value = 62 then '+'
  else '/'

/-- The padding behind a number of data characters. -/
def pads (length : Nat) : Text := List.replicate ((4 - length % 4) % 4) (CodePoint.ofChar '=')

/-- The base64 form of bytes. -/
def encode (bytes : Bytes) : Text :=
  (sextets bytes).map symbol ++ pads (sextets bytes).length

/-- A character of the alphabet, or padding. -/
def isSymbol (c : CodePoint) : Bool := (digit? c).isSome || c = '='

/-! ### The alphabet -/

theorem digit?_symbol {value : Nat} (h : value < 64) : digit? (symbol value) = some value := by
  have hall : ∀ v < 64, digit? (symbol v) = some v := by decide
  exact hall value h

theorem symbol_ne_pad {value : Nat} (h : value < 64) : symbol value ≠ CodePoint.ofChar '=' := by
  have hall : ∀ v < 64, symbol v ≠ CodePoint.ofChar '=' := by decide
  exact hall value h

theorem sextets_lt (bytes : Bytes) : ∀ v ∈ sextets bytes, v < 64 := by
  induction bytes using sextets.induct with
  | case1 => simp [sextets]
  | case2 a =>
    have ha := a.toNat_lt
    simp only [sextets, List.forall_mem_cons, List.not_mem_nil, false_implies, implies_true,
      and_true]
    omega
  | case3 a b =>
    have ha := a.toNat_lt
    have hb := b.toNat_lt
    simp only [sextets, List.forall_mem_cons, List.not_mem_nil, false_implies, implies_true,
      and_true]
    omega
  | case4 a b c rest ih =>
    have ha := a.toNat_lt
    have hb := b.toNat_lt
    have hc := c.toNat_lt
    simp only [sextets, List.forall_mem_cons]
    exact ⟨by omega, by omega, by omega, by omega, ih⟩

theorem all_isSymbol_encode (bytes : Bytes) : (encode bytes).all isSymbol = true := by
  rw [encode, List.all_append, Bool.and_eq_true, List.all_eq_true, List.all_eq_true]
  constructor
  · intro c hc
    obtain ⟨v, hv, rfl⟩ := List.mem_map.mp hc
    simp [isSymbol, digit?_symbol (sextets_lt bytes v hv)]
  · intro c hc
    rw [(List.mem_replicate.mp hc).2]
    decide

theorem length_encode_mod (bytes : Bytes) : (encode bytes).length % 4 = 0 := by
  simp only [encode, pads, List.length_append, List.length_map, List.length_replicate]
  omega

theorem isAscii_of_isSymbol {c : CodePoint} (h : isSymbol c = true) : c.isAscii = true := by
  unfold isSymbol digit? at h
  split at h
  · rename_i hu
    simp only [CodePoint.isUpper, CodePoint.isAscii, Bool.and_eq_true, decide_eq_true_eq] at hu ⊢
    omega
  split at h
  · rename_i hl
    simp only [CodePoint.isLower, CodePoint.isAscii, Bool.and_eq_true, decide_eq_true_eq] at hl ⊢
    omega
  split at h
  · rename_i hd
    simp only [CodePoint.isDigit, CodePoint.isAscii, Bool.and_eq_true, decide_eq_true_eq] at hd ⊢
    omega
  split at h
  · rename_i hplus
    rw [hplus]
    decide
  split at h
  · rename_i hslash
    rw [hslash]
    decide
  · simp only [Option.isSome_none, Bool.false_or, decide_eq_true_eq] at h
    rw [h]
    decide

/-! ### The decoder -/

/-- A data character before any padding is taken in. -/
theorem decodeFrom_symbol {s : State} {value : Nat} (t : Text) (hs : s.padded = false)
    (h : value < 64) :
    decodeFrom s (symbol value :: t) =
      (decodeFrom (s.push value).2 t).map ((s.push value).1 ++ ·) := by
  rw [decodeFrom, if_neg (symbol_ne_pad h), digit?_symbol h]
  simp only [hs, Bool.false_eq_true, if_false]

theorem pads_add_four (length : Nat) : pads (length + 4) = pads length := by
  rw [pads, pads, Nat.add_mod_right]

theorem ofNat_eq_byte {n : Nat} {b : UInt8} (h : n = b.toNat) : UInt8.ofNat n = b := by
  rw [h, UInt8.ofNat_toNat]

/-- Groups of six bits, with the padding they ask for, decode to the bytes they
were cut from. -/
theorem decodeFrom_sextets (bytes : Bytes) (written : Nat) :
    decodeFrom ⟨0, 0, 0, false, written⟩
      ((sextets bytes).map symbol ++ pads (sextets bytes).length) = .ok bytes := by
  have hlt := sextets_lt bytes
  induction bytes using sextets.induct generalizing written with
  | case1 => rfl
  | case2 a =>
    simp only [sextets, List.forall_mem_cons] at hlt
    have ha : UInt8.ofNat (a.toNat / 4 * 4 + a.toNat % 4 * 16 / 16) = a :=
      ofNat_eq_byte (by omega)
    simp only [sextets, List.map_cons, List.map_nil, List.cons_append, List.nil_append]
    rw [decodeFrom_symbol _ rfl hlt.1, decodeFrom_symbol _ rfl hlt.2.1]
    simp only [State.push, ha]
    rfl
  | case3 a b =>
    simp only [sextets, List.forall_mem_cons] at hlt
    have hlow := b.toNat_lt
    have ha : UInt8.ofNat (a.toNat / 4 * 4 + (a.toNat % 4 * 16 + b.toNat / 16) / 16) = a :=
      ofNat_eq_byte (by omega)
    have hb : UInt8.ofNat ((a.toNat % 4 * 16 + b.toNat / 16) % 16 * 16 +
        b.toNat % 16 * 4 / 4) = b :=
      ofNat_eq_byte (by omega)
    simp only [sextets, List.map_cons, List.map_nil, List.cons_append, List.nil_append]
    rw [decodeFrom_symbol _ rfl hlt.1, decodeFrom_symbol _ rfl hlt.2.1,
      decodeFrom_symbol _ rfl hlt.2.2.1]
    simp only [State.push, ha, hb]
    rfl
  | case4 a b c rest ih =>
    simp only [sextets, List.forall_mem_cons] at hlt
    obtain ⟨h1, h2, h3, h4, hrest⟩ := hlt
    have hlow := b.toNat_lt
    have hlow' := c.toNat_lt
    have ha : UInt8.ofNat (a.toNat / 4 * 4 + (a.toNat % 4 * 16 + b.toNat / 16) / 16) = a :=
      ofNat_eq_byte (by omega)
    have hb : UInt8.ofNat ((a.toNat % 4 * 16 + b.toNat / 16) % 16 * 16 +
        (b.toNat % 16 * 4 + c.toNat / 64) / 4) = b :=
      ofNat_eq_byte (by omega)
    have hc : UInt8.ofNat ((b.toNat % 16 * 4 + c.toNat / 64) % 4 * 64 + c.toNat % 64) = c :=
      ofNat_eq_byte (by omega)
    simp only [sextets, List.map_cons, List.cons_append, List.length_cons, pads_add_four]
    rw [decodeFrom_symbol _ rfl h1, decodeFrom_symbol _ rfl h2, decodeFrom_symbol _ rfl h3,
      decodeFrom_symbol _ rfl h4]
    simp only [State.push, ha, hb, hc, ih _ hrest]
    rfl

/-- What is written decodes to the bytes it was written for. -/
theorem decode_encode (bytes : Bytes) : decode (encode bytes) = .ok bytes := by
  have hascii : (encode bytes).all CodePoint.isAscii = true := by
    rw [List.all_eq_true]
    intro c hc
    exact isAscii_of_isSymbol (List.all_eq_true.mp (all_isSymbol_encode bytes) c hc)
  have hhead : (encode bytes).head? ≠ some (CodePoint.ofChar '=') := by
    have hlt := sextets_lt bytes
    rw [encode]
    cases hs : sextets bytes with
    | nil => simp [pads]
    | cons v rest =>
      rw [hs] at hlt
      simp only [List.map_cons, List.cons_append, List.head?_cons, ne_eq, Option.some.injEq]
      exact symbol_ne_pad (hlt v List.mem_cons_self)
  rw [decode, hascii, if_neg hhead]
  exact decodeFrom_sextets bytes 0

end Unproxy.Base64
