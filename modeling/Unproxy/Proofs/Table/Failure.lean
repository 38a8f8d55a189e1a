import Mathlib
import Unproxy.Table.Decoding
import Unproxy.Proofs.Cipher
import Unproxy.Proofs.Json.Outcome
import Unproxy.Proofs.Json.Reading
import Unproxy.Proofs.Outcome
import Unproxy.Proofs.Table.Code

/-!
# Unproxy.Proofs.Table.Failure

How decoding a table can fail. A key that is no base64 and a text that is no JSON are reported as
failures of decoding. Two other failures get past: a code beyond the range of doubles, and an
integer in the decoded text that has more digits than can be read.

Main definitions:

* `Table.Error.isReported`: the failures that count as failures of decoding;
* `Table.plainText`: the text that integers and holes spell under a key;
* `Table.Escapes`: the failures that get past, with what causes them.

Main statements:

* `Table.isJson_of_decode`: what a table decodes to is made of the forms of JSON;
* `Table.unreported_iff`: exactly which failures are not reported.
-/

namespace Unproxy

/-- An integer by itself that has too many digits. -/
theorem Json.read_of_tooManyDigits {digits : Text} (isDigits : digits.all CodePoint.isDigit = true)
    (first : digits.head? ≠ some (CodePoint.ofChar '0')) (long : Number.maxDigits < digits.length) :
    read digits = .error (.number (.tooManyDigits digits.length)) := by
  obtain ⟨c, rest, rfl⟩ : ∃ c rest, digits = c :: rest :=
    List.exists_cons_of_length_pos (Nat.zero_lt_of_lt long)
  have hc : c.isDigit = true := List.all_eq_true.mp isDigits c List.mem_cons_self
  have hne : ∀ d : CodePoint, d.isDigit = false → c ≠ d := fun d hd => (ne_of_isDigit hc hd).symm
  have hfind := words_find?_digit hc rest
  have hnone : fraction [] = [] ∧ exponent [] = [] := ⟨rfl, rfl⟩
  have hsign := sign_withSign false (List.cons_ne_nil c rest) isDigits []
  have hwhole := @integerPart_append _ [] (List.cons_ne_nil c rest) isDigits
    (fun hzero => absurd hzero first) nofun
  have hbase : (c :: rest).all (CodePoint.isDigitOf 10) = true := by
    rw [Text.all_isDigitOf_ten, isDigits]
  have hread := Number.readInt_eq false (List.cons_ne_nil c rest) hbase
  rw [if_pos (by simpa using long)] at hread
  simp only [Binary64.withSign, Bool.false_eq_true, if_false, List.append_nil] at hsign hwhole hread
  have hnumber : readNumber ⟨c :: rest, 0⟩ = .error (.number (.tooManyDigits (c :: rest).length)) := by
    simp only [readNumber, hsign.1, List.length_nil, List.drop_zero, hwhole, List.isEmpty_cons,
      Bool.false_eq_true, if_false, List.drop_length, hnone.1, hnone.2, List.nil_append,
      List.append_nil, List.isEmpty_nil, if_true, List.drop_nil, hread, Except.map]
  have hblank : Place.blank ⟨c :: rest, 0⟩ = ⟨c :: rest, 0⟩ := by
    have hsolid : Place.isBlank c = false := by
      simp only [CodePoint.isDigit, Bool.and_eq_true, decide_eq_true_eq] at hc
      simp only [Place.isBlank, Bool.or_eq_false_iff, beq_eq_false_iff_ne, ne_eq]
      omega
    exact Place.blank_append (b := []) rfl (solid_cons hsolid) 0
  have hall : readAll (c :: rest) = .error (.number (.tooManyDigits (c :: rest).length)) := by
    have hmark : (c :: rest).head? ≠ some (CodePoint.ofNat 0xFEFF) := by
      intro h
      exact hne (CodePoint.ofNat 0xFEFF) (by decide) (Option.some.inj h)
    rw [readAll, if_neg hmark, hblank, readValue]
    simp only [at?_cons, hne (CodePoint.ofChar '"') rfl, hne (CodePoint.ofChar '[') rfl,
      hne (CodePoint.ofChar '\x7b') rfl, decide_false, Bool.false_eq_true, if_false, readScalar,
      hfind, hnumber]
  rw [read, hall]

namespace Table

/-! ### What tables decode to -/

theorem isJson_of_readJson {label t : Text} {v : Value} (h : readJson label t = .ok v) :
    v.IsJson := by
  unfold readJson at h
  split at h
  · rename_i value hread
    cases h
    exact Json.isJson_of_read hread
  · cases h
  · cases h

/-- What a table decodes to is made of the forms of JSON. -/
theorem isJson_of_decode {label key : Text} {codes : List Code} {v : Value}
    (h : (decode label key codes).outcome = .ok v) : v.IsJson := by
  unfold decode at h
  obtain ⟨bytes, -, h⟩ := Log.Logged.exists_of_outcome_bind h
  obtain ⟨units, -, h⟩ := Log.Logged.exists_of_outcome_bind h
  obtain ⟨_, -, h⟩ := Log.Logged.exists_of_outcome_bind h
  exact isJson_of_readJson h

/-! ### How decoding fails -/

/-- Whether a failure counts as one of decoding a table. -/
def Error.isReported : Error → Bool
  | .number _ | .positionOutOfRange | .configMissing .. | .unknownTable _ => false
  | _ => true

/-- The text that integers and holes spell under a key. -/
def plainText (codes : List (Option Int)) (key : Bytes) : Text :=
  Utf16.decode (Cipher.apply (codes.map fun code => (code.getD 0 % 0x10000).toNat) key)

/-- The failures that get past, with what causes them: a code beyond the range of doubles, or else
an integer in the text that is too long. -/
inductive Escapes (codes : List (Option Int)) (key : Bytes) : Error → Prop
  | code {i : Int} (mem : some i ∈ codes) (large : Binary64.overflowBound ≤ i.natAbs) :
      Escapes codes key (.number .tooLarge)
  | digits {count : Nat} (small : ∀ i, some i ∈ codes → i.natAbs < Binary64.overflowBound)
      (read : Json.read (plainText codes key) = .error (.number (.tooManyDigits count))) :
      Escapes codes key (.number (.tooManyDigits count))

theorem isReported_of_keyBytes {key : Text} {e : Error} (h : keyBytes key = .error e) :
    e.isReported = true := by
  unfold keyBytes at h
  dsimp only at h
  split at h
  · cases h
    rfl
  · split at h
    · cases h
    · cases h
      rfl

theorem readJson_unreported_iff {label t : Text} {e : Error} :
    readJson label t = .error e ∧ e.isReported = false ↔
      ∃ count, e = .number (.tooManyDigits count) ∧
        Json.read t = .error (.number (.tooManyDigits count)) := by
  unfold readJson
  constructor
  · intro h
    obtain ⟨h, hreported⟩ := h
    split at h
    · cases h
    · cases h
      cases hreported
    · rename_i error hread
      cases h
      obtain ⟨count, rfl, -⟩ := Json.exists_hasDigits_of_read hread
      exact ⟨count, rfl, hread⟩
  · intro h
    obtain ⟨count, rfl, hread⟩ := h
    rw [hread]
    exact ⟨rfl, rfl⟩

/-- The codes of a table as a step of decoding: their units, or a failure that gets past. -/
theorem units_cases (codes : List (Option Int)) :
    (∀ i, some i ∈ codes → i.natAbs < Binary64.overflowBound) ∧
        Code.units (codes.map (Option.map .int)) =
          .ok (codes.map fun code => (code.getD 0 % 0x10000).toNat) ∨
      (∃ i, some i ∈ codes ∧ Binary64.overflowBound ≤ i.natAbs) ∧
        Code.units (codes.map (Option.map .int)) = .error .tooLarge := by
  by_cases h : ∀ i, some i ∈ codes → i.natAbs < Binary64.overflowBound
  · exact .inl ⟨h, Code.units_of_lt h⟩
  · push Not at h
    obtain ⟨i, hmem, hi⟩ := h
    exact .inr ⟨⟨i, hmem, hi⟩, Code.units_of_le hmem hi⟩

/-- Decoding behind the key fails without a report exactly where a failure gets past. -/
theorem readUnits_unreported_iff {label : Text} {codes : List (Option Int)} {key : Bytes} {e : Error} :
    (((Code.units (codes.map (Option.map .int))).mapError Error.number >>= fun units =>
        readJson label (Utf16.decode (Cipher.apply units key))) = .error e ∧
      e.isReported = false) ↔ Escapes codes key e := by
  rcases units_cases codes with ⟨hsmall, hunits⟩ | ⟨⟨i, hmem, hi⟩, hunits⟩
  · rw [hunits]
    refine readJson_unreported_iff.trans ⟨fun h => ?_, fun h => ?_⟩
    · obtain ⟨count, rfl, hread⟩ := h
      exact .digits hsmall hread
    · cases h with
      | code mem large => exact absurd large (Nat.not_le.mpr (hsmall _ mem))
      | digits small read => exact ⟨_, rfl, read⟩
  · rw [hunits]
    refine ⟨fun h => ?_, fun h => ?_⟩
    · cases h.1
      exact .code hmem hi
    · cases h with
      | code mem large => exact ⟨rfl, rfl⟩
      | digits small read => exact absurd hi (Nat.not_le.mpr (small i hmem))

theorem outcome_decode (label key : Text) (codes : List Code) :
    (decode label key codes).outcome = keyBytes key >>= fun bytes =>
      (Code.units codes).mapError Error.number >>= fun units =>
        readJson label (Utf16.decode (Cipher.apply units bytes)) := by
  unfold decode
  simp only [Log.Logged.outcome_bind, Log.Logged.ofExcept, Log.Logged.tell]
  rfl

theorem decodeConfig_eq (label : Text) (codes : List Code) :
    decodeConfig label codes = (Code.units codes).mapError Error.number >>= fun units =>
      readJson label (Utf16.decode (Cipher.apply units [])) := by
  have hempty : ∀ units, Cipher.apply units [] = units := by
    intro units
    cases units <;> rfl
  unfold decodeConfig Code.text
  cases Code.units codes with
  | error e => rfl
  | ok units =>
    simp only [Except.map, hempty]
    rfl

/-- Every text without unjoined halves is spelt under every key. -/
theorem plainText_encode {t : Text} (h : Utf16.Joined t) (key : Bytes) :
    plainText ((Cipher.apply (Utf16.encode t) key).map fun u : Nat => some (u : Int)) key = t := by
  have hunits : ((Cipher.apply (Utf16.encode t) key).map fun u : Nat => some (u : Int)).map
      (fun code => (code.getD 0 % 0x10000).toNat) = Cipher.apply (Utf16.encode t) key := by
    rw [List.map_map]
    refine (List.map_congr_left fun u hu => ?_).trans (List.map_id _)
    have hlt := Cipher.apply_lt key (fun _ => Utf16.encode_lt) u hu
    show ((u : Int) % 0x10000).toNat = u
    omega
  rw [plainText, hunits, Cipher.apply_apply, Utf16.decode_encode h]

/-- Digits that are too long an integer get past under every key. -/
theorem escapes_of_digits {digits : Text} (isDigits : digits.all CodePoint.isDigit = true)
    (first : digits.head? ≠ some (CodePoint.ofChar '0')) (long : Number.maxDigits < digits.length)
    (key : Bytes) :
    Escapes ((Cipher.apply (Utf16.encode digits) key).map fun u : Nat => some (u : Int)) key
      (.number (.tooManyDigits digits.length)) := by
  have hascii : digits.all CodePoint.isAscii = true := by
    rw [List.all_eq_true] at isDigits ⊢
    exact fun c hc => CodePoint.isAscii_of_isDigit (isDigits c hc)
  refine .digits (fun i hi => ?_) ?_
  · obtain ⟨u, hu, heq⟩ := List.mem_map.mp hi
    obtain rfl := Option.some.inj heq
    have hlt := Cipher.apply_lt key (fun _ => Utf16.encode_lt) u hu
    have hbound : 0x10000 ≤ 2 ^ 1023 := by decide +kernel
    exact Binary64.lt_overflowBound (hlt.le.trans hbound)
  · rw [plainText_encode (Utf16.joined_of_isAscii hascii)]
    exact Json.read_of_tooManyDigits isDigits first long

/-- Decoding integers and holes fails without a report exactly where a code is beyond the range of
doubles or the text, read as JSON, comes to an integer that is too long. Such a text has more than
4300 digits in a row; a row of that many digits is one, under any key. That an interpreter gives up
on JSON that is nested too deeply is left out. -/
theorem unreported_iff (label key : Text) (codes : List (Option Int)) (e : Error) :
    (decodeConfig label (codes.map (Option.map .int)) = .error e ∧ e.isReported = false ↔
        Escapes codes [] e) ∧
      ((decode label key (codes.map (Option.map .int))).outcome = .error e ∧
          e.isReported = false ↔ ∃ bytes, keyBytes key = .ok bytes ∧ Escapes codes bytes e) ∧
      (∀ t count, Json.read t = .error (.number (.tooManyDigits count)) →
        4300 < count ∧ t.HasDigits count) ∧
      ∀ digits : Text, digits.all CodePoint.isDigit = true →
        digits.head? ≠ some (CodePoint.ofChar '0') → 4300 < digits.length → ∀ bytes,
        Escapes ((Cipher.apply (Utf16.encode digits) bytes).map fun u : Nat => some (u : Int)) bytes
          (.number (.tooManyDigits digits.length)) := by
  refine ⟨?_, ?_, ?_, fun digits isDigits first long => escapes_of_digits isDigits first long⟩
  · rw [decodeConfig_eq]
    exact readUnits_unreported_iff
  · rw [outcome_decode]
    cases hkey : keyBytes key with
    | error flaw =>
      refine iff_of_false (fun h => ?_) (by simp)
      obtain ⟨h, hreported⟩ := h
      cases h
      rw [isReported_of_keyBytes hkey] at hreported
      cases hreported
    | ok bytes =>
      refine Iff.trans readUnits_unreported_iff ⟨fun h => ⟨bytes, rfl, h⟩, fun h => ?_⟩
      obtain ⟨_, ⟨⟩, h⟩ := h
      exact h
  · intro t count h
    obtain ⟨_, ⟨⟩, hcount, hdigits⟩ := Json.exists_hasDigits_of_read h
    exact ⟨hcount, hdigits⟩

/-- A table of 4301 ones, in plain and under a key, and one with the least integer beyond the range of
doubles behind a hole. -/
theorem unreported_iff_ones :
    let ones : Text := List.replicate 4301 (CodePoint.ofChar '1')
    let codes := fun key : Bytes =>
      (Cipher.apply (Utf16.encode ones) key).map fun u : Nat => some (u : Int)
    let large : List (Option Int) := [none, some (2 ^ 970 - 2 ^ 1024)]
    decodeConfig "t".toText ((codes []).map (Option.map .int)) =
        .error (.number (.tooManyDigits 4301)) ∧
      (decode "z".toText "H w".toText ((codes [0x1F]).map (Option.map .int))).outcome =
        .error (.number (.tooManyDigits 4301)) ∧
      (decode "z".toText "H w".toText (large.map (Option.map .int))).outcome =
        .error (.number .tooLarge) := by
  intro ones codes large
  have hkey : keyBytes "H w".toText = .ok [0x1F] := rfl
  have hdigits : ones.all CodePoint.isDigit = true := by
    rw [List.all_eq_true]
    intro c hc
    rw [List.eq_of_mem_replicate hc]
    decide
  have hfirst : ones.head? ≠ some (CodePoint.ofChar '0') := by
    rw [List.head?_replicate]
    decide
  have hlength : ones.length = 4301 := List.length_replicate
  have hescapes : ∀ key, Escapes (codes key) key (.number (.tooManyDigits 4301)) := by
    intro key
    obtain ⟨-, -, -, hdigits'⟩ :=
      unreported_iff "t".toText "H w".toText (codes key) (.number (.tooManyDigits 4301))
    have hescapes := hdigits' ones hdigits hfirst (by rw [hlength]; decide) key
    rwa [hlength] at hescapes
  have hlarge : Escapes large [0x1F] (.number .tooLarge) :=
    .code (List.mem_cons_of_mem _ List.mem_cons_self) (by decide +kernel)
  obtain ⟨hplain, -⟩ :=
    unreported_iff "t".toText "H w".toText (codes []) (.number (.tooManyDigits 4301))
  obtain ⟨-, hcoded, -⟩ :=
    unreported_iff "z".toText "H w".toText (codes [0x1F]) (.number (.tooManyDigits 4301))
  obtain ⟨-, hbeyond, -⟩ := unreported_iff "z".toText "H w".toText large (.number .tooLarge)
  exact ⟨(hplain.mpr (hescapes [])).1, (hcoded.mpr ⟨_, hkey, hescapes [0x1F]⟩).1,
    (hbeyond.mpr ⟨_, hkey, hlarge⟩).1⟩

end Table

end Unproxy
