import Mathlib
import Unproxy.Scheme.File
import Unproxy.Table.Decoding
import Unproxy.Proofs.Base64
import Unproxy.Proofs.Cipher
import Unproxy.Proofs.Json.Ascii
import Unproxy.Proofs.Outcome
import Unproxy.Proofs.Scheme.Loading
import Unproxy.Proofs.Table.Code

/-!
# Unproxy.Proofs.Table.RoundTrip

Decoding undoes encoding. A table is encoded by writing its value as JSON in ASCII
and applying the cipher to the character codes; its key stands, in base64, in the
config table at the position the scheme gives.

Main definitions:

* `Table.encode`: the codes of a value under a key;
* `Table.Encodes`: raw tables that carry a value for every encoded table of a scheme.

Main statements:

* `Scheme.nodup_encodedTables`: an accepted scheme names no table twice;
* `Table.decode_encode`: one table is decoded to the value it carries;
* `Table.decodeAll_encodes`: so are all that are wanted, in the order wanted.
-/

namespace Unproxy

/-! ### Schemes -/

namespace Scheme

/-- An accepted scheme names no table twice. -/
theorem nodup_encodedTables {name : Text} {data : Value} {scheme : Scheme}
    (h : ofValue name data = .ok scheme) : scheme.encodedTables.Nodup := by
  unfold ofValue at h
  split at h
  · rename_i checked hcheck
    cases h
    exact (List.nodup_cons.mp (nodup_tableIds_of_check hcheck)).2
  · cases h

end Scheme

namespace Table

open Log

/-! ### Single tables -/

/-- The codes of a value under a key: its JSON form in ASCII, character by
character, under the cipher. -/
def encode (spacing : Json.Spacing) (key : Bytes) (value : Value) : List Code :=
  Code.ofUnits (Cipher.apply ((Json.ascii spacing value).map Fin.val) key)

theorem isKeyBlank_of_isSymbol {c : CodePoint} (h : Base64.isSymbol c = true) :
    isKeyBlank c = false := by
  by_contra hblank
  rw [Bool.not_eq_false, isKeyBlank] at hblank
  have hval : ∀ n ∈ [0x09, 0x0A, 0x0C, 0x0D, 0x20], c.val = n → False := by
    intro n hn hc
    have hsymbol : ∀ n ∈ [0x09, 0x0A, 0x0C, 0x0D, 0x20],
        Base64.isSymbol (CodePoint.ofNat n) = false := by decide
    rw [← CodePoint.ofNat_val c, hc, hsymbol n hn] at h
    cases h
  simp only [Bool.or_eq_true, beq_iff_eq] at hblank
  simp only [List.mem_cons, List.not_mem_nil, or_false, forall_eq_or_imp, forall_eq] at hval
  tauto

/-- A key in base64 is read as its bytes. -/
theorem keyBytes_encode (key : Bytes) : keyBytes (Base64.encode key) = .ok key := by
  have hfilter : (Base64.encode key).filter (fun c => !isKeyBlank c) = Base64.encode key := by
    refine List.filter_eq_self.mpr fun c hc => ?_
    rw [isKeyBlank_of_isSymbol (List.all_eq_true.mp (Base64.all_isSymbol_encode key) c hc)]
    rfl
  have hpadding : padding (Base64.encode key).length = [] := by
    rw [padding, Base64.length_encode_mod]
    rfl
  rw [keyBytes, hfilter, Base64.length_encode_mod, hpadding, List.append_nil, Base64.decode_encode]
  rfl

/-- A text that spells a value is read as it. -/
theorem readJson_spelled {label t : Text} {value : Value} (h : Json.Spelled (.item value) t) :
    readJson label t = .ok value := by
  rw [readJson, Json.read_spelled h]

/-- A table under the key it was encoded with is decoded to its value. -/
theorem decode_encode (label : Text) (spacing : Json.Spacing) (key : Bytes) {value : Value}
    (h : value.isPortable = true) :
    (decode label (Base64.encode key) (encode spacing key value)).outcome = .ok value := by
  have hascii := Json.all_isAscii_ascii spacing value h
  have hunits : Utf16.encode (Json.ascii spacing value) =
      (Json.ascii spacing value).map Fin.val := Utf16.encode_of_isAscii hascii
  have hlt : ∀ u ∈ (Json.ascii spacing value).map Fin.val, u < 0x10000 := by
    rw [← hunits]
    exact fun u => Utf16.encode_lt
  have hcodes := Code.units_ofUnits (Cipher.apply_lt key hlt)
  have hjson : Json.Spelled (.item value) (Json.ascii spacing value) :=
    .item_of_value Json.blank_nil (Json.spelled_ascii spacing value h)
  unfold decode encode
  rw [Logged.outcome_bind_of_ok _ (keyBytes_encode key), hcodes,
    Logged.outcome_bind_of_ok _ rfl, Logged.outcome_bind_of_ok _ rfl, Cipher.apply_apply, ← hunits,
    Utf16.decode_encode (Utf16.joined_of_isAscii hascii)]
  exact readJson_spelled hjson

/-- The units of a text that spells a config table are decoded to its value. -/
theorem decodeConfig_spelled {label : Text} {units : List Nat} {value : Value}
    (hlt : ∀ u ∈ units, u < 0x10000) (h : Json.Spelled (.item value) (Utf16.decode units)) :
    decodeConfig label (Code.ofUnits units) = .ok value := by
  rw [decodeConfig, Code.text, Code.units_ofUnits hlt]
  exact readJson_spelled h

/-- The key that stands in a config table is found. -/
theorem key_of_getElem? {entries : List Text} {position : Nat} {entry : Text} (label : Text)
    (h : entries[position]? = some entry) :
    key (.array (entries.map .text)) position label = .ok entry := by
  have hlength : position < entries.length := (List.getElem?_eq_some_iff.mp h).1
  have hentry : entryAt? (entries.map Value.text) position = some (.text entry) := by
    rw [entryAt?, if_pos (Int.natCast_nonneg position), Int.toNat_natCast, List.getElem?_map, h]
    rfl
  rw [key, hentry, List.length_map, if_neg (by omega)]

/-! ### All tables -/

/-- Raw tables that carry a value under a key for every encoded table of a scheme.
The config table is any JSON text of an array of texts in which the keys stand, in
base64, at their positions. -/
structure Encodes (raw : Raw) (scheme : Scheme) (keys : Text → Bytes) (values : Text → Value) :
    Prop where
  portable : ∀ table ∈ scheme.encodedTables, (values table).isPortable = true
  encoded : ∀ table ∈ scheme.encodedTables, ∃ spacing,
    raw.get? table = some (encode spacing (keys table) (values table))
  config : ∃ (units : List Nat) (entries : List Text),
    raw.get? scheme.configTable = some (Code.ofUnits units) ∧ (∀ u ∈ units, u < 0x10000) ∧
      Json.Spelled (.item (.array (entries.map .text))) (Utf16.decode units) ∧
      ∀ place ∈ scheme.keyPositions, entries[place.2]? = some (Base64.encode (keys place.1))

section

variable {raw : Raw} {scheme : Scheme} {keys : Text → Bytes} {values : Text → Value}

/-- One wanted table after the other is decoded and put behind those found before. -/
theorem decodeEach_encodes {config : Value} (encodes : Encodes raw scheme keys values)
    (hconfig : ∀ table, configFor raw scheme table none = .ok config)
    (hkey : ∀ table position, scheme.keyPositions.get? table = some position →
      key config position table = .ok (Base64.encode (keys table))) :
    ∀ (wanted : List Text) (known : Option Value) (found : Decoded),
      (known = none ∨ known = some config) → wanted.Nodup → wanted ⊆ scheme.encodedTables →
      (∀ table ∈ wanted, table ∉ found.keys) →
      (decodeEach raw scheme wanted known found).outcome =
        .ok (found ++ wanted.map fun table => (table, values table)) := by
  intro wanted
  induction wanted with
  | nil =>
    intro known found _ _ _ _
    rw [List.map_nil, List.append_nil]
    rfl
  | cons table wanted ih =>
    intro known found hknown hnodup hsubset hfresh
    have htable := hsubset List.mem_cons_self
    obtain ⟨spacing, hraw⟩ := encodes.encoded table htable
    obtain ⟨position, hposition⟩ := Entries.exists_get?_of_mem_keys htable
    have hfor : configFor raw scheme table known = .ok config := by
      rcases hknown with rfl | rfl
      · exact hconfig table
      · rfl
    have hvalue := decode_encode table spacing (keys table) (encodes.portable table htable)
    have hnew : table ∉ found.keys := hfresh table List.mem_cons_self
    have hothers : ∀ other ∈ wanted, other ∉ (Entries.set table (values table) found).keys := by
      intro other hother hmem
      rcases (Entries.mem_keys_set _).mp hmem with rfl | hmem
      · exact (List.nodup_cons.mp hnodup).1 hother
      · exact hfresh other (List.mem_cons_of_mem table hother) hmem
    unfold decodeEach
    rw [hraw]
    dsimp only
    rw [Logged.outcome_bind_of_ok _ hfor, hposition]
    dsimp only
    rw [Logged.outcome_bind_of_ok _ (hkey table position hposition),
      Logged.outcome_bind_of_ok _ hvalue,
      ih _ _ (.inr rfl) (List.nodup_cons.mp hnodup).2 (List.subset_of_cons_subset hsubset)
        hothers,
      Entries.set_of_not_mem _ hnew, List.append_assoc]
    rfl

end

/-- Raw tables that carry values are decoded to them: the wanted ones in the order
wanted, or all of the scheme. -/
theorem decodeAll_encodes {name : Text} {data : Value} {scheme : Scheme}
    (accepted : Scheme.ofValue name data = .ok scheme) {raw : Raw} {keys : Text → Bytes}
    {values : Text → Value} (encodes : Encodes raw scheme keys values) (wanted : Option (List Text))
    (known : ∀ tables ∈ wanted, tables.Nodup ∧ tables ⊆ scheme.encodedTables) :
    (decodeAll raw scheme wanted).outcome =
      .ok ((wanted.getD scheme.encodedTables).map fun table => (table, values table)) := by
  obtain ⟨units, entries, hraw, hlt, hspelled, hentries⟩ := encodes.config
  have hconfig : ∀ table, configFor raw scheme table none = .ok (.array (entries.map .text)) := by
    intro table
    simp only [configFor, hraw]
    exact decodeConfig_spelled hlt hspelled
  have hkey : ∀ table position, scheme.keyPositions.get? table = some position →
      key (.array (entries.map .text)) position table = .ok (Base64.encode (keys table)) :=
    fun table position h => key_of_getElem? table (hentries _ (Entries.mem_of_get? h))
  have hhas : scheme.encodedTables.filter raw.has = scheme.encodedTables := by
    refine List.filter_eq_self.mpr fun table htable => ?_
    obtain ⟨spacing, hget⟩ := encodes.encoded table htable
    exact Entries.has_iff.mpr (Entries.mem_keys_of_get? hget)
  unfold decodeAll
  rw [hhas]
  cases wanted with
  | none =>
    exact decodeEach_encodes encodes hconfig hkey _ none [] (.inl rfl)
      (Scheme.nodup_encodedTables accepted) (List.Subset.refl _) (fun _ _ => List.not_mem_nil)
  | some tables =>
    obtain ⟨hnodup, hsubset⟩ := known tables rfl
    exact decodeEach_encodes encodes hconfig hkey _ none [] (.inl rfl) hnodup hsubset
      (fun _ _ => List.not_mem_nil)

/-- The theorem at the standard scheme, with the name of each table as its key, a value
that needs escapes, and two tables wanted in another order than the scheme's. -/
theorem decodeAll_encodes_standard :
    let keys : Text → Bytes := Utf8.encode
    let values : Text → Value := fun table =>
      .object [(.text "\"é😀".toText, .array [.text table, .null, .number (.int (-12))]),
        (.text [CodePoint.ofNat 0xDE00, CodePoint.ofNat 0xD83D], .bool true)]
    let entries : List Text :=
      ["uB", "", "I", "", "z", "", "u", "", "l"].map fun s => Base64.encode (keys s.toText)
    let raw : Raw :=
      ("t".toText,
        Code.ofUnits (Utf16.encode (Json.ascii .compact (.array (entries.map .text))))) ::
        Scheme.standard.encodedTables.map fun table =>
          (table, encode .standard (keys table) (values table))
    Scheme.ofValue Scheme.standardName Scheme.standard.toValue = .ok Scheme.standard ∧
      Encodes raw Scheme.standard keys values ∧
      (decodeAll raw Scheme.standard (some ["z".toText, "uB".toText])).outcome =
        .ok [("z".toText, values "z".toText), ("uB".toText, values "uB".toText)] := by
  intro keys values entries raw
  have haccepted :
      Scheme.ofValue Scheme.standardName Scheme.standard.toValue = .ok Scheme.standard := rfl
  have hencodes : Encodes raw Scheme.standard keys values := by
    refine ⟨by decide +kernel, fun table h => ⟨.standard, ?_⟩, ?_⟩
    · revert table
      decide +kernel
    · refine ⟨_, entries, rfl, fun u => Utf16.encode_lt, ?_, ?_⟩
      · have hspelled : Json.Spelled (.item (.array (entries.map .text))) _ :=
          .item_of_value Json.blank_nil (Json.spelled_ascii .compact _ (by decide +kernel))
        rwa [Utf16.decode_encode (by decide +kernel)]
      · decide +kernel
  exact ⟨haccepted, hencodes, decodeAll_encodes haccepted hencodes (some ["z".toText, "uB".toText])
    (by decide +kernel)⟩

end Table

end Unproxy
