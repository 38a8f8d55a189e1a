import Mathlib
import Unproxy.Json.Writer
import Unproxy.Proofs.Json.Reading
import Unproxy.Proofs.Value.Entries

/-!
# Unproxy.Proofs.Json.Ascii

The writer of JSON on one line in ASCII, and its round trip through the reader.
Every code point beyond ASCII is written as the escapes of its 16-bit units.

Main definitions:

* `Json.Spacing`: the white space behind commas and colons;
* `Json.ascii`: a value on one line;
* `Value.isPortable`: the values that are read back as they are.

Main statements:

* `Json.spelled_ascii`: what is written follows the grammar;
* `Json.all_isAscii_ascii`: what is written is ASCII.
-/

namespace Unproxy

namespace Json

/-! ### The writer -/

/-- The white space behind commas and behind colons. -/
structure Spacing where
  comma : Text
  colon : Text
  blank_comma : Blank comma
  blank_colon : Blank colon

/-- One blank behind each comma and each colon. -/
def Spacing.standard : Spacing := ⟨" ".toText, " ".toText, rfl, rfl⟩

/-- No white space at all. -/
def Spacing.compact : Spacing := ⟨[], [], rfl, rfl⟩

/-- One code point of a string. -/
def asciiEscaped (c : CodePoint) : Text :=
  if c.val < 0x7F then escaped c
  else (Utf16.encodeOne c).flatMap fun unit => unitEscape (Text.hex 4 unit) []

/-- A string in quotes. -/
def asciiString (t : Text) : Text := quoted (t.flatMap asciiEscaped)

mutual

/-- A value on one line. -/
def ascii (spacing : Spacing) : Value → Text
  | .null => "null".toText
  | .bool b => if b then "true".toText else "false".toText
  | .number n => writeNumber n
  | .text t => asciiString t
  | .array items => '[' :: (asciiItems spacing items ++ [CodePoint.ofChar ']'])
  | .object members => '\x7b' :: (asciiMembers spacing members ++ [CodePoint.ofChar '\x7d'])
  | .other name => asciiString (Value.other name).display

/-- Items with commas between them. -/
def asciiItems (spacing : Spacing) : List Value → Text
  | [] => []
  | [item] => ascii spacing item
  | item :: items =>
    ascii spacing item ++ CodePoint.ofChar ',' :: (spacing.comma ++ asciiItems spacing items)

/-- Members with commas between them. -/
def asciiMembers (spacing : Spacing) : List (Key × Value) → Text
  | [] => []
  | [(key, value)] =>
    asciiString key.toText ++ CodePoint.ofChar ':' :: (spacing.colon ++ ascii spacing value)
  | (key, value) :: members =>
    asciiString key.toText ++ CodePoint.ofChar ':' :: (spacing.colon ++ ascii spacing value) ++
      CodePoint.ofChar ',' :: (spacing.comma ++ asciiMembers spacing members)

end

end Json

namespace Key

/-- A name without unjoined halves of a pair. -/
def isPortable : Key → Bool
  | .text t => decide (Utf16.Joined t)
  | _ => false

end Key

namespace Value

mutual

/-- Values that a JSON text carries without loss: no doubles, no integer too long to
be read, no text with unjoined halves of a pair, and no name twice in an object. -/
def isPortable : Value → Bool
  | .null => true
  | .bool _ => true
  | .number (.int i) => decide ((Text.ofNat i.natAbs).length ≤ Number.maxDigits)
  | .number (.float _) => false
  | .text t => decide (Utf16.Joined t)
  | .array items => arePortable items
  | .object members => decide (members.map Prod.fst).Nodup && membersPortable members
  | .other _ => false

/-- Whether all of a row of values are portable. -/
def arePortable : List Value → Bool
  | [] => true
  | item :: items => item.isPortable && arePortable items

/-- Whether all of a row of members are portable. -/
def membersPortable : List (Key × Value) → Bool
  | [] => true
  | (key, value) :: members => key.isPortable && value.isPortable && membersPortable members

end

end Value

namespace Json

/-! ### Strings -/

theorem fourHex_hex {unit : Nat} (h : unit < 0x10000) : FourHex unit (Text.hex 4 unit) :=
  ⟨Text.length_hex_four h, Text.all_isHexDigit_hex 4 unit, Text.valueIn_hex 4 unit⟩

theorem unitEscape_append (digits rest more : Text) :
    unitEscape digits rest ++ more = unitEscape digits (rest ++ more) := by
  simp only [unitEscape, List.cons_append, List.append_assoc]

/-- The digits of an escape can be told from what follows it. -/
theorem isLow_of_beginsLow {unit : Nat} (h : unit < 0x10000) {rest : Text}
    (hlow : BeginsLow (unitEscape (Text.hex 4 unit) rest)) : Utf16.isLow unit = true := by
  obtain ⟨unit', digits, rest', hdigits, hunit', heq⟩ := hlow
  simp only [unitEscape, List.cons.injEq, true_and] at heq
  have hsame := (List.append_inj heq (by rw [hdigits.length, Text.length_hex_four h])).1
  have hvalue : unit = unit' := by
    rw [← hdigits.value, ← hsame, Text.valueIn_hex]
  rw [hvalue]
  exact hunit'

/-- A code point is escaped by a letter, by its number, or not at all. -/
theorem escaped_cases (c : CodePoint) :
    (∃ d, simpleEscape? d = some c ∧ escaped c = [CodePoint.ofChar '\\', d]) ∨
      (c.val < 0x20 ∧ escaped c = unitEscape (Text.hex 4 c.val) []) ∨
      (0x20 ≤ c.val ∧ c ≠ CodePoint.ofChar '"' ∧ c ≠ CodePoint.ofChar '\\' ∧ escaped c = [c]) := by
  have hval : ∀ {n : Nat}, n < 0x110000 → c.val = n → CodePoint.ofNat n = c := by
    intro n hn hc
    exact Fin.ext (by rw [CodePoint.val_ofNat hn, hc])
  unfold escaped
  split
  · rename_i h
    exact .inl ⟨CodePoint.ofChar '"', by rw [h]; decide, rfl⟩
  split
  · rename_i h
    exact .inl ⟨CodePoint.ofChar '\\', by rw [h]; decide, rfl⟩
  split
  · rename_i h
    exact .inl ⟨CodePoint.ofChar 'n', by rw [← hval (by decide) h]; decide, rfl⟩
  split
  · rename_i h
    exact .inl ⟨CodePoint.ofChar 'r', by rw [← hval (by decide) h]; decide, rfl⟩
  split
  · rename_i h
    exact .inl ⟨CodePoint.ofChar 't', by rw [← hval (by decide) h]; decide, rfl⟩
  split
  · rename_i h
    exact .inl ⟨CodePoint.ofChar 'f', by rw [← hval (by decide) h]; decide, rfl⟩
  split
  · rename_i h
    exact .inl ⟨CodePoint.ofChar 'b', by rw [← hval (by decide) h]; decide, rfl⟩
  split
  · rename_i h
    refine .inr (.inl ⟨h, ?_⟩)
    rw [unitEscape, List.append_nil]
    rfl
  · rename_i hquote hbackslash _ _ _ _ _ hcontrol
    exact .inr (.inr ⟨Nat.not_lt.mp hcontrol, hquote, hbackslash, rfl⟩)

/-- The escaped form of a code point stands for it in front of any spelling. -/
theorem StringBody.escaped {value spelling : Text} (c : CodePoint)
    (rest : StringBody value spelling) :
    StringBody (c :: value) (Json.escaped c ++ spelling) := by
  rcases escaped_cases c with ⟨d, hd, hc⟩ | ⟨hlow, hc⟩ | ⟨control, quote, backslash, hc⟩
  · rw [hc]
    exact .letter hd rest
  · rw [hc, unitEscape_append, List.nil_append]
    have hunit := StringBody.unit (fourHex_hex (Nat.lt_trans hlow (by decide)))
      (fun hhigh => absurd hhigh ?_) rest
    · rwa [CodePoint.ofNat_val] at hunit
    · simp only [Utf16.isHigh, Bool.and_eq_true, decide_eq_true_eq]
      omega
  · rw [hc]
    exact .plain control quote backslash rest

theorem not_beginsLow_escaped {c : CodePoint} (spelling : Text) :
    ¬BeginsLow (escaped c ++ spelling) := by
  rcases escaped_cases c with ⟨d, hd, hc⟩ | ⟨hlow, hc⟩ | ⟨-, -, backslash, hc⟩
  · rintro ⟨unit, digits, rest, -, -, heq⟩
    rw [hc] at heq
    simp only [unitEscape, List.cons_append, List.cons.injEq, true_and] at heq
    exact ne_u_of_simpleEscape? hd heq.1
  · rw [hc, unitEscape_append]
    intro h
    have hunit := isLow_of_beginsLow (Nat.lt_trans hlow (by decide)) h
    simp only [Utf16.isLow, Bool.and_eq_true, decide_eq_true_eq] at hunit
    omega
  · rintro ⟨unit, digits, rest, -, -, heq⟩
    rw [hc] at heq
    simp only [unitEscape, List.cons_append, List.cons.injEq] at heq
    exact backslash heq.1

/-- A code point of one unit beyond ASCII is the escape of that unit. -/
theorem asciiEscaped_of_lt {c : CodePoint} (h : 0x7F ≤ c.val) (hc : c.val < 0x10000) :
    asciiEscaped c = unitEscape (Text.hex 4 c.val) [] := by
  rw [asciiEscaped, if_neg (Nat.not_lt.mpr h), Utf16.encodeOne_of_lt hc, List.flatMap_singleton]

/-- A code point of two units is the escapes of both. -/
theorem asciiEscaped_of_le {c : CodePoint} (h : 0x10000 ≤ c.val) :
    asciiEscaped c = unitEscape (Text.hex 4 (0xD800 + (c.val - 0x10000) / 0x400))
      (unitEscape (Text.hex 4 (0xDC00 + (c.val - 0x10000) % 0x400)) []) := by
  rw [asciiEscaped, if_neg (by omega), Utf16.encodeOne_of_le h]
  simp only [List.flatMap_cons, List.flatMap_nil, List.append_nil, unitEscape_append,
    List.nil_append]

/-- What is written for a text begins with a low half only if the text does. -/
theorem isLowSurrogate_of_beginsLow {t : Text} (h : BeginsLow (t.flatMap asciiEscaped)) :
    ∃ d t', t = d :: t' ∧ d.isLowSurrogate = true := by
  cases t with
  | nil =>
    obtain ⟨unit, digits, rest, -, -, heq⟩ := h
    cases heq
  | cons d t =>
    refine ⟨d, t, rfl, ?_⟩
    rw [List.flatMap_cons] at h
    by_cases hascii : d.val < 0x7F
    · rw [asciiEscaped, if_pos hascii] at h
      exact absurd h (not_beginsLow_escaped _)
    by_cases hd : d.val < 0x10000
    · rw [asciiEscaped_of_lt (Nat.not_lt.mp hascii) hd, unitEscape_append] at h
      exact isLow_of_beginsLow hd h
    · have hle := Nat.not_lt.mp hd
      have hlt := d.isLt
      rw [asciiEscaped_of_le hle, unitEscape_append] at h
      have hlow := isLow_of_beginsLow (by omega) h
      rw [not_isLow_of_isHigh (Utf16.isHigh_first hle)] at hlow
      cases hlow

/-- A text is read back from its escaped form. -/
theorem stringBody_ascii {t : Text} (h : Utf16.Joined t) :
    StringBody t (t.flatMap asciiEscaped) := by
  induction t with
  | nil => exact .nil
  | cons c t ih =>
    have hrest := ih h.tail
    have hlt := c.isLt
    rw [List.flatMap_cons]
    by_cases hascii : c.val < 0x7F
    · rw [asciiEscaped, if_pos hascii]
      exact hrest.escaped c
    by_cases hc : c.val < 0x10000
    · rw [asciiEscaped_of_lt (Nat.not_lt.mp hascii) hc, unitEscape_append, List.nil_append]
      have hunit := StringBody.unit (fourHex_hex hc) ?_ hrest
      · rwa [CodePoint.ofNat_val] at hunit
      · intro hhigh hlow
        obtain ⟨d, t', rfl, hd⟩ := isLowSurrogate_of_beginsLow hlow
        exact (List.isChain_cons_cons.mp h).1 ⟨hhigh, hd⟩
    · have hle := Nat.not_lt.mp hc
      have hpair := StringBody.pair
        (fourHex_hex (show 0xD800 + (c.val - 0x10000) / 0x400 < 0x10000 by omega))
        (fourHex_hex (show 0xDC00 + (c.val - 0x10000) % 0x400 < 0x10000 by omega))
        (Utf16.isHigh_first hle) (Utf16.isLow_second c) hrest
      rw [Utf16.pair_halves hle] at hpair
      rwa [asciiEscaped_of_le hle, unitEscape_append, unitEscape_append, List.nil_append]

/-! ### Values -/

theorem blank_nil : Blank [] := rfl

/-- The numeral of an integer that is not too long spells it. -/
theorem integerSpelling_ofInt {i : Int} (h : (Text.ofNat i.natAbs).length ≤ Number.maxDigits) :
    IntegerSpelling i (Text.ofInt i) := by
  have hzero : ∀ n, (Text.ofNat n).head? = some (CodePoint.ofChar '0') →
      (Text.ofNat n).length = 1 := by
    intro n hn
    rw [Text.eq_zero_of_head?_ofNat hn]
    rfl
  cases i with
  | ofNat n =>
    have hspelling := IntegerSpelling.digits false (Text.ofNat_ne_nil n)
      (Text.all_isDigit_ofNat n) (hzero n) h
    rwa [Text.valueIn_ofNat] at hspelling
  | negSucc n =>
    have hspelling := IntegerSpelling.digits true (Text.ofNat_ne_nil (n + 1))
      (Text.all_isDigit_ofNat (n + 1)) (hzero (n + 1)) h
    rwa [Text.valueIn_ofNat] at hspelling

/-- A value with white space in front of it. -/
theorem Spelled.item_of_value {v : Value} {b s : Text} (before : Blank b)
    (value : Spelled (.value v) s) : Spelled (.item v) (b ++ s) := by
  have hitem := Spelled.item before value blank_nil
  rwa [List.append_nil] at hitem

/-- A name that is written, a colon and a value are a member. -/
theorem spelled_asciiMember {t : Text} {v : Value} {b s : Text} (spacing : Spacing)
    (joined : Utf16.Joined t) (before : Blank b) (value : Spelled (.value v) s) :
    Spelled (.member t v)
      (b ++ (asciiString t ++ CodePoint.ofChar ':' :: (spacing.colon ++ s))) :=
  .member before (stringBody_ascii joined) blank_nil (.item_of_value spacing.blank_colon value)

theorem membersPortable_text : ∀ {members : List (Key × Value)},
    Value.membersPortable members = true → ∀ m ∈ members, ∃ t, m.1 = .text t
  | [], _, m, hm => by cases hm
  | (key, value) :: members, h, m, hm => by
    simp only [Value.membersPortable, Bool.and_eq_true] at h
    rcases List.mem_cons.mp hm with rfl | hm
    · cases key with
      | text t => exact ⟨t, rfl⟩
      | null => cases h.1.1
      | bool b => cases h.1.1
      | number n => cases h.1.1
    · exact membersPortable_text h.2 m hm

mutual

/-- What is written for a portable value spells it. -/
theorem spelled_ascii (spacing : Spacing) :
    ∀ v : Value, v.isPortable = true → Spelled (.value v) (ascii spacing v)
  | .null, _ => .null
  | .bool true, _ => .true
  | .bool false, _ => .false
  | .number (.int i), h => .integer (integerSpelling_ofInt (of_decide_eq_true h))
  | .text t, h => .string (stringBody_ascii (of_decide_eq_true h))
  | .array [], _ => .emptyArray blank_nil
  | .array (item :: items), h =>
    .array (spelled_asciiItems spacing (item :: items) (by simp) blank_nil h)
  | .object [], _ => .emptyObject blank_nil
  | .object (member :: members), h => by
    rw [Value.isPortable, Bool.and_eq_true] at h
    have hmembers := spelled_asciiMembers spacing (member :: members) (by simp) blank_nil h.2
    have hobject := Spelled.object hmembers
    rw [Value.ofPairs_of_nodup (membersPortable_text h.2) (of_decide_eq_true h.1)] at hobject
    exact hobject

theorem spelled_asciiItems (spacing : Spacing) :
    ∀ items : List Value, items ≠ [] → ∀ {b : Text}, Blank b → Value.arePortable items = true →
      Spelled (.items items) (b ++ asciiItems spacing items)
  | [], hne, _, _, _ => absurd rfl hne
  | [item], _, b, before, h => by
    rw [Value.arePortable, Bool.and_eq_true] at h
    exact .lastItem (.item_of_value before (spelled_ascii spacing item h.1))
  | item :: next :: items, _, b, before, h => by
    rw [Value.arePortable, Bool.and_eq_true] at h
    have hitem := Spelled.item_of_value before (spelled_ascii spacing item h.1)
    have hothers :=
      spelled_asciiItems spacing (next :: items) (by simp) spacing.blank_comma h.2
    have hall := Spelled.items hitem hothers
    rwa [List.append_assoc] at hall

theorem spelled_asciiMembers (spacing : Spacing) :
    ∀ members : List (Key × Value), members ≠ [] → ∀ {b : Text}, Blank b →
      Value.membersPortable members = true →
      Spelled (.members members) (b ++ asciiMembers spacing members)
  | [], hne, _, _, _ => absurd rfl hne
  | [(.text t, value)], _, b, before, h => by
    rw [Value.membersPortable, Bool.and_eq_true, Bool.and_eq_true] at h
    exact .lastMember (spelled_asciiMember spacing (of_decide_eq_true h.1.1) before
      (spelled_ascii spacing value h.1.2))
  | (.text t, value) :: next :: members, _, b, before, h => by
    rw [Value.membersPortable, Bool.and_eq_true, Bool.and_eq_true] at h
    have hmember := spelled_asciiMember spacing (of_decide_eq_true h.1.1) before
      (spelled_ascii spacing value h.1.2)
    have hothers :=
      spelled_asciiMembers spacing (next :: members) (by simp) spacing.blank_comma h.2
    have hall := Spelled.members hmember hothers
    rwa [List.append_assoc] at hall

end

/-! ### ASCII only -/

theorem isAscii_of_isBlank {c : CodePoint} (h : Place.isBlank c = true) : c.isAscii = true := by
  simp only [Place.isBlank, Bool.or_eq_true, beq_iff_eq] at h
  simp only [CodePoint.isAscii, decide_eq_true_eq]
  omega

theorem all_isAscii_unitEscape (unit : Nat) :
    (unitEscape (Text.hex 4 unit) []).all CodePoint.isAscii = true := by
  rw [unitEscape, List.all_cons, List.all_cons, List.append_nil, Text.all_isAscii_hex]
  rfl

theorem all_isAscii_blank {b : Text} (h : Blank b) : b.all CodePoint.isAscii = true :=
  List.all_eq_true.mpr fun c hc => isAscii_of_isBlank (List.all_eq_true.mp h c hc)

theorem all_isAscii_asciiEscaped (c : CodePoint) :
    (asciiEscaped c).all CodePoint.isAscii = true := by
  unfold asciiEscaped
  split
  · rename_i hc
    unfold escaped
    split_ifs
    iterate 7 rfl
    · rw [List.all_append, Text.all_isAscii_hex]
      rfl
    · simp only [List.all_cons, List.all_nil, CodePoint.isAscii, Bool.and_true, decide_eq_true_eq]
      omega
  · rw [List.all_flatMap]
    exact List.all_eq_true.mpr fun unit _ => all_isAscii_unitEscape unit

theorem all_isAscii_asciiString (t : Text) : (asciiString t).all CodePoint.isAscii = true := by
  have hbody : (t.flatMap asciiEscaped).all CodePoint.isAscii = true := by
    rw [List.all_flatMap]
    exact List.all_eq_true.mpr fun c _ => all_isAscii_asciiEscaped c
  rw [asciiString, quoted, List.all_cons, List.all_append, hbody]
  rfl

theorem all_isAscii_joined {s s' b : Text} {c : CodePoint} (h : s.all CodePoint.isAscii = true)
    (hc : c.isAscii = true) (hb : Blank b) (h' : s'.all CodePoint.isAscii = true) :
    (s ++ c :: (b ++ s')).all CodePoint.isAscii = true := by
  rw [List.all_append, List.all_cons, List.all_append, h, hc, all_isAscii_blank hb, h']
  rfl

theorem all_isAscii_bracketed {s : Text} {c d : CodePoint} (hc : c.isAscii = true)
    (hd : d.isAscii = true) (h : s.all CodePoint.isAscii = true) :
    (c :: (s ++ [d])).all CodePoint.isAscii = true := by
  rw [List.all_cons, List.all_append, List.all_cons, hc, hd, h]
  rfl

mutual

/-- What is written for a portable value is ASCII. -/
theorem all_isAscii_ascii (spacing : Spacing) :
    ∀ v : Value, v.isPortable = true → (ascii spacing v).all CodePoint.isAscii = true
  | .null, _ => rfl
  | .bool true, _ => rfl
  | .bool false, _ => rfl
  | .number (.int i), _ => Text.all_isAscii_ofInt i
  | .text t, _ => all_isAscii_asciiString t
  | .array items, h =>
    all_isAscii_bracketed (by decide) (by decide) (all_isAscii_asciiItems spacing items h)
  | .object members, h => by
    rw [Value.isPortable, Bool.and_eq_true] at h
    exact all_isAscii_bracketed (by decide) (by decide)
      (all_isAscii_asciiMembers spacing members h.2)

theorem all_isAscii_asciiItems (spacing : Spacing) :
    ∀ items : List Value, Value.arePortable items = true →
      (asciiItems spacing items).all CodePoint.isAscii = true
  | [], _ => rfl
  | [item], h => by
    rw [Value.arePortable, Bool.and_eq_true] at h
    exact all_isAscii_ascii spacing item h.1
  | item :: next :: items, h => by
    rw [Value.arePortable, Bool.and_eq_true] at h
    exact all_isAscii_joined (all_isAscii_ascii spacing item h.1) (by decide) spacing.blank_comma
      (all_isAscii_asciiItems spacing (next :: items) h.2)

theorem all_isAscii_asciiMembers (spacing : Spacing) :
    ∀ members : List (Key × Value), Value.membersPortable members = true →
      (asciiMembers spacing members).all CodePoint.isAscii = true
  | [], _ => rfl
  | [(key, value)], h => by
    rw [Value.membersPortable, Bool.and_eq_true, Bool.and_eq_true] at h
    exact all_isAscii_joined (all_isAscii_asciiString key.toText) (by decide)
      spacing.blank_colon (all_isAscii_ascii spacing value h.1.2)
  | (key, value) :: next :: members, h => by
    rw [Value.membersPortable, Bool.and_eq_true, Bool.and_eq_true] at h
    have hmember := all_isAscii_joined (c := CodePoint.ofChar ':')
      (all_isAscii_asciiString key.toText) (by decide) spacing.blank_colon
      (all_isAscii_ascii spacing value h.1.2)
    exact all_isAscii_joined hmember (by decide) spacing.blank_comma
      (all_isAscii_asciiMembers spacing (next :: members) h.2)

end

end Json

end Unproxy
