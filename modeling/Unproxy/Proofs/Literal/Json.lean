import Mathlib
import Unproxy.Proofs.Json.Outcome
import Unproxy.Proofs.Literal.Tokens

/-!
# Unproxy.Proofs.Literal.Json

Sources of values are JSON texts: read as such, they give back the value they were written for.
Numbers are written in the way of programs, so integers from the bound on at which they get an
exponent are left out, and so are all doubles.

Main statements:

* `Literal.stringBody_body`: string literals are JSON strings;
* `Number.source_int`: integers below the bound are written as their numerals;
* `Value.spelled_source`, `Value.read_source`: sources spell their values.
-/

namespace Unproxy

/-! ### Strings -/

namespace Literal

/-- What is written for a text begins with the escape of a low half only if the text does. -/
theorem isLowSurrogate_of_beginsLow_body {t : Text} (h : Json.BeginsLow (body t)) :
    ∃ d u, t = d :: u ∧ d.isLowSurrogate = true := by
  cases t with
  | nil =>
    obtain ⟨unit, digits, rest, -, -, heq⟩ := h
    cases heq
  | cons d t =>
    refine ⟨d, t, rfl, ?_⟩
    rw [body_cons] at h
    rcases escaped_cases d with ⟨-, hsame⟩ | ⟨hsurrogate, hescape⟩
    · rw [hsame] at h
      exact absurd h (Json.not_beginsLow_escaped _)
    · simp only [CodePoint.isSurrogate, Bool.and_eq_true, decide_eq_true_eq] at hsurrogate
      rw [hescape, Json.unitEscape_append] at h
      exact Json.isLow_of_beginsLow (by omega) h

/-- A text without unjoined halves is read back from what is written for it. -/
theorem stringBody_body {t : Text} (h : Utf16.Joined t) : Json.StringBody t (body t) := by
  induction t with
  | nil => exact .nil
  | cons c t ih =>
    have hrest := ih h.tail
    rw [body_cons]
    rcases escaped_cases c with ⟨-, hsame⟩ | ⟨hsurrogate, hescape⟩
    · rw [hsame]
      exact hrest.escaped c
    · simp only [CodePoint.isSurrogate, Bool.and_eq_true, decide_eq_true_eq] at hsurrogate
      rw [hescape, Json.unitEscape_append, List.nil_append]
      have hunit := Json.StringBody.unit (Json.fourHex_hex (by omega : c.val < 0x10000)) ?_ hrest
      · rwa [CodePoint.ofNat_val] at hunit
      · -- Two escapes would be joined if they were the halves of a pair.
        intro hhigh hlow
        obtain ⟨d, u, rfl, hd⟩ := isLowSurrogate_of_beginsLow_body hlow
        exact (List.isChain_cons_cons.mp h).1 ⟨hhigh, hd⟩

end Literal

/-! ### Numbers -/

namespace Number

/-- An integer below the bound is written as its numeral. -/
theorem source_int {i : Int} (h : i.natAbs < exponentBound) :
    (int i).source = .ok (some (Text.ofInt i)) := by
  have hspelling : ∀ j : Int, j.natAbs < exponentBound → (int j).spelling = .ok (Text.ofInt j) := by
    intro j hj
    exact if_pos hj
  cases i with
  | ofNat n =>
    have hsign : (int (.ofNat n)).isBelowZero = false := by
      simp [isBelowZero]
    simp only [source, hsign, hspelling _ h]
    rfl
  | negSucc n =>
    have hsign : (int (.negSucc n)).isBelowZero = true := by
      simp [isBelowZero, Int.negSucc_lt_zero]
    have hmagnitude : (int (.negSucc n)).magnitude.spelling = .ok (Text.ofNat (n + 1)) :=
      hspelling (.ofNat (n + 1)) h
    simp only [source, hsign, hmagnitude]
    rfl

end Number

/-! ### Values -/

namespace Json

/-- A name that is written as a string literal, a colon and a value are a member. -/
theorem spelled_sourceMember {t : Text} {v : Value} {b s : Text} (joined : Utf16.Joined t)
    (before : Blank b) (value : Spelled (.value v) s) :
    Spelled (.member t v) (b ++ (Literal.string t ++ ": ".toText ++ s)) := by
  have hmember := Spelled.member before (Literal.stringBody_body joined) blank_nil
    (.item_of_value (b := " ".toText) rfl value)
  have hstring : Literal.string t = quoted (Literal.body t) := Literal.string_eq t
  rw [hstring, List.append_assoc]
  exact hmember

end Json

namespace Value

open Json (Spelled Blank)

mutual

/-- The source of a portable value with short integers spells it. -/
theorem spelled_source : ∀ v : Value, v.isPortable = true →
    (∀ i, Number.int i ∈ v.numbers → i.natAbs < Number.exponentBound) →
    ∃ t, v.source = .ok (some t) ∧ Spelled (.value v) t
  | .null, _, _ => ⟨_, rfl, .null⟩
  | .bool true, _, _ => ⟨_, rfl, .true⟩
  | .bool false, _, _ => ⟨_, rfl, .false⟩
  | .number (.int i), h, hshort => by
    refine ⟨Text.ofInt i, Number.source_int (hshort i (List.mem_singleton.mpr rfl)), ?_⟩
    exact .integer (Json.integerSpelling_ofInt (of_decide_eq_true h))
  | .text t, h, _ => by
    refine ⟨Literal.string t, rfl, ?_⟩
    rw [Literal.string_eq]
    exact .string (Literal.stringBody_body (of_decide_eq_true h))
  | .array [], _, _ => ⟨_, rfl, .emptyArray (b := []) rfl⟩
  | .array (item :: items), h, hshort => by
    obtain ⟨part, parts, hparts, hspelled⟩ :=
      spelled_sourceItems (item :: items) (by simp) (b := []) rfl h hshort
    refine ⟨"[".toText ++ Text.join ", ".toText (part :: parts) ++ "]".toText, ?_,
      .array hspelled⟩
    rw [source, hparts]
  | .object [], _, _ => ⟨_, rfl, .emptyObject (b := []) rfl⟩
  | .object (member :: members), h, hshort => by
    rw [isPortable, Bool.and_eq_true] at h
    obtain ⟨part, parts, hparts, hspelled⟩ :=
      spelled_sourceMembers (member :: members) (by simp) (b := []) rfl h.2 hshort
    have hobject := Spelled.object hspelled
    rw [ofPairs_of_nodup (Json.membersPortable_text h.2) (of_decide_eq_true h.1)] at hobject
    refine ⟨"\x7b".toText ++ Text.join ", ".toText (part :: parts) ++ "\x7d".toText, ?_, hobject⟩
    rw [source, hparts]

theorem spelled_sourceItems : ∀ items : List Value, items ≠ [] → ∀ {b : Text}, Blank b →
    arePortable items = true →
    (∀ i, Number.int i ∈ itemNumbers items → i.natAbs < Number.exponentBound) →
    ∃ part parts, sourceItems items = .ok (some (part :: parts)) ∧
      Spelled (.items items) (b ++ Text.join ", ".toText (part :: parts))
  | [], hne, _, _, _, _ => absurd rfl hne
  | [item], _, b, before, h, hshort => by
    rw [arePortable, Bool.and_eq_true] at h
    obtain ⟨t, ht, hspelled⟩ := spelled_source item h.1 fun i hi =>
      hshort i (List.mem_append_left _ hi)
    refine ⟨t, [], by simp only [sourceItems, ht], ?_⟩
    rw [Text.join, List.intercalate_singleton]
    exact .lastItem (.item_of_value before hspelled)
  | item :: next :: items, _, b, before, h, hshort => by
    rw [arePortable, Bool.and_eq_true] at h
    obtain ⟨t, ht, hspelled⟩ := spelled_source item h.1 fun i hi =>
      hshort i (List.mem_append_left _ hi)
    obtain ⟨part, parts, hparts, hothers⟩ :=
      spelled_sourceItems (next :: items) (by simp) (b := " ".toText) rfl h.2
        fun i hi => hshort i (List.mem_append_right _ hi)
    refine ⟨t, part :: parts, by rw [sourceItems, ht, hparts], ?_⟩
    have hall := Spelled.items (.item_of_value before hspelled) hothers
    rwa [Text.join, List.intercalate_cons_cons, List.append_assoc, ← List.append_assoc]

theorem spelled_sourceMembers : ∀ members : List (Key × Value), members ≠ [] → ∀ {b : Text},
    Blank b → membersPortable members = true →
    (∀ i, Number.int i ∈ memberNumbers members → i.natAbs < Number.exponentBound) →
    ∃ part parts, sourceMembers members = .ok (some (part :: parts)) ∧
      Spelled (.members members) (b ++ Text.join ", ".toText (part :: parts))
  | [], hne, _, _, _, _ => absurd rfl hne
  | [(.text name, value)], _, b, before, h, hshort => by
    rw [membersPortable, Bool.and_eq_true, Bool.and_eq_true] at h
    obtain ⟨t, ht, hspelled⟩ := spelled_source value h.1.2 fun i hi =>
      hshort i (List.mem_append_left _ hi)
    refine ⟨Literal.string name ++ ": ".toText ++ t, [],
      by simp only [sourceMembers, ht]; rfl, ?_⟩
    rw [Text.join, List.intercalate_singleton]
    exact .lastMember (Json.spelled_sourceMember (of_decide_eq_true h.1.1) before hspelled)
  | (.text name, value) :: next :: members, _, b, before, h, hshort => by
    rw [membersPortable, Bool.and_eq_true, Bool.and_eq_true] at h
    obtain ⟨t, ht, hspelled⟩ := spelled_source value h.1.2 fun i hi =>
      hshort i (List.mem_append_left _ hi)
    obtain ⟨part, parts, hparts, hothers⟩ :=
      spelled_sourceMembers (next :: members) (by simp) (b := " ".toText) rfl h.2
        fun i hi => hshort i (List.mem_append_right _ hi)
    refine ⟨Literal.string name ++ ": ".toText ++ t, part :: parts,
      by rw [sourceMembers, ht, hparts]; rfl, ?_⟩
    have hmember := Json.spelled_sourceMember (of_decide_eq_true h.1.1) before hspelled
    have hall := Spelled.members hmember hothers
    rwa [Text.join, List.intercalate_cons_cons, List.append_assoc _ ", ".toText,
      ← List.append_assoc]

end

/-- A value has a source, and that is JSON that reads back as the value, members in their order. The
value holds no doubles and no integer that is written with an exponent, no text with unjoined
halves of a pair, and no name twice in an object. That an interpreter gives up on values that are
nested too deeply is left out. -/
theorem read_source {v : Value} (portable : v.isPortable = true)
    (short : ∀ i, Number.int i ∈ v.numbers → i.natAbs < 10 ^ 21) :
    ∃ t, v.source = .ok (some t) ∧ Json.read t = .ok v := by
  have hbound : Number.exponentBound = 10 ^ 21 := by decide
  obtain ⟨t, hsource, hspelled⟩ := spelled_source v portable (hbound ▸ short)
  have hitem : Spelled (.item v) t := .item_of_value Json.blank_nil hspelled
  exact ⟨t, hsource, Json.read_spelled hitem⟩

/-- A value with the greatest integers of either sign, a control, quotes and a line separator, lone
halves in either place, a text that looks like syntax, and nested and empty parts. -/
theorem read_source_nested :
    let v : Value := .object
      [(.text "b\"\\\x01".toText,
          .array [.number (.int (10 ^ 21 - 1)), .number (.int (1 - 10 ^ 21)), .array []]),
        (.text [], .text ([0x2028, 0xDE00, 0xD83D].map CodePoint.ofNat)),
        (.text "a".toText,
          .object [(.text "],\x7d".toText, .bool false), (.text "é😀".toText, .null)]),
        (.text "\n".toText, .object [])]
    v.isPortable = true ∧ ∃ t, v.source = .ok (some t) ∧ Json.read t = .ok v := by
  intro v
  have hportable : v.isPortable = true := by decide +kernel
  have hnumbers : v.numbers = [.int (10 ^ 21 - 1), .int (1 - 10 ^ 21)] := by decide +kernel
  refine ⟨hportable, read_source hportable fun i hi => ?_⟩
  rw [hnumbers] at hi
  simp only [List.mem_cons, Number.int.injEq, List.not_mem_nil, or_false] at hi
  omega

end Value

end Unproxy
