import Mathlib
import Unproxy.Literal
import Unproxy.Proofs.Text.Utf8

/-!
# Unproxy.Proofs.Literal

The source of a value can always be written: it holds no surrogate, whatever the value
holds.

Main definitions:

* `Value.SourceStep`: what is passed on from the parts of a source to the whole.

Main statements:

* `Value.SourceStep.source`: that holds of every source;
* `Number.all_isAscii_spelling`: numbers are spelt in ASCII;
* `Value.encodable_source`, `Value.encodable_literal`: sources have a UTF-8 form.
-/

namespace Unproxy

/-! ### Numbers -/

theorem all_isAscii_replicate_zero (n : Nat) :
    (List.replicate n (CodePoint.ofChar '0')).all CodePoint.isAscii = true := by
  rw [List.all_replicate]
  split <;> rfl

namespace Decimal

theorem all_isAscii_writeExponent (style : ExponentStyle) {digits : Text} (exponent : Int)
    (h : digits.all CodePoint.isAscii = true) :
    (writeExponent style digits exponent).all CodePoint.isAscii = true := by
  have hmantissa : ∀ mantissa : Text, mantissa.all CodePoint.isAscii = true →
      (mantissa ++ CodePoint.ofChar 'e' :: (if exponent < 0 then CodePoint.ofChar '-' else '+') ::
        List.replicate (style.width - (Text.ofNat exponent.natAbs).length) (CodePoint.ofChar '0') ++
          Text.ofNat exponent.natAbs).all CodePoint.isAscii = true := by
    intro mantissa hmantissa
    have hsign : (if exponent < 0 then CodePoint.ofChar '-' else '+').isAscii = true := by
      split <;> decide
    simp only [List.all_append, List.all_cons, hmantissa, hsign, all_isAscii_replicate_zero,
      Text.all_isAscii_ofNat]
    decide
  unfold writeExponent
  split
  · refine hmantissa _ ?_
    simp only [List.all_cons, Bool.and_eq_true] at h ⊢
    exact ⟨h.1, by decide, h.2⟩
  · exact hmantissa _ h

theorem all_isAscii_writePositional {digits : Text} (point : Int)
    (h : digits.all CodePoint.isAscii = true) :
    (writePositional digits point).all CodePoint.isAscii = true := by
  unfold writePositional
  split_ifs
  · simp only [List.all_append, h, all_isAscii_replicate_zero]
    decide
  · simp only [List.all_append, h, all_isAscii_replicate_zero]
    decide
  · have hsplit := h
    rw [← List.take_append_drop point.toNat digits, List.all_append, Bool.and_eq_true] at hsplit
    simp only [List.all_append, List.all_cons, hsplit.1, hsplit.2]
    decide

theorem all_isAscii_write (style : ExponentStyle) (d : Decimal) :
    (d.write style).all CodePoint.isAscii = true := by
  unfold write
  dsimp only
  split
  · exact all_isAscii_writePositional _ (Text.all_isAscii_ofNat _)
  · exact all_isAscii_writeExponent style _ (Text.all_isAscii_ofNat _)

end Decimal

namespace Binary64

theorem all_isAscii_withSign (negative : Bool) {t : Text} (h : t.all CodePoint.isAscii = true) :
    (withSign negative t).all CodePoint.isAscii = true := by
  cases negative with
  | false => exact h
  | true => rw [withSign, if_pos rfl, List.all_cons, h]; rfl

theorem all_isAscii_write (style : ExponentStyle) (f : Binary64) :
    (f.write style).all CodePoint.isAscii = true := by
  unfold write
  split
  · decide
  · exact all_isAscii_withSign _ (by decide)
  · split
    · exact all_isAscii_withSign _ (by decide)
    · exact all_isAscii_withSign _ (Decimal.all_isAscii_write style _)

end Binary64

namespace Number

theorem all_isAscii_floatSpelling (f : Binary64) :
    (floatSpelling f).all CodePoint.isAscii = true := by
  unfold floatSpelling
  split
  · split
    · exact Text.all_isAscii_ofInt _
    · exact Binary64.all_isAscii_write _ f
  · exact Binary64.all_isAscii_write _ f

/-- Numbers are spelt in ASCII. -/
theorem all_isAscii_spelling {n : Number} {t : Text} (h : n.spelling = .ok t) :
    t.all CodePoint.isAscii = true := by
  unfold spelling at h
  split at h
  · cases h
    exact all_isAscii_floatSpelling _
  · split at h
    · cases h
      exact Text.all_isAscii_ofInt _
    · rename_i i _
      cases hf : toFloat (.int i) with
      | error e => rw [hf] at h; cases h
      | ok f =>
        rw [hf] at h
        cases h
        exact all_isAscii_floatSpelling f

theorem encodable_source {n : Number} {t : Text} (h : n.source = .ok (some t)) :
    Utf8.Encodable t := by
  unfold source at h
  split at h
  · cases h
  · cases h
  · split at h
    · cases hs : n.magnitude.spelling with
      | error e => rw [hs] at h; cases h
      | ok s =>
        rw [hs] at h
        cases h
        exact Utf8.encodable_cons.mpr
          ⟨by decide, Utf8.encodable_of_isAscii (all_isAscii_spelling hs)⟩
    · cases hs : n.spelling with
      | error e => rw [hs] at h; cases h
      | ok s =>
        rw [hs] at h
        cases h
        exact Utf8.encodable_of_isAscii (all_isAscii_spelling hs)

end Number

/-! ### Values -/

/-- Surrogates in a string are written as escapes. -/
theorem Literal.encodable_string (t : Text) : Utf8.Encodable (string t) := by
  intro c hc
  obtain ⟨d, -, hd⟩ := List.mem_flatMap.mp hc
  unfold escapeSurrogate at hd
  split at hd
  · have hescape : ("\\u".toText ++ Text.hex 4 d.val).all CodePoint.isAscii = true := by
      rw [List.all_append, Text.all_isAscii_hex]
      rfl
    exact Utf8.encodable_of_isAscii hescape c hd
  · rename_i hplain
    rw [List.mem_singleton.mp hd]
    exact Bool.not_eq_true _ |>.mp hplain

theorem Text.encodable_join {separator : Text} (hseparator : Utf8.Encodable separator) :
    ∀ {parts : List Text}, (∀ part ∈ parts, Utf8.Encodable part) →
      Utf8.Encodable (join separator parts)
  | [], _ => Utf8.encodable_nil
  | [part], h => by
    rw [join, List.intercalate_singleton]
    exact h part List.mem_cons_self
  | part :: next :: parts, h => by
    rw [join, List.intercalate_cons_cons]
    have hrest := encodable_join hseparator fun p hp => h p (List.mem_cons_of_mem part hp)
    exact Utf8.encodable_append.mpr
      ⟨Utf8.encodable_append.mpr ⟨h part List.mem_cons_self, hseparator⟩, hrest⟩

namespace Value

/-- Parts with commas between them, in brackets. -/
theorem encodable_bracketed {opening closing : Text} {parts : List Text}
    (ho : opening.all CodePoint.isAscii = true) (hc : closing.all CodePoint.isAscii = true)
    (h : ∀ part ∈ parts, Utf8.Encodable part) :
    Utf8.Encodable (opening ++ Text.join ", ".toText parts ++ closing) := by
  have hjoin := Text.encodable_join (Utf8.encodable_of_isAscii (t := ", ".toText) (by decide)) h
  exact Utf8.encodable_append.mpr
    ⟨Utf8.encodable_append.mpr ⟨Utf8.encodable_of_isAscii ho, hjoin⟩, Utf8.encodable_of_isAscii hc⟩

/-- What holds of the sources without parts, and is passed on from the parts to the whole. -/
structure SourceStep (motive : Value → Text → Prop) : Prop where
  null : motive .null "null".toText
  bool (b : Bool) : motive (.bool b) (if b then "true".toText else "false".toText)
  text (t : Text) : motive (.text t) (Literal.string t)
  number {n : Number} {t : Text} (h : n.source = .ok (some t)) : motive (.number n) t
  array {items : List Value} {parts : List Text}
    (h : List.Forall₂ (fun part item => motive item part) parts items) :
    motive (.array items) ("[".toText ++ Text.join ", ".toText parts ++ "]".toText)
  object {members : List (Key × Value)} {parts : List Text}
    (h : List.Forall₂ (fun part member => ∃ t,
      part = Literal.string member.1.toText ++ ": ".toText ++ t ∧ motive member.2 t) parts members) :
    motive (.object members) ("\x7b".toText ++ Text.join ", ".toText parts ++ "\x7d".toText)

section

variable {motive : Value → Text → Prop}

mutual

/-- It holds of every source. -/
theorem SourceStep.source (step : SourceStep motive) :
    ∀ (v : Value) {t : Text}, v.source = .ok (some t) → motive v t
  | .null, _, h => by cases h; exact step.null
  | .bool b, _, h => by cases h; exact step.bool b
  | .text t, _, h => by cases h; exact step.text t
  | .number n, _, h => step.number h
  | .array items, _, h => by
    rw [Value.source] at h
    split at h
    · cases h
    · cases h
    · rename_i parts hparts
      cases h
      exact step.array (step.items items hparts)
  | .object members, _, h => by
    rw [Value.source] at h
    split at h
    · cases h
    · cases h
    · rename_i parts hparts
      cases h
      exact step.object (step.members members hparts)

theorem SourceStep.items (step : SourceStep motive) : ∀ (items : List Value) {parts : List Text},
    sourceItems items = .ok (some parts) → List.Forall₂ (fun part item => motive item part) parts items
  | [], _, h => by cases h; exact .nil
  | item :: items, _, h => by
    rw [sourceItems] at h
    split at h
    · cases h
    · cases h
    · rename_i part hpart
      split at h
      · cases h
      · cases h
      · rename_i parts hparts
        cases h
        exact .cons (step.source item hpart) (step.items items hparts)

theorem SourceStep.members (step : SourceStep motive) :
    ∀ (members : List (Key × Value)) {parts : List Text}, sourceMembers members = .ok (some parts) →
      List.Forall₂ (fun part member => ∃ t,
        part = Literal.string member.1.toText ++ ": ".toText ++ t ∧ motive member.2 t) parts members
  | [], _, h => by cases h; exact .nil
  | (key, value) :: members, _, h => by
    rw [sourceMembers] at h
    split at h
    · cases h
    · cases h
    · rename_i part hpart
      split at h
      · cases h
      · cases h
      · rename_i parts hparts
        cases h
        exact .cons ⟨part, rfl, step.source value hpart⟩ (step.members members hparts)

end

end

/-- What all parts have in common, whatever they are parts of. -/
theorem forall_of_forall₂ {α : Type} {P : Text → Prop} {parts : List Text} {as : List α}
    (h : List.Forall₂ (fun part _ => P part) parts as) : ∀ part ∈ parts, P part := by
  induction h with
  | nil => simp
  | cons hpart _ ih => exact List.forall_mem_cons.mpr ⟨hpart, ih⟩

/-- The source of a value has a UTF-8 form. -/
theorem encodable_source (v : Value) {t : Text} (h : v.source = .ok (some t)) : Utf8.Encodable t := by
  have hascii : ∀ {t : Text}, t.all CodePoint.isAscii = true → Utf8.Encodable t := fun h =>
    Utf8.encodable_of_isAscii h
  have step : SourceStep fun _ t => Utf8.Encodable t :=
    { null := hascii (by decide)
      bool := fun b => hascii (by cases b <;> decide)
      text := Literal.encodable_string
      number := Number.encodable_source
      array := fun h => encodable_bracketed (by decide) (by decide) (forall_of_forall₂ h)
      object := fun h => by
        refine encodable_bracketed (by decide) (by decide) (forall_of_forall₂ (h.imp ?_))
        rintro _ member ⟨t, rfl, ht⟩
        exact Utf8.encodable_append.mpr ⟨Utf8.encodable_append.mpr
          ⟨Literal.encodable_string _, hascii (by decide)⟩, ht⟩ }
  exact step.source v h

theorem source_of_literal {v : Value} {t : Text} {strength : Syntax.Strength}
    (h : v.literal = .ok (some (t, strength))) : v.source = .ok (some t) := by
  unfold literal at h
  cases hsource : v.source with
  | error e => rw [hsource] at h; cases h
  | ok found =>
    rw [hsource] at h
    cases found with
    | none => cases h
    | some s =>
      cases h
      rfl

theorem encodable_literal {v : Value} {t : Text} {strength : Syntax.Strength}
    (h : v.literal = .ok (some (t, strength))) : Utf8.Encodable t :=
  encodable_source v (source_of_literal h)

end Value

end Unproxy
