import Mathlib
import Unproxy.Json.Reader
import Unproxy.Proofs.Number.Reading
import Unproxy.Proofs.Number.Rounding
import Unproxy.Proofs.Value.Entries

/-!
# Unproxy.Proofs.Json.Outcome

What reading JSON can come to. What is read is made of the forms of JSON alone: its doubles are
canonical, its keys are texts and no object has a key twice. Reading fails where the text is no JSON,
and there is one other way: at an integer with more digits than can be read.

The reader is followed once, over all its outcomes. `Sound` says what an outcome may be, and there
is a lemma for each way in which the reader puts outcomes together.

Main definitions:

* `Value.IsJson`: the values that JSON texts stand for;
* `Value.numbers`: the numbers in a value;
* `Text.HasDigits`: a text with a number of digits in a row;
* `Json.Sound`: what the outcome of reading a part of a text may be.

Main statements:

* `Json.isJson_of_read`: what is read is made of the forms of JSON;
* `Json.hasDigits_of_read`: reading fails otherwise at an integer that is too long.
-/

namespace Unproxy

/-! ### Values -/

/-- The values that JSON texts stand for. -/
inductive Value.IsJson : Value → Prop
  | null : IsJson .null
  | bool (b : Bool) : IsJson (.bool b)
  | int (i : Int) : IsJson (.number (.int i))
  | float {f : Binary64} (canonical : f.IsCanonical) : IsJson (.number (.float f))
  | text (t : Text) : IsJson (.text t)
  | array {items : List Value} (all : ∀ v ∈ items, IsJson v) : IsJson (.array items)
  | object {members : List (Key × Value)} (named : ∀ m ∈ members, ∃ t, m.1 = .text t)
      (nodup : (members.map Prod.fst).Nodup) (all : ∀ m ∈ members, IsJson m.2) :
      IsJson (.object members)

namespace Value

/-- Pairs make an object. A key that comes again takes the later value. -/
theorem isJson_ofPairs {pairs : List (Key × Value)} (named : ∀ m ∈ pairs, ∃ t, m.1 = .text t)
    (all : ∀ m ∈ pairs, IsJson m.2) : IsJson (ofPairs pairs) := by
  have hfold : ∀ (later earlier : List (Key × Value)), (∀ m ∈ later, ∃ t, m.1 = .text t) →
      (∀ m ∈ later, IsJson m.2) → IsJson (.object earlier) →
      IsJson (.object (later.foldl (fun members m => Entries.setBy Key.same m.1 m.2 members)
        earlier)) := by
    intro later
    induction later with
    | nil => exact fun _ _ _ h => h
    | cons m later ih =>
      intro earlier named all h
      rw [List.forall_mem_cons] at named all
      refine ih _ named.2 all.2 ?_
      obtain ⟨key, value⟩ := m
      obtain ⟨name, rfl⟩ : ∃ name, key = .text name := named.1
      cases h with
      | object hnamed hnodup hall =>
        simp only [setBy_same_of_text value hnamed]
        refine .object (fun m hm => ?_) (Entries.nodup_keys_set value hnodup) fun m hm => ?_
        · rcases Entries.mem_set hm with rfl | hm
          · exact ⟨name, rfl⟩
          · exact hnamed m hm
        · rcases Entries.mem_set hm with rfl | hm
          · exact all.1
          · exact hall m hm
  exact hfold pairs [] named all (.object (by simp) (by simp) (by simp))

mutual

/-- The numbers in a value, in the order in which they are written. -/
def numbers : Value → List Number
  | .number n => [n]
  | .array items => itemNumbers items
  | .object members => memberNumbers members
  | _ => []

/-- The numbers in a row of values. -/
def itemNumbers : List Value → List Number
  | [] => []
  | item :: items => numbers item ++ itemNumbers items

/-- The numbers in a row of members. -/
def memberNumbers : List (Key × Value) → List Number
  | [] => []
  | (_, value) :: members => numbers value ++ memberNumbers members

end

theorem IsJson.member? {v w : Value} {name : Text} (h : v.IsJson) (hmember : v.member? name = some w) :
    w.IsJson := by
  cases h with
  | object named nodup all => exact all _ (Entries.mem_of_get? hmember)
  | _ => cases hmember

end Value

/-! ### Outcomes -/

/-- A text has this many digits in a row. -/
def Text.HasDigits (count : Nat) (t : Text) : Prop :=
  ∃ digits : Text, digits <:+: t ∧ digits.all CodePoint.isDigit = true ∧ digits.length = count

theorem Text.HasDigits.mono {count : Nat} {s t : Text} (h : s.HasDigits count) (hst : s <:+: t) :
    t.HasDigits count := by
  obtain ⟨digits, hinfix, hdigits⟩ := h
  exact ⟨digits, hinfix.trans hst, hdigits⟩

namespace Json

/-- What may come of reading something from the head of a text: what is read, with an end of the
text behind it, a problem, or an integer that is too long. -/
def Sound {α : Type} (P : α → Prop) (t : Text) : Except Fault (α × Place) → Prop
  | .ok (a, p) => P a ∧ p.rest <:+ t
  | .error (.at _ _) => True
  | .error (.number e) =>
    ∃ count, e = .tooManyDigits count ∧ Number.maxDigits < count ∧ t.HasDigits count

theorem Place.skip_suffix (p : Place) (n : Nat) : (p.skip n).rest <:+ p.rest :=
  List.drop_suffix n p.rest

theorem Place.blank_suffix (p : Place) : p.blank.rest <:+ p.rest := p.skip_suffix _

namespace Sound

variable {α β : Type} {P : α → Prop} {Q : β → Prop} {s t : Text} {x : Except Fault (α × Place)}

theorem mono (h : Sound P s x) (hst : s <:+ t) : Sound P t x := by
  rcases x with (⟨problem, position⟩ | e) | ⟨a, p⟩
  · trivial
  · obtain ⟨count, he, hcount, hdigits⟩ := h
    exact ⟨count, he, hcount, hdigits.mono hst.isInfix⟩
  · exact ⟨h.1, h.2.trans hst⟩

theorem map {f : α → β} (h : Sound P t x) (hf : ∀ a, P a → Q (f a)) :
    Sound Q t (x.map fun read => (f read.1, read.2)) := by
  rcases x with (⟨problem, position⟩ | e) | ⟨a, p⟩
  · trivial
  · exact h
  · exact ⟨hf a h.1, h.2⟩

theorem error {fault : Fault} (h : Sound P t (.error fault)) :
    Sound Q t (.error fault : Except Fault (β × Place)) := by
  rcases fault with ⟨problem, position⟩ | e
  · trivial
  · exact h

end Sound

/-! ### Strings and numbers -/

theorem lowHalf?_error {t : Text} {position : Nat} {fault : Fault}
    (h : lowHalf? t position = .error fault) : fault = .at .unicodeEscape (position + 1) := by
  unfold lowHalf? at h
  split at h
  · split at h
    · split at h
      · cases h
      · cases h
        rfl
    · cases h
  · cases h

theorem sound_readStringRest (start n : Nat) :
    ∀ (p : Place) (reversed : Text),
      Sound (fun _ => True) p.rest (readStringRest start n p reversed) := by
  induction n with
  | zero => exact fun _ _ => trivial
  | succ n ih =>
    intro p reversed
    have hskip : ∀ k reversed,
        Sound (fun _ => True) p.rest (readStringRest start n (p.skip k) reversed) :=
      fun k reversed => (ih (p.skip k) reversed).mono (p.skip_suffix k)
    unfold readStringRest
    split
    · trivial
    split
    · exact ⟨trivial, p.skip_suffix 1⟩
    split
    · split
      · trivial
      split
      · split
        · split
          · trivial
          split
          · split
            · rename_i hlow
              rw [lowHalf?_error hlow]
              trivial
            · exact hskip _ _
            · exact hskip _ _
          · exact hskip _ _
        · trivial
      · split
        · exact hskip _ _
        · trivial
    split
    · trivial
    · exact hskip _ _

theorem sound_readString (p : Place) : Sound (fun _ => True) p.rest (readString p) :=
  (sound_readStringRest _ _ _ _).mono (p.skip_suffix 1)

/-- The integer part of a number is made of digits. -/
theorem integerPart_spec (t : Text) :
    (integerPart t).all CodePoint.isDigit = true ∧ integerPart t <+: t := by
  unfold integerPart
  split
  · rename_i c rest
    split
    · rename_i hc
      rw [hc]
      exact ⟨by decide, rest, rfl⟩
    split
    · rename_i hc
      exact ⟨by rw [List.all_cons, hc, List.all_takeWhile]; rfl,
        List.cons_prefix_cons.mpr ⟨rfl, List.takeWhile_prefix _⟩⟩
    · exact ⟨rfl, List.nil_prefix⟩
  · exact ⟨rfl, List.nil_prefix⟩

theorem fraction_cases (t : Text) :
    fraction t = [] ∨ ∃ digits : Text, digits.all CodePoint.isDigit = true ∧
      fraction t = CodePoint.ofChar '.' :: digits := by
  unfold fraction
  split
  · rename_i c rest
    dsimp only
    split
    · rename_i hc
      rw [Bool.and_eq_true, decide_eq_true_eq] at hc
      exact .inr ⟨_, List.all_takeWhile, by rw [hc.1]⟩
    · exact .inl rfl
  · exact .inl rfl

theorem sign_cases (t : Text) :
    ∃ sign, (t.take 1).filter (fun c => c = CodePoint.ofChar '-' || c = CodePoint.ofChar '+') =
      Decimal.signText sign := by
  cases t with
  | nil => exact ⟨none, rfl⟩
  | cons c t =>
    rw [List.take_succ_cons, List.take_zero, List.filter_singleton]
    by_cases hminus : c = CodePoint.ofChar '-'
    · exact ⟨some true, by rw [hminus]; rfl⟩
    by_cases hplus : c = CodePoint.ofChar '+'
    · exact ⟨some false, by rw [hplus]; rfl⟩
    · exact ⟨none, by simp [hminus, hplus, Decimal.signText]⟩

theorem exists_scale_exponent (t : Text) : ∃ power, Decimal.Scale (exponent t) power := by
  unfold exponent
  split
  · rename_i mark rest
    obtain ⟨sign, hsign⟩ := sign_cases rest
    simp only [hsign]
    split
    · rename_i h
      simp only [Bool.and_eq_true, Bool.or_eq_true, decide_eq_true_eq, Bool.not_eq_true',
        List.isEmpty_eq_false_iff] at h
      exact ⟨_, .exponent h.1 sign h.2 List.all_takeWhile⟩
    · exact ⟨0, .none⟩
  · exact ⟨0, .none⟩

/-- A number with a fraction or an exponent is a decimal. -/
theorem exists_spelled {whole : Text} (nonempty : whole ≠ [])
    (isDigits : whole.all CodePoint.isDigit = true) (s t : Text) :
    ∃ d, Decimal.Spelled (whole ++ (fraction s ++ exponent t)) d := by
  obtain ⟨power, isScale⟩ := exists_scale_exponent t
  rcases fraction_cases s with h | ⟨digits, isFraction, h⟩
  · rw [h]
    exact ⟨_, .whole nonempty isDigits isScale⟩
  · rw [h]
    exact ⟨_, .pointed nonempty isDigits isFraction isScale⟩

theorem exists_withSign (t : Text) :
    ∃ negative, ∀ s, (t.take 1).filter (· = CodePoint.ofChar '-') ++ s =
      Binary64.withSign negative s := by
  cases t with
  | nil => exact ⟨false, fun _ => rfl⟩
  | cons c t =>
    rw [List.take_succ_cons, List.take_zero, List.filter_singleton]
    by_cases hminus : c = CodePoint.ofChar '-'
    · exact ⟨true, fun s => by rw [hminus]; rfl⟩
    · exact ⟨false, fun s => by simp [hminus, Binary64.withSign]⟩

theorem sound_readNumber (p : Place) : Sound Value.IsJson p.rest (readNumber p) := by
  unfold readNumber
  dsimp only
  obtain ⟨negative, hsign⟩ := exists_withSign p.rest
  generalize hunsigned : p.rest.drop _ = unsigned
  have hsuffix : unsigned <:+ p.rest := by
    rw [← hunsigned]
    exact List.drop_suffix _ _
  obtain ⟨isDigits, hpre⟩ := integerPart_spec unsigned
  generalize integerPart unsigned = whole at isDigits hpre ⊢
  split
  · trivial
  rename_i hempty
  have nonempty : whole ≠ [] := by simpa using hempty
  generalize unsigned.drop whole.length = behind
  obtain ⟨d, hd⟩ := exists_spelled nonempty isDigits behind (behind.drop (fraction behind).length)
  generalize fraction behind ++ exponent (behind.drop (fraction behind).length) = tail at hd ⊢
  generalize hplace : p.skip _ = place
  have hrest : place.rest <:+ p.rest := by
    rw [← hplace]
    exact p.skip_suffix _
  rw [List.append_assoc, hsign]
  cases tail with
  | nil =>
    have isDigits' : whole.all (CodePoint.isDigitOf 10) = true := by
      rw [Text.all_isDigitOf_ten, isDigits]
    rw [List.append_nil, List.isEmpty_nil, if_pos rfl, Number.readInt_eq negative nonempty isDigits']
    by_cases hlong : Number.maxDigits < whole.length
    · rw [if_pos (by simpa using hlong)]
      exact ⟨whole.length, rfl, hlong, whole, hpre.isInfix.trans hsuffix.isInfix, isDigits, rfl⟩
    · rw [if_neg (by simpa using hlong)]
      exact ⟨.int _, hrest⟩
  | cons c tail =>
    rw [List.isEmpty_cons, if_neg Bool.false_ne_true, Number.readFloat_spelled negative hd]
    exact ⟨.float (Binary64.isCanonical_ofDecimal _ _ _), hrest⟩

/-! ### Values -/

theorem isJson_of_mem_words {word : Text × Value} (h : word ∈ words) : word.2.IsJson := by
  simp only [words, List.mem_cons, List.not_mem_nil, or_false] at h
  rcases h with rfl | rfl | rfl | rfl | rfl | rfl
  · exact .null
  · exact .bool true
  · exact .bool false
  all_goals exact .float trivial

theorem sound_readScalar (p : Place) : Sound Value.IsJson p.rest (readScalar p) := by
  unfold readScalar
  split
  · rename_i word value hfind
    exact ⟨isJson_of_mem_words (List.mem_of_find?_eq_some hfind), p.skip_suffix _⟩
  · exact sound_readNumber p

/-- The members of an object as they are read: with texts as keys, and some keys perhaps again. -/
def AreMembers (members : List (Key × Value)) : Prop :=
  ∀ m ∈ members, (∃ t, m.1 = .text t) ∧ m.2.IsJson

theorem AreMembers.isJson {members : List (Key × Value)} (h : AreMembers members) :
    (Value.ofPairs members).IsJson :=
  Value.isJson_ofPairs (fun m hm => (h m hm).1) fun m hm => (h m hm).2

/-- All outcomes of reading within a bound on the nesting. -/
structure SoundWithin (n : Nat) : Prop where
  value : ∀ p, Sound Value.IsJson p.rest (readValue n p)
  items : ∀ p, Sound (fun items => ∀ v ∈ items, v.IsJson) p.rest (readItems n p)
  members : ∀ p, Sound AreMembers p.rest (readMembers n p)

section

variable {n : Nat} (ih : SoundWithin n) (p : Place)

include ih

theorem sound_readValue_succ : Sound Value.IsJson p.rest (readValue (n + 1) p) := by
  have hinside : (p.skip 1).blank.rest <:+ p.rest :=
    (p.skip 1).blank_suffix.trans (p.skip_suffix 1)
  unfold readValue
  dsimp only
  split
  · exact (sound_readString p).map fun t _ => .text t
  split
  · split
    · exact ⟨.array (by simp), ((p.skip 1).blank.skip_suffix 1).trans hinside⟩
    · exact ((ih.items _).mono hinside).map fun _ h => .array h
  split
  · split
    · exact ⟨.object (by simp) (by simp) (by simp), ((p.skip 1).blank.skip_suffix 1).trans hinside⟩
    · exact ((ih.members _).mono hinside).map fun _ h => h.isJson
  · exact sound_readScalar p

theorem sound_readItems_succ :
    Sound (fun items => ∀ v ∈ items, v.IsJson) p.rest (readItems (n + 1) p) := by
  unfold readItems
  have hvalue := ih.value p
  generalize readValue n p = outcome at hvalue ⊢
  rcases outcome with fault | ⟨item, q⟩
  · exact hvalue.error
  obtain ⟨hitem, hq⟩ := hvalue
  have hblank := q.blank_suffix.trans hq
  have hskip := (q.blank.skip_suffix 1).trans hblank
  dsimp only
  split
  · exact ⟨by simpa using hitem, hskip⟩
  split
  · refine ((ih.items _).mono ((q.blank.skip 1).blank_suffix.trans hskip)).map fun items h => ?_
    exact List.forall_mem_cons.mpr ⟨hitem, h⟩
  · trivial

theorem sound_readMembers_succ : Sound AreMembers p.rest (readMembers (n + 1) p) := by
  unfold readMembers
  split
  · trivial
  have hname := sound_readString p
  generalize readString p = outcome at hname ⊢
  rcases outcome with fault | ⟨name, q⟩
  · exact hname.error
  have hcolon := (q.blank.skip_suffix 1).trans (q.blank_suffix.trans hname.2)
  have hstart := (q.blank.skip 1).blank_suffix.trans hcolon
  dsimp only
  split
  · trivial
  have hvalue := (ih.value (q.blank.skip 1).blank).mono hstart
  generalize readValue n (q.blank.skip 1).blank = outcome at hvalue ⊢
  rcases outcome with fault | ⟨value, r⟩
  · exact hvalue.error
  obtain ⟨hvalue, hr⟩ := hvalue
  have hmember : (∃ t, Key.text name = .text t) ∧ value.IsJson := ⟨⟨name, rfl⟩, hvalue⟩
  have hskip := (r.blank.skip_suffix 1).trans (r.blank_suffix.trans hr)
  dsimp only
  split
  · exact ⟨by simpa [AreMembers] using hvalue, hskip⟩
  split
  · refine ((ih.members _).mono ((r.blank.skip 1).blank_suffix.trans hskip)).map fun members h => ?_
    exact List.forall_mem_cons.mpr ⟨hmember, h⟩
  · trivial

end

theorem soundWithin (n : Nat) : SoundWithin n := by
  induction n with
  | zero => exact ⟨fun _ => trivial, fun _ => trivial, fun _ => trivial⟩
  | succ n ih =>
    exact ⟨sound_readValue_succ ih, sound_readItems_succ ih, sound_readMembers_succ ih⟩

/-! ### Whole texts -/

theorem sound_readAll (t : Text) :
    Sound Value.IsJson t ((readAll t).map fun value => (value, ⟨[], t.length⟩)) := by
  unfold readAll
  split
  · trivial
  have hvalue := ((soundWithin (2 * t.length + 2)).value (Place.blank ⟨t, 0⟩)).mono
    (Place.blank_suffix ⟨t, 0⟩)
  generalize readValue (2 * t.length + 2) (Place.blank ⟨t, 0⟩) = outcome at hvalue ⊢
  rcases outcome with fault | ⟨value, p⟩
  · exact hvalue.error
  dsimp only
  split
  · exact ⟨hvalue.1, List.nil_suffix⟩
  · trivial

/-- What is read is made of the forms of JSON. -/
theorem isJson_of_read {t : Text} {v : Value} (h : read t = .ok v) : v.IsJson := by
  have hsound := sound_readAll t
  unfold read at h
  generalize readAll t = outcome at hsound h
  rcases outcome with (⟨problem, position⟩ | e) | value
  · cases h
  · cases h
  · cases h
    exact hsound.1

/-- Where a text does not fail to be JSON, reading fails at an integer that is too long. -/
theorem exists_hasDigits_of_read {t : Text} {e : Number.Error} (h : read t = .error (.number e)) :
    ∃ count, e = .tooManyDigits count ∧ Number.maxDigits < count ∧ t.HasDigits count := by
  have hsound := sound_readAll t
  unfold read at h
  generalize readAll t = outcome at hsound h
  rcases outcome with (⟨problem, position⟩ | e) | value
  · cases h
  · cases h
    exact hsound
  · cases h

end Json

end Unproxy
