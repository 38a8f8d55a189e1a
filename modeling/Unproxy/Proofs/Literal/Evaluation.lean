import Mathlib
import Unproxy.Access.Name
import Unproxy.Syntax.Program
import Unproxy.Proofs.Json.Outcome
import Unproxy.Proofs.Number.Spelling
import Unproxy.Proofs.Text.Units
import Unproxy.Proofs.Value.Entries

/-!
# Unproxy.Proofs.Literal.Evaluation

What a literal stands for when the program runs, and what the text of a table stands for when it is
read as JSON.

The two differ in one name only. In JSON `__proto__` is a name like any other. In an object literal
it gives the object's prototype, unless it is computed, and makes no property.

Main definitions:

* `Datum`: values of a running program;
* `Datum.ofProperties`: the object that the properties of an object literal make;
* `Syntax.Tree.evaluate`, `Literal.evaluate`: the value of an expression of literals;
* `Value.datum`: the value that JSON text for a value stands for;
* `Datum.asLiteral`: what becomes of such a value in an object literal.

Main statements:

* `Value.ofProperties_datum`: the members of an object, as the properties of a literal;
* `Datum.asLiteral_eq_iff`: which values are the same as literals.
-/

namespace Unproxy

/-! ### Values of a running program -/

/-- A value of a running program. A string is its UTF-16 units. An object has its own properties in
the order in which they were made, and a prototype if it was given one. -/
inductive Datum where
  | null
  | bool (b : Bool)
  | number (f : Binary64)
  | string (units : List Nat)
  | array (items : List Datum)
  | object (prototype : Option Datum) (own : List (List Nat × Datum))
  deriving Repr

namespace Datum

/-- The name that stands for the prototype in an object literal. -/
def prototypeName : List Nat := Utf16.encode "__proto__".toText

/-- Null and objects can be prototypes, and arrays are objects. -/
def asPrototype? : Datum → Option Datum
  | .null => some .null
  | .array items => some (.array items)
  | .object prototype own => some (.object prototype own)
  | _ => none

/-- A name and a value in an object literal. -/
structure Property where
  name : List Nat
  computed : Bool
  value : Datum

/-- Whether a name stands for the prototype. A computed one does not. -/
def Property.isPrototype (p : Property) : Bool := !p.computed && p.name == prototypeName

/-- The properties an object literal makes. A name that comes again takes the later value. -/
def own (properties : List Property) : Entries (List Nat) Datum :=
  Entries.setAll ((properties.filter fun p => !p.isPrototype).map fun p => (p.name, p.value)) []

/-- The object an object literal makes. No literal may name the prototype twice. -/
def ofProperties (properties : List Property) : Option Datum :=
  match properties.filter Property.isPrototype with
  | [] => some (.object none (own properties))
  | [p] => some (.object p.value.asPrototype? (own properties))
  | _ => none

end Datum

namespace Syntax.Tree

/-- The units of a string literal. -/
def units? (t : Tree) : Option (List Nat) :=
  match t.stringValue with
  | .ok value => some (Utf16.encode value)
  | .error _ => none

/-- The double that a numeric literal stands for. -/
def double? (spelling : Text) : Option Binary64 :=
  match Number.ofSpelling spelling with
  | .ok (some n) => some n.double
  | _ => none

/-- Whether an item is missing in a row: a comma stands right behind a bracket or a comma. -/
def haveHole : List Tree → Bool
  | a :: b :: ts => (!a.isNamed && !b.isNamed && b.text == ",".toText) || haveHole (b :: ts)
  | _ => false

mutual

/-- The value of an expression that is made of literals; other expressions have none here. -/
def evaluate : Tree → Option Datum
  | ⟨kind, role, start, stop, text, children⟩ =>
    match kind with
    | .null => some .null
    | .true => some (.bool true)
    | .false => some (.bool false)
    | .number => (double? text).map .number
    | .string => (units? ⟨kind, role, start, stop, text, children⟩).map .string
    | .unary => evaluateNegation children
    | .parenthesized => evaluateInner children
    | .array => if haveHole children then none else (evaluateItems children).map .array
    | .object =>
      if haveHole children then none else (evaluateProperties children).bind Datum.ofProperties
    | _ => none

/-- The value of a number behind a minus sign. -/
def evaluateNegation : List Tree → Option Datum
  | [operator, operand] =>
    match evaluate operand with
    | some (.number f) => if operator.text = "-".toText then some (.number f.negate) else none
    | _ => none
  | _ => none

/-- The value of what stands between two brackets. -/
def evaluateInner : List Tree → Option Datum
  | [_, inner, _] => evaluate inner
  | _ => none

/-- The values of the items in a row, without the punctuation between them. -/
def evaluateItems : List Tree → Option (List Datum)
  | [] => some []
  | t :: ts =>
    if t.isNamed then
      match evaluate t, evaluateItems ts with
      | some item, some items => some (item :: items)
      | _, _ => none
    else evaluateItems ts

/-- The properties in a row, without the punctuation between them. -/
def evaluateProperties : List Tree → Option (List Datum.Property)
  | [] => some []
  | ⟨kind, _, _, _, _, children⟩ :: ts =>
    if kind = .token then evaluateProperties ts
    else if kind = .pair then
      match evaluatePair children, evaluateProperties ts with
      | some property, some properties => some (property :: properties)
      | _, _ => none
    else none

/-- A name, a colon and a value. -/
def evaluatePair : List Tree → Option Datum.Property
  | [key, _, value] =>
    match evaluateName key, evaluate value with
    | some (name, computed), some value => some ⟨name, computed, value⟩
    | _, _ => none
  | _ => none

/-- The name of a property, and whether it is computed: a word, a string, or brackets around an
expression for a string. -/
def evaluateName : Tree → Option (List Nat × Bool)
  | ⟨kind, role, start, stop, text, children⟩ =>
    match kind with
    | .propertyIdentifier =>
      if text.contains '\\' then none else some (Utf16.encode text, false)
    | .string => (units? ⟨kind, role, start, stop, text, children⟩).map (·, false)
    | .computedName =>
      match evaluateInner children with
      | some (.string units) => some (units, true)
      | _ => none
    | _ => none

end

end Syntax.Tree

/-- The value of the expression that a text is, in parentheses. -/
def Literal.evaluate (t : Text) : Option Datum :=
  match Syntax.Program.parse ("(".toText ++ t ++ ")".toText) with
  | .ok program =>
    match program.root.children with
    | [statement] => (statement.children.head?).bind Syntax.Tree.evaluate
    | _ => none
  | .error _ => none

/-! ### Values of JSON texts -/

namespace Value

mutual

/-- The value that JSON text for a value stands for in a running program. A name that has the same
units as one before it takes its place. -/
def datum : Value → Datum
  | .bool b => .bool b
  | .number n => .number n.double
  | .text t => .string (Utf16.encode t)
  | .array items => .array (itemData items)
  | .object members => .object none (Entries.setAll (memberData members) [])
  | .null | .other _ => .null

/-- The values of items. -/
def itemData : List Value → List Datum
  | [] => []
  | item :: items => datum item :: itemData items

/-- The names and values of members. -/
def memberData : List (Key × Value) → List (List Nat × Datum)
  | [] => []
  | (key, value) :: members => (Utf16.encode key.toText, datum value) :: memberData members

end

end Value

namespace Datum

mutual

/-- What becomes of a value in an object literal: of a property with the prototype's name only the
value stays, as the prototype, if it can be one. -/
def asLiteral : Datum → Datum
  | .array items => .array (itemsAsLiteral items)
  | .object prototype own =>
    .object
      (match Entries.get? prototypeName (entriesAsLiteral own) with
      | some value => value.asPrototype?
      | none => prototype)
      (Entries.without prototypeName (entriesAsLiteral own))
  | d => d

/-- The same for a row of values. -/
def itemsAsLiteral : List Datum → List Datum
  | [] => []
  | item :: items => asLiteral item :: itemsAsLiteral items

/-- The same for the values of properties. -/
def entriesAsLiteral : List (List Nat × Datum) → List (List Nat × Datum)
  | [] => []
  | (name, value) :: entries => (name, asLiteral value) :: entriesAsLiteral entries

end

mutual

/-- Whether an object in a value has a property with the prototype's name. -/
def ownsPrototype : Datum → Bool
  | .array items => itemsOwnPrototype items
  | .object _ own => Entries.has prototypeName own || entriesOwnPrototype own
  | _ => false

/-- The same for a row of values. -/
def itemsOwnPrototype : List Datum → Bool
  | [] => false
  | item :: items => ownsPrototype item || itemsOwnPrototype items

/-- The same for the values of properties. -/
def entriesOwnPrototype : List (List Nat × Datum) → Bool
  | [] => false
  | (_, value) :: entries => ownsPrototype value || entriesOwnPrototype entries

end

/-! ### Values that are the same as literals -/

theorem entriesAsLiteral_eq_map (entries : List (List Nat × Datum)) :
    entriesAsLiteral entries = entries.map (Prod.map id asLiteral) := by
  induction entries with
  | nil => rfl
  | cons entry entries ih =>
    obtain ⟨name, value⟩ := entry
    rw [entriesAsLiteral, ih]
    rfl

theorem keys_entriesAsLiteral (entries : List (List Nat × Datum)) :
    Entries.keys (entriesAsLiteral entries) = Entries.keys entries := by
  rw [entriesAsLiteral_eq_map, Entries.keys, List.map_map]
  rfl

mutual

/-- A value is the same as a literal exactly if no object in it has a property with the prototype's
name. -/
theorem asLiteral_eq_iff : ∀ d : Datum, d.asLiteral = d ↔ d.ownsPrototype = false
  | .null | .bool _ | .number _ | .string _ => ⟨fun _ => rfl, fun _ => rfl⟩
  | .array items => by
    rw [asLiteral, array.injEq, ownsPrototype]
    exact itemsAsLiteral_eq_iff items
  | .object prototype own => by
    rw [ownsPrototype, Bool.or_eq_false_iff, ← entriesAsLiteral_eq_iff own]
    by_cases hname : prototypeName ∈ Entries.keys own
    · -- The name is gone from the literal.
      refine iff_of_false (fun heq => ?_) fun h => ?_
      · rw [asLiteral, object.injEq] at heq
        rw [← heq.2] at hname
        exact Entries.not_mem_keys_without _ _ hname
      · rw [Entries.has_iff.mpr hname] at h
        cases h.1
    · have hnone : Entries.get? prototypeName (entriesAsLiteral own) = none := by
        rw [← keys_entriesAsLiteral, ← Entries.get?_isSome_iff] at hname
        simpa using hname
      have hwithout : Entries.without prototypeName (entriesAsLiteral own) =
          entriesAsLiteral own := by
        rw [← keys_entriesAsLiteral] at hname
        exact Entries.without_of_not_mem hname
      have hhas : Entries.has prototypeName own = false := by
        rw [Bool.eq_false_iff, Ne, Entries.has_iff]
        exact hname
      rw [asLiteral, hnone, hwithout, object.injEq]
      exact ⟨fun h => ⟨hhas, h.2⟩, fun h => ⟨rfl, h.2⟩⟩

theorem itemsAsLiteral_eq_iff : ∀ items : List Datum,
    itemsAsLiteral items = items ↔ itemsOwnPrototype items = false
  | [] => ⟨fun _ => rfl, fun _ => rfl⟩
  | item :: items => by
    rw [itemsAsLiteral, itemsOwnPrototype, List.cons.injEq, Bool.or_eq_false_iff,
      asLiteral_eq_iff item, itemsAsLiteral_eq_iff items]

theorem entriesAsLiteral_eq_iff : ∀ entries : List (List Nat × Datum),
    entriesAsLiteral entries = entries ↔ entriesOwnPrototype entries = false
  | [] => ⟨fun _ => rfl, fun _ => rfl⟩
  | (name, value) :: entries => by
    rw [entriesAsLiteral, entriesOwnPrototype, List.cons.injEq, Bool.or_eq_false_iff,
      entriesAsLiteral_eq_iff entries, Prod.mk.injEq, asLiteral_eq_iff value]
    simp

end

/-! ### Members as properties -/

/-- The properties of an object literal are those that are set one after the other, but for the one
with the prototype's name. -/
theorem ofProperties_pairs {pairs : List (List Nat × Datum)}
    (h : (pairs.filter fun pair => pair.1 == prototypeName).length ≤ 1) :
    ofProperties (pairs.map fun pair => ⟨pair.1, false, pair.2⟩) =
      some (.object
        (match Entries.get? prototypeName (Entries.setAll pairs []) with
        | some value => value.asPrototype?
        | none => none)
        (Entries.without prototypeName (Entries.setAll pairs []))) := by
  have hfilter : (pairs.map fun pair => (⟨pair.1, false, pair.2⟩ : Property)).filter
      Property.isPrototype = (pairs.filter fun pair => pair.1 == prototypeName).map
        fun pair => ⟨pair.1, false, pair.2⟩ := List.filter_map
  have hown : own (pairs.map fun pair => ⟨pair.1, false, pair.2⟩) =
      Entries.without prototypeName (Entries.setAll pairs []) := by
    rw [Entries.without_setAll, own, List.filter_map, List.map_map]
    exact congrArg (Entries.setAll · []) (List.map_id _)
  rw [ofProperties, hfilter, hown, Entries.get?_setAll]
  generalize (pairs.filter fun pair => pair.1 == prototypeName) = named at h
  -- None or one: the last pair with the name, if there is one, is then the only one.
  match named, h with
  | [], _ => rfl
  | [pair], _ => rfl
  | first :: second :: rest, h =>
    simp only [List.length_cons] at h
    omega

end Datum

namespace Value

theorem map_asLiteral_memberData (members : List (Key × Value)) :
    (memberData members).map (Prod.map id Datum.asLiteral) =
      members.map fun m => (Utf16.encode m.1.toText, m.2.datum.asLiteral) := by
  induction members with
  | nil => rfl
  | cons m members ih =>
    obtain ⟨key, value⟩ := m
    rw [memberData, List.map_cons, ih]
    rfl

/-- The members of an object, as the properties of an object literal, make what becomes of the
object there. -/
theorem ofProperties_datum {members : List (Key × Value)}
    (named : ∀ m ∈ members, ∃ t, m.1 = .text t) (nodup : (members.map Prod.fst).Nodup) :
    Datum.ofProperties (members.map fun m =>
        ⟨Utf16.encode m.1.toText, false, m.2.datum.asLiteral⟩) =
      some (Value.object members).datum.asLiteral := by
  have hone : ((members.map fun m => (Utf16.encode m.1.toText, m.2.datum.asLiteral)).filter
      fun pair => pair.1 == Datum.prototypeName).length ≤ 1 := by
    rw [← List.countP_eq_length_filter, List.countP_map]
    have hname : ∀ m ∈ members, Utf16.encode m.1.toText = Datum.prototypeName →
        m.1 = .text "__proto__".toText := by
      intro m hm heq
      obtain ⟨t, ht⟩ := named m hm
      rw [ht] at heq
      have hunits : Utf16.encode t = Utf16.encode "__proto__".toText := heq
      rw [ht, Utf16.eq_of_encode_isAscii (by decide) hunits]
    calc _ ≤ members.countP ((· == Key.text "__proto__".toText) ∘ Prod.fst) :=
          List.countP_mono_left fun m hm h => beq_iff_eq.mpr (hname m hm (beq_iff_eq.mp h))
      _ = (members.map Prod.fst).count (.text "__proto__".toText) := List.countP_map.symm
      _ ≤ 1 := List.nodup_iff_count_le_one.mp nodup _
  have hall := Datum.ofProperties_pairs hone
  rw [List.map_map] at hall
  rw [datum, Datum.asLiteral, Datum.entriesAsLiteral_eq_map, Entries.map_setAll,
    map_asLiteral_memberData]
  exact hall

end Value

end Unproxy
