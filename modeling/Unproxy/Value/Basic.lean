import Unproxy.Number.Basic

/-!
# Unproxy.Value.Basic

Values as decoded tables and settings hold them. Objects keep their members in
the order in which the keys were first set.

Main definitions:

* `Key`, `Value`;
* `Entries`: pairs in order, with `Entries.set`, which keeps the place of a key
  that is set again, `Entries.without` and `Entries.get?`;
* `Value.display`: a value as messages show it.
-/

namespace Unproxy

/-- The key of a member. What is read from JSON has text keys only. -/
inductive Key where
  | null
  | bool (b : Bool)
  | number (n : Number)
  | text (t : Text)
  deriving DecidableEq, Repr

/-- A value. -/
inductive Value where
  | null
  | bool (b : Bool)
  | number (n : Number)
  | text (t : Text)
  | array (items : List Value)
  | object (members : List (Key × Value))
  /-- A value of some other type, of which only the type's name is known. -/
  | other (typeName : Text)
  deriving Repr

namespace Key

/-- The number a key counts as when keys are compared. -/
def number? : Key → Option Number
  | .bool b => some (.int (if b then 1 else 0))
  | .number n => some n
  | _ => none

/-- Whether two keys name the same member. -/
def same (a b : Key) : Bool :=
  match a.number?, b.number? with
  | some m, some n => m.same n
  | none, none => a == b
  | _, _ => false

/-- A key as text. -/
def toText : Key → Text
  | .null => "None".toText
  | .bool b => if b then "True".toText else "False".toText
  | .number n => n.text
  | .text t => t

/-- A key as messages show it. -/
def display : Key → Text
  | .text t => t.quoted
  | key => key.toText

end Key

/-- Pairs of keys and entries in the order in which the keys were first set. -/
abbrev Entries (κ α : Type) := List (κ × α)

namespace Entries

/-- Sets the entry of a key. A key that is there keeps its place. -/
def setBy {κ α : Type} (same : κ → κ → Bool) (key : κ) (entry : α) : Entries κ α → Entries κ α
  | [] => [(key, entry)]
  | (k, e) :: rest => if same k key then (k, entry) :: rest else (k, e) :: setBy same key entry rest

/-- Sets the entry of a key, keys being compared by equality. -/
def set {κ α : Type} [BEq κ] (key : κ) (entry : α) (entries : Entries κ α) : Entries κ α :=
  setBy (· == ·) key entry entries

/-- The entry of a key. -/
def get? {κ α : Type} [BEq κ] (key : κ) : Entries κ α → Option α
  | [] => none
  | (k, e) :: rest => if k == key then some e else get? key rest

/-- The entries of all other keys. -/
def without {κ α : Type} [BEq κ] (key : κ) (entries : Entries κ α) : Entries κ α :=
  entries.filter fun (k, _) => !(k == key)

/-- The keys in order. -/
def keys {κ α : Type} (entries : Entries κ α) : List κ := entries.map Prod.fst

/-- Whether a key has an entry. -/
def has {κ α : Type} [BEq κ] (key : κ) (entries : Entries κ α) : Bool := (get? key entries).isSome

end Entries

namespace Value

/-- An object from pairs; a key that comes again takes the later value. -/
def ofPairs (pairs : List (Key × Value)) : Value :=
  .object (pairs.foldl (fun members (key, value) => Entries.setBy Key.same key value members) [])

/-- The member of an object under a text key. -/
def member? (name : Text) : Value → Option Value
  | .object members => Entries.get? (Key.text name) members
  | _ => none

/-- Whether a value counts as true: neither null, false, zero nor empty. -/
def isTruthy : Value → Bool
  | .null => false
  | .bool b => b
  | .number n => !n.same (.int 0)
  | .text t => !t.isEmpty
  | .array items => !items.isEmpty
  | .object members => !members.isEmpty
  | .other _ => true

/-- The name of a value's type as messages give it. -/
def typeName : Value → Text
  | .null => "NoneType".toText
  | .bool _ => "bool".toText
  | .number (.int _) => "int".toText
  | .number (.float _) => "float".toText
  | .text _ => "str".toText
  | .array _ => "list".toText
  | .object _ => "dict".toText
  | .other name => name

mutual

/-- A value as messages show it. -/
def display : Value → Text
  | .null => "None".toText
  | .bool b => if b then "True".toText else "False".toText
  | .number n => n.text
  | .text t => t.quoted
  | .array items => "[".toText ++ displayItems items ++ "]".toText
  | .object members => "\x7b".toText ++ displayMembers members ++ "\x7d".toText
  | .other name => "<".toText ++ name ++ " object>".toText

/-- Values with commas between them. -/
def displayItems : List Value → Text
  | [] => []
  | [item] => display item
  | item :: items => display item ++ ", ".toText ++ displayItems items

/-- Members with commas between them. -/
def displayMembers : List (Key × Value) → Text
  | [] => []
  | [(key, value)] => key.display ++ ": ".toText ++ display value
  | (key, value) :: members =>
    key.display ++ ": ".toText ++ display value ++ ", ".toText ++ displayMembers members

end

end Value

end Unproxy
