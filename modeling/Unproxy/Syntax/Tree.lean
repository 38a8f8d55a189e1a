import Unproxy.Text.Utf8
import Unproxy.Syntax.Kind

/-!
# Unproxy.Syntax.Tree

Concrete syntax trees. Every node knows its kind, its role in its parent and the
range of source bytes it covers; a node without children also carries its text.

Main definitions:

* `Tree`: a node with its subtree, and views of its children.
-/

namespace Unproxy.Syntax

/-- A node of a syntax tree. `text` is the spelling of a node without children
and empty for the others. -/
structure Tree where
  kind : Kind
  role : Option Role
  start : Nat
  stop : Nat
  text : Text
  children : List Tree
  deriving Repr

namespace Tree

/-- A node without children. -/
def leaf (kind : Kind) (start stop : Nat) (text : Text) : Tree := ⟨kind, none, start, stop, text, []⟩

/-- A node that spans its children. -/
def node (kind : Kind) (children : List Tree) : Tree :=
  ⟨kind, none, (children.head?.map Tree.start).getD 0, (children.getLast?.map Tree.stop).getD 0, [],
    children⟩

/-- The node in a role. -/
def as (t : Tree) (role : Role) : Tree := { t with role := some role }

/-- The node with another kind. -/
def ofKind (t : Tree) (kind : Kind) : Tree := { t with kind := kind }

/-- Punctuation and keywords are not named; all other nodes are. -/
def isNamed (t : Tree) : Bool := t.kind != .token

/-- The children that are named. -/
def namedChildren (t : Tree) : List Tree := t.children.filter isNamed

/-- The child in a role. -/
def child? (t : Tree) (role : Role) : Option Tree := t.children.find? (·.role == some role)

mutual

/-- The number of nodes of a subtree. -/
def size : Tree → Nat
  | ⟨_, _, _, _, _, children⟩ => 1 + sizeList children

/-- The number of nodes of a row of subtrees. -/
def sizeList : List Tree → Nat
  | [] => 0
  | t :: ts => t.size + sizeList ts

end

theorem size_pos (t : Tree) : 0 < t.size := by
  obtain ⟨kind, role, start, stop, text, children⟩ := t
  show 0 < 1 + sizeList children
  omega

theorem sizeList_append (ts us : List Tree) : sizeList (ts ++ us) = sizeList ts + sizeList us := by
  induction ts with
  | nil => exact (Nat.zero_add _).symm
  | cons t ts ih =>
    show t.size + sizeList (ts ++ us) = t.size + sizeList ts + sizeList us
    omega

theorem sizeList_filter_le (p : Tree → Bool) (ts : List Tree) :
    sizeList (ts.filter p) ≤ sizeList ts := by
  induction ts with
  | nil => exact Nat.le_refl 0
  | cons t ts ih =>
    have hcons : sizeList (t :: ts) = t.size + sizeList ts := rfl
    cases hp : p t with
    | true =>
      rw [List.filter_cons_of_pos hp]
      show t.size + sizeList (ts.filter p) ≤ sizeList (t :: ts)
      omega
    | false =>
      rw [List.filter_cons_of_neg (by simp [hp])]
      omega

/-- What is right below a node has fewer nodes in it. -/
theorem sizeList_namedChildren_lt (t : Tree) : sizeList t.namedChildren < t.size := by
  obtain ⟨kind, role, start, stop, text, children⟩ := t
  have hle := sizeList_filter_le isNamed children
  show sizeList (children.filter isNamed) < 1 + sizeList children
  omega

mutual

/-- What stands inside any number of parentheses, if anything does; comments do
not count. -/
def unwrapped : Tree → Option Tree
  | ⟨kind, role, start, stop, text, children⟩ =>
    if kind = .parenthesized then unwrappedFirst children
    else some ⟨kind, role, start, stop, text, children⟩

/-- The first named node of a row that is not a comment, without parentheses. -/
def unwrappedFirst : List Tree → Option Tree
  | [] => none
  | t :: ts => if t.isNamed && t.kind != .comment then unwrapped t else unwrappedFirst ts

end

end Tree

end Unproxy.Syntax
