import Unproxy.Syntax.Tree

/-!
# Unproxy.Syntax.Cursor

A node together with the nodes around it, for questions about where it stands. Trees can be deep,
so the walks keep their own stack of the nodes that are still to come.

Main definitions:

* `Cursor`: a node and its ancestors, the nearest first;
* `Cursor.walk`: the named nodes below a cursor, a parent before its children;
* `Tree.preorder`: the same without the nodes around them;
* `Cursor.collect`: visits nodes in that order and gathers what the visits give;
  below a node whose visit gives something, nothing is visited.
-/

namespace Unproxy.Syntax

/-- A node and its ancestors, the nearest first. -/
structure Cursor where
  node : Tree
  ancestors : List Tree
  deriving Repr

namespace Cursor

/-- The root of a tree. -/
def ofRoot (root : Tree) : Cursor := ⟨root, []⟩

/-- The child in a role. -/
def child? (c : Cursor) (role : Role) : Option Cursor :=
  (c.node.child? role).map fun child => ⟨child, c.node :: c.ancestors⟩

/-- The named nodes right below a cursor. -/
def below (c : Cursor) : List Cursor :=
  c.node.namedChildren.map fun t => ⟨t, c.node :: c.ancestors⟩

theorem map_node_below (c : Cursor) : c.below.map node = c.node.namedChildren := by
  rw [below, List.map_map]
  exact List.map_id _

/-! ### Stacks -/

/-- The number of nodes in the subtrees on a stack. -/
def stackSize (stack : List Cursor) : Nat := Tree.sizeList (stack.map node)

theorem stackSize_lt_cons (c : Cursor) (stack : List Cursor) :
    stackSize stack < stackSize (c :: stack) := by
  have hsize : 0 < c.node.size := Tree.size_pos c.node
  show Tree.sizeList (stack.map node) < c.node.size + Tree.sizeList (stack.map node)
  omega

/-- A node on a stack gives way to fewer nodes. -/
theorem stackSize_below_lt (c : Cursor) (stack : List Cursor) :
    stackSize (c.below ++ stack) < stackSize (c :: stack) := by
  have hnamed := Tree.sizeList_namedChildren_lt c.node
  show Tree.sizeList ((c.below ++ stack).map node) <
    c.node.size + Tree.sizeList (stack.map node)
  rw [List.map_append, map_node_below, Tree.sizeList_append]
  omega

/-- Takes the nodes off a stack in turn, the first one first. In its place come the named nodes
right below it. -/
def walkStack : List Cursor → List Cursor
  | [] => []
  | c :: stack => c :: walkStack (c.below ++ stack)
termination_by stack => stackSize stack
decreasing_by exact stackSize_below_lt c stack

/-- The named nodes below a cursor, the node itself first. -/
def walk (c : Cursor) : List Cursor := walkStack [c]

section

variable {m : Type → Type} [Monad m] {α : Type}

/-- Visits the nodes on a stack in turn, the first one first, and adds what the visits give to what
was found before. The named nodes right below a node come in its place only if its visit gives
nothing. -/
def collectStack (visit : Cursor → m (Option (List α))) (found : List α) :
    List Cursor → m (List α)
  | [] => return found
  | c :: stack => do
    match ← visit c with
    | some more => collectStack visit (found ++ more) stack
    | none => collectStack visit found (c.below ++ stack)
termination_by stack => stackSize stack
decreasing_by
  · exact stackSize_lt_cons c stack
  · exact stackSize_below_lt c stack

/-- Visits the named nodes below a cursor, a parent before its children, and
gathers what the visits give. A node whose visit gives a list, be it empty, is
not gone into. -/
def collect (visit : Cursor → m (Option (List α))) (c : Cursor) : m (List α) :=
  collectStack visit [] [c]

end

end Cursor

/-- The named nodes of a subtree: the node itself, then those below it from left to right. -/
def Tree.preorder (t : Tree) : List Tree := (Cursor.ofRoot t).walk.map Cursor.node

end Unproxy.Syntax
