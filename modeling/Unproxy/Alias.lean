import Unproxy.Access.Position
import Unproxy.Access.Reference
import Unproxy.Counting
import Unproxy.Syntax.Revision

/-!
# Unproxy.Alias

Puts the expressions of aliases in place of their reads. An alias is a member of
the alias namespace with the expression last assigned to it; the assignments
themselves stay. Aliases inside an expression are replaced too, except those whose
replacement or assignment is under way.

Main definitions:

* `Alias.collect`: the aliases of a program;
* `Alias.visit`: what happens at one node;
* `Alias.inline`: the whole program.
-/

namespace Unproxy.Alias

open Log Syntax

/-- The expression of every alias, in the order of the first assignments. -/
abbrev Table := Entries Text Cursor

/-- The name under which aliases are reported. -/
def source : Text := "proxydeob.passes.inline_aliases".toText

/-- The record of an alias assigned again. -/
def reassigned (key : Text) : Record :=
  ⟨.debug, source, "alias ".toText ++ key ++ " reassigned; keeping the later expression".toText⟩

/-- Takes the alias that a node assigns, if it does. -/
def collectOne (scheme : Scheme) (found : Table) (c : Cursor) : Logged Access.Error Table :=
  if c.node.kind = .assignment then
    match c.child? .left, c.child? .right with
    | some left, some right => do
      match ← Logged.ofExcept (left.node.aliasKey scheme) with
      | none => return found
      | some key => do
        if found.has key then (⟨.ok (), [reassigned key]⟩ : Logged Access.Error Unit)
        return Entries.set key right found
    | _, _ => pure found
  else pure found

/-- Takes the aliases that a row of nodes assigns. -/
def collectFrom (scheme : Scheme) : List Cursor → Table → Logged Access.Error Table
  | [], found => pure found
  | c :: cs, found => do
    let found ← collectOne scheme found c
    collectFrom scheme cs found

/-- The aliases of a program. -/
def collect (root : Tree) (scheme : Scheme) : Logged Access.Error Table :=
  collectFrom scheme (Cursor.ofRoot root).walk []

/-- Why a read cannot be replaced. -/
inductive Error where
  | access (error : Access.Error)
  | edit (error : Edit.Error)
  deriving DecidableEq, Repr

/-- The wording of a failed replacement. -/
def Error.message : Error → Text
  | .access error => error.message
  | .edit error => error.message

/-- What was found so far. -/
structure Tally where
  inlined : Nat := 0
  skippedWrites : Nat := 0
  cycles : Nat := 0
  deriving DecidableEq, Repr

/-- A program with its aliases. `bytes` is its UTF-8 form. -/
structure Setting where
  scheme : Scheme
  aliases : Table
  bytes : Bytes

namespace Setting

/-- The bytes of a node. -/
def slice (s : Setting) (t : Tree) : Bytes := (s.bytes.drop t.start).take (t.stop - t.start)

/-- The alias that an assignment sets, if the node is one and the alias is not
under way. -/
def assigned (s : Setting) (active : List Text) (c : Cursor) :
    Except Access.Error (Option (Text × Cursor)) :=
  if c.node.kind = .assignment then
    match c.child? .left, c.child? .right with
    | some left, some right => do
      match ← left.node.aliasKey s.scheme with
      | some key => return if active.contains key then none else some (key, right)
      | none => return none
    | _, _ => .ok none
  else .ok none

/-- What a node is replaced by. `active` holds the aliases whose replacement or
assignment is under way; a read of one of them is a cycle and stays. The number
bounds how many are under way at once. -/
def visit (s : Setting) : Nat → List Text → Cursor → Counting Error Tally (Option (List Edit))
  | 0, _, _ => return none
  | depth + 1, active, c => do
    match ← Counting.ofExcept Error.access (s.assigned active c) with
    | some (key, right) =>
      Counting.count fun tally => { tally with skippedWrites := tally.skippedWrites + 1 }
      return some (← right.collect (visit s depth (key :: active)))
    | none =>
      match ← Counting.ofExcept Error.access (c.node.aliasKey s.scheme) with
      | none => return none
      | some key =>
        match s.aliases.get? key with
        | none => return none
        | some right =>
          if c.isWritten then
            Counting.count fun tally => { tally with skippedWrites := tally.skippedWrites + 1 }
            return none
          else if active.contains key then
            Counting.count fun tally => { tally with cycles := tally.cycles + 1 }
            return none
          else
            Counting.count fun tally => { tally with inlined := tally.inlined + 1 }
            let inner ← right.collect (visit s depth (key :: active))
            let text ← Counting.ofExcept Error.edit
              (Edit.applyAll (s.slice right.node) inner right.node.start)
            return some [c.replaceBy text right.node.strength]

/-- A depth that is never reached below a root. Every step down makes active one
more alias, which the table names or which is assigned below the root or in an
expression of the table. -/
def depthBound (s : Setting) (root : Tree) : Nat :=
  s.aliases.length + root.size + Tree.sizeList (s.aliases.map fun (_, right) => right.node) + 1

/-- The edits for a subtree, and what was found. -/
def edits (s : Setting) (root : Tree) : Except Error (List Edit) × Tally :=
  Counting.tallied ((Cursor.ofRoot root).collect (s.visit (s.depthBound root) [])) {}

end Setting

/-- Why aliases cannot be put in place. -/
inductive Failure where
  | scan (error : Error)
  | revision (error : RevisionError)
  deriving DecidableEq, Repr

/-- The wording of a failure. -/
def Failure.message : Failure → Text
  | .scan error => error.message
  | .revision error => error.message

/-- The program with the reads of aliases replaced, and what was found. -/
def inline (scheme : Scheme) (aliases : Table) (p : Program) : Logged Failure (Program × Tally) :=
  match (Setting.mk scheme aliases p.bytes).edits p.root with
  | (.error error, _) => Logged.fail (.scan error)
  | (.ok found, tally) => do
    let p ← (p.revise found).mapError Failure.revision
    return (p, tally)

end Unproxy.Alias
