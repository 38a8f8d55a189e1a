import Unproxy.Access.Position
import Unproxy.Access.Reference
import Unproxy.Counting
import Unproxy.Literal
import Unproxy.Syntax.Revision
import Unproxy.Table.Decoding

/-!
# Unproxy.Resolution

Replaces reads of table entries by the literals found in the decoded tables.

Main definitions:

* `Resolution.Tally`: what was found, and the records sent;
* `Resolution.visit`: what happens at one node;
* `Resolution.resolve`: the whole program.
-/

namespace Unproxy.Resolution

open Log Syntax

/-- Why a read cannot be looked at. -/
inductive Error where
  | access (error : Access.Error)
  | number (error : Number.Error)
  deriving DecidableEq, Repr

/-- The wording of a failed look. -/
def Error.message : Error → Text
  | .access error => error.message
  | .number error => error.message

/-- What was found so far. Records stand in the order in which they were sent. -/
structure Tally where
  resolved : Nat := 0
  misses : Nat := 0
  skippedWrites : Nat := 0
  unrepresentable : Nat := 0
  records : List Record := []
  deriving DecidableEq, Repr

/-- The name under which resolution reports. -/
def source : Text := "proxydeob.passes.resolve_properties".toText

/-- The entry that a field of a table selects, if the table is there and not
null. -/
def selected (tables : Table.Decoded) (table field : Text) : Except Number.Error (Option Value) :=
  match tables.get? table with
  | none | some .null => .ok none
  | some value => value.field field

/-- The record of a read without an entry. -/
def missRecord (table field : Text) : Record :=
  ⟨.debug, source, "no decoded entry for ".toText ++ table ++ ".".toText ++ field⟩

/-- What a node is replaced by. Writes, reads without an entry and entries without
a source are counted and stay. -/
def visit (scheme : Scheme) (tables : Table.Decoded) (c : Cursor) :
    Counting Error Tally (Option (List Edit)) := do
  match ← Counting.ofExcept Error.access (c.node.proxyAccess scheme) with
  | none => return none
  | some (table, field) =>
    if c.isWritten then
      Counting.count fun tally => { tally with skippedWrites := tally.skippedWrites + 1 }
      return none
    match ← Counting.ofExcept Error.number (selected tables table field) with
    | none =>
      Counting.count fun tally =>
        { tally with
          misses := tally.misses + 1
          records := tally.records ++ [missRecord table field] }
      return none
    | some value =>
      match ← Counting.ofExcept Error.number value.literal with
      | none =>
        Counting.count fun tally => { tally with unrepresentable := tally.unrepresentable + 1 }
        return none
      | some (text, strength) =>
        Counting.count fun tally => { tally with resolved := tally.resolved + 1 }
        return some [c.replaceBy text strength]

/-- The edits for a program, and what was found. -/
def edits (scheme : Scheme) (tables : Table.Decoded) (root : Tree) :
    Except Error (List Edit) × Tally :=
  Counting.tallied ((Cursor.ofRoot root).collect (visit scheme tables)) {}

/-- Why a program cannot be resolved. -/
inductive Failure where
  | scan (error : Error)
  | revision (error : RevisionError)
  deriving DecidableEq, Repr

/-- The wording of a failed resolution. -/
def Failure.message : Failure → Text
  | .scan error => error.message
  | .revision error => error.message

/-- The program with its reads replaced, and what was found. -/
def resolve (scheme : Scheme) (tables : Table.Decoded) (p : Program) :
    Logged Failure (Program × Tally) :=
  match edits scheme tables p.root with
  | (.error error, tally) => ⟨.error (.scan error), tally.records⟩
  | (.ok found, tally) => do
    (⟨.ok (), tally.records⟩ : Logged Failure Unit)
    let p ← (p.revise found).mapError Failure.revision
    return (p, tally)

end Unproxy.Resolution
