import Unproxy.Edit
import Unproxy.Log.Record
import Unproxy.Syntax.Program

/-!
# Unproxy.Syntax.Revision

Programs with edits applied. The result is read again, so that an edited program
is always a program.
-/

namespace Unproxy.Syntax

/-- Why an edited text is no program. -/
inductive RevisionError where
  | edit (error : Edit.Error)
  | parse (error : ParseError)
  deriving DecidableEq, Repr

/-- The wording of a failed revision. -/
def RevisionError.message : RevisionError → Text
  | .edit error => error.message
  | .parse error => error.message

namespace Program

open Log

/-- The name under which reading programs reports. -/
def readingSource : Text := "proxydeob.js_ast".toText

/-- Reads a program and reports its size. -/
def load (source : Text) : Logged ParseError Program := do
  let program ← Logged.ofExcept (parse source)
  Logged.tell .debug readingSource
    ("parsed ".toText ++ Text.ofNat program.bytes.length ++ " bytes into ".toText ++
      Text.ofNat program.topLevelCount ++ " top-level nodes".toText)
  return program

/-- The text after edits. -/
def edited (p : Program) (edits : List Edit) : Except Edit.Error Text := Edit.applyAll p.bytes edits 0

/-- The program after edits. Without edits it stays as it is. -/
def revise (p : Program) (edits : List Edit) : Logged RevisionError Program :=
  if edits.isEmpty then pure p
  else
    match p.edited edits with
    | .error error => Logged.fail (.edit error)
    | .ok text => (load text).mapError .parse

end Program

end Unproxy.Syntax
