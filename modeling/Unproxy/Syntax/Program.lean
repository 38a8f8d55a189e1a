import Unproxy.Syntax.Statement

/-!
# Unproxy.Syntax.Program

Whole programs. Scripts and modules share one grammar, and a `return` may stand
at the top level. The grammar is narrower than what parsers of the language take in
beside it: there are no elements of markup, no decorators and no comments in the style
of HTML, what a class extends is an operand without operators, and a variable of a loop
over keys has no initial value. Such programs count as unreadable.

Main definitions:

* `Program`: a text together with the tree read from it;
* `rules`: the grammar, with a bound on how deeply it is nested;
* `Tree.weave`: puts the comments back into the tree;
* `Program.parse`: reads a program.
-/

namespace Unproxy.Syntax

/-- The grammar for programs nested no deeper than given. -/
def rules : Nat → Rules
  | 0 => Rules.none
  | depth + 1 =>
    let r := rules depth
    { assignment := Parser.assignment r
      binary := Parser.binary r
      unary := Parser.unary r
      construct := Parser.construct r
      statement := Parser.statement r }

namespace Tree

mutual

/-- Puts comments into a subtree that covers them, each into the innermost node
around it. Comments come in source order. -/
def weave (comments : List Tree) : Tree → Tree
  | ⟨kind, role, start, stop, text, children⟩ =>
    ⟨kind, role, start, stop, text, weaveList comments children⟩

/-- Puts comments into a row of subtrees and between them. -/
def weaveList (comments : List Tree) : List Tree → List Tree
  | [] => comments
  | t :: ts =>
    let before := comments.filter fun c => c.start < t.start
    let inside := comments.filter fun c => t.start ≤ c.start && c.start < t.stop
    let behind := comments.filter fun c => t.stop ≤ c.start
    before ++ (if inside.isEmpty then t else weave inside t) :: weaveList behind ts

end

mutual

/-- Whether a default value in braces was left that is part of no pattern. -/
def hasLooseDefault : Tree → Bool
  | ⟨kind, _, _, _, _, children⟩ => kind == .shorthandDefault || haveLooseDefault children

/-- Whether one of a row of subtrees has a loose default value. -/
def haveLooseDefault : List Tree → Bool
  | [] => false
  | t :: ts => hasLooseDefault t || haveLooseDefault ts

end

end Tree

/-- Why a text is no program. -/
inductive ParseError where
  /-- The text does not follow the grammar. -/
  | malformed
  /-- The text has no UTF-8 form. -/
  | unencodable (error : Utf8.EncodeError)
  deriving DecidableEq, Repr

/-- The wording of a failed reading. -/
def ParseError.message : ParseError → Text
  | .malformed => "cannot parse input".toText
  | .unencodable error => error.message

/-- A program: its text and the tree read from it. -/
structure Program where
  source : Text
  root : Tree
  deriving Repr

namespace Program

/-- The interpreter line a program may begin with, and the scan behind it. -/
def opening (source : Text) : List Tree × Scan :=
  if "#!".toText.isPrefixOf source then
    let line := source.takeWhile fun c => !c.endsLine
    let size := Scan.byteLength line
    ([Tree.leaf .hashBang 0 size line], Scan.between size [] (source.drop line.length))
  else ([], Scan.between 0 [] source)

/-- A bound for how deeply a text can be nested. -/
def depthBound (source : Text) : Nat := 4 * source.length + 16

/-- Statements up to the end of the text. -/
def statements (source : Text) : Parser (List Tree) :=
  Parser.many (do return (← Parser.next) != .finish) (rules (depthBound source)).statement
    (source.length + 1)

/-- The tree of a text, if it follows the grammar. -/
def tree? (source : Text) : Option Tree :=
  let (first, scan) := opening source
  match (statements source).run scan with
  | some (found, finish) =>
    if Tree.haveLooseDefault found then none
    else
      some ⟨.program, none, 0, Scan.byteLength source, [],
        Tree.weaveList finish.comments.reverse (first ++ found)⟩
  | none => none

/-- Reads a program. -/
def parse (source : Text) : Except ParseError Program :=
  match Utf8.checkEncodable source with
  | .error error => .error (.unencodable error)
  | .ok () =>
    match tree? source with
    | some root => .ok ⟨source, root⟩
    | none => .error .malformed

/-- The UTF-8 form of a program. -/
def bytes (p : Program) : Bytes := Utf8.encode p.source

/-- How many named nodes stand at the top level: statements, comments and the
interpreter line. -/
def topLevelCount (p : Program) : Nat := p.root.namedChildren.length

end Program

end Unproxy.Syntax
