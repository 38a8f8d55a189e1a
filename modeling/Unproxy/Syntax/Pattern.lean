import Unproxy.Syntax.Tree

/-!
# Unproxy.Syntax.Pattern

Assignment patterns look like expressions until the `=`, `=>`, `in` or `of`
behind them is read. A reader therefore reads an expression first, and these
functions turn it into a pattern or say that it is none.
-/

namespace Unproxy.Syntax.Tree

mutual

/-- The pattern an expression stands for: names, properties, and array and object
literals whose parts are patterns. Parentheses are not allowed here. -/
def toPattern : Tree → Option Tree
  | ⟨kind, role, start, stop, text, children⟩ =>
    match kind with
    | .token | .identifier | .undefined | .member | .subscript =>
      some ⟨kind, role, start, stop, text, children⟩
    | .array => (toPatterns children).map (⟨.arrayPattern, role, start, stop, text, ·⟩)
    | .object => (toPatterns children).map (⟨.objectPattern, role, start, stop, text, ·⟩)
    | .pair => (valueToPattern children).map (⟨.pairPattern, role, start, stop, text, ·⟩)
    | .shorthandProperty => some ⟨.shorthandPattern, role, start, stop, text, children⟩
    | .shorthandDefault => some ⟨.assignmentPattern, role, start, stop, text, children⟩
    | .spread =>
      match toPatterns children with
      | some parts =>
        if parts.any fun part => part.kind == .assignmentPattern then none
        else some ⟨.restPattern, role, start, stop, text, parts⟩
      | none => none
    | .assignment =>
      if (children.head?.map fun left => left.kind == .parenthesized).getD true then none
      else some ⟨.assignmentPattern, role, start, stop, text, children⟩
    | _ => none

/-- The patterns of a row. -/
def toPatterns : List Tree → Option (List Tree)
  | [] => some []
  | t :: ts =>
    match toPattern t, toPatterns ts with
    | some p, some ps => some (p :: ps)
    | _, _ => none

/-- The parts of a pair with a pattern for its value. -/
def valueToPattern : List Tree → Option (List Tree)
  | [] => some []
  | t :: ts =>
    match (if t.role = some .value then toPattern t else some t), valueToPattern ts with
    | some p, some ps => some (p :: ps)
    | _, _ => none

end

/-- What may stand left of `=`: a name, a property, something in parentheses, or a
pattern. -/
def toTarget (t : Tree) : Option Tree :=
  match t.kind with
  | .identifier | .undefined | .member | .subscript | .parenthesized => some t
  | .array | .object => t.toPattern
  | _ => none

/-- What may stand left of `+=` and its like. -/
def isSimpleTarget (t : Tree) : Bool :=
  match t.kind with
  | .identifier | .undefined | .member | .subscript | .parenthesized => true
  | _ => false

end Unproxy.Syntax.Tree
