import Unproxy.Syntax.Scan

/-!
# Unproxy.Syntax.Quotation

Strings and regular expressions: the parts of a program in which white space
counts. A string is read into fragments and escapes between its quotes, so its
value can be computed from the leaves alone.
-/

namespace Unproxy.Syntax.Parser

/-- The longest stretch of a string that holds no escape: up to a quote, a
backslash or a line break. -/
def stringFragment (quote : CodePoint) (t : Text) : Text :=
  t.takeWhile fun c => c ≠ quote && c ≠ '\\' && c ≠ '\r' && c ≠ '\n'

/-- The inside of a string with its closing quote. -/
def stringRest (quote : CodePoint) : Nat → Parser (List Tree)
  | 0 => reject
  | n + 1 => do
    let s ← get
    if s.rest.head? = some quote then return [← take .token [quote]]
    else
      match Lexeme.escape? s.rest with
      | some escape =>
        let first ← takeInside .escape escape
        let others ← stringRest quote n
        return first :: others
      | none =>
        let fragment := stringFragment quote s.rest
        require !fragment.isEmpty
        let first ← takeInside .stringFragment fragment
        let others ← stringRest quote n
        return first :: others

/-- A string in single or double quotes. -/
def string : Parser Tree := do
  match ← next with
  | .quote quote =>
    let opening ← takeInside .token [quote]
    let inside ← stringRest quote (← budget)
    return Tree.node .string (opening :: inside)
  | _ => reject

/-- Where a regular expression under way stands. -/
inductive RegexPlace where
  | outside
  /-- Between brackets. -/
  | inClass
  deriving DecidableEq

/-- The body of a regular expression, up to the slash that ends it. A slash in
brackets or behind a backslash does not. -/
def regexBody? (place : RegexPlace) (escaped : Bool) : Text → Option Text
  | [] => none
  | c :: rest =>
    if c = '\n' then none
    else if escaped then (regexBody? place false rest).map (c :: ·)
    else if c = '\\' then (regexBody? place true rest).map (c :: ·)
    else
      match place with
      | .outside =>
        if c = '/' then some []
        else if c = '[' then (regexBody? .inClass false rest).map (c :: ·)
        else (regexBody? .outside false rest).map (c :: ·)
      | .inClass => (regexBody? (if c = ']' then .outside else .inClass) false rest).map (c :: ·)

/-- A regular expression with its flags. -/
def regex : Parser Tree := do
  let s ← get
  match s.rest with
  | slash :: rest =>
    require (slash = '/')
    match regexBody? .outside false rest with
    | some body =>
      require !body.isEmpty
      let opening ← takeInside .token [slash]
      let pattern ← takeInside .regexPattern body
      let flags := (rest.drop (body.length + 1)).takeWhile CodePoint.isLower
      if flags.isEmpty then
        let closing ← take .token [slash]
        return Tree.node .regex [opening, pattern, closing]
      else
        let closing ← takeInside .token [slash]
        let flagged ← take .regexFlags flags
        return Tree.node .regex [opening, pattern, closing, flagged]
    | none => reject
  | [] => reject

end Unproxy.Syntax.Parser
