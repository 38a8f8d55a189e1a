import Unproxy.Syntax.Lexeme
import Unproxy.Syntax.Tree

/-!
# Unproxy.Syntax.Scan

Where a reader of programs stands. A `Scan` holds the text that is left, how
many bytes lie before it, and the token it begins with. White space and comments
are passed over after every token; the comments are kept, because the finished
tree holds them.

A `Parser` either moves the scan on and returns a result, or fails.

Main definitions:

* `Token`, `Gap`, `Scan`, `Parser`;
* `Scan.between`: passes over white space and comments;
* `take`, `symbol`, `keyword`: read one token as a leaf of the tree;
* `Scan.endsByBreak`, `terminator`: where a statement ends.
-/

namespace Unproxy.Syntax

/-- The token a text begins with. Strings, templates and regular expressions are
read piece by piece, so only their first code point is looked at. -/
inductive Token where
  /-- A name or a keyword. -/
  | name (spelling : Text)
  /-- A name behind a number sign. -/
  | privateName (spelling : Text)
  | number (spelling : Text)
  | quote (c : CodePoint)
  | backtick
  | symbol (spelling : Text)
  | finish
  | unknown
  deriving DecidableEq, Repr

/-- What lies between a token and the one before it. -/
inductive Gap where
  /-- No line break. -/
  | none
  /-- A line break, the first one outside of comments. -/
  | line
  /-- A line break, the first one inside a comment or at its end. -/
  | comment
  deriving DecidableEq, Repr

namespace Gap

/-- The gap after a line break inside a comment. -/
def orComment : Gap → Gap
  | .none => .comment
  | gap => gap

/-- The gap after a line break outside of comments. -/
def orLine : Gap → Gap
  | .none => .line
  | gap => gap

end Gap

/-- The token at the head of a text. -/
def Token.ofText (t : Text) : Token :=
  match t with
  | [] => .finish
  | c :: rest =>
    if c = '"' || c = '\'' then .quote c
    else if c = '`' then .backtick
    else if c = '#' then
      match Lexeme.name? rest with
      | some lexeme => .privateName (c :: lexeme)
      | none => .unknown
    else if c.isDigit || (c = '.' && (rest.head?.map CodePoint.isDigit).getD false) then
      match Lexeme.number? t with
      | some lexeme => .number lexeme
      | none => .unknown
    else
      match Lexeme.name? t with
      | some lexeme => .name lexeme
      | none =>
        match Lexeme.symbol? t with
        | some lexeme => .symbol lexeme
        | none => .unknown

/-- The state of reading. -/
structure Scan where
  /-- What is left to read. -/
  rest : Text
  /-- The number of bytes before it. -/
  offset : Nat
  /-- The token it begins with. -/
  next : Token
  /-- What was passed over before it. -/
  gap : Gap
  /-- The comments seen so far, the last one first. -/
  comments : List Tree
  deriving Repr

/-- Where the passage between two tokens stands. A comment under way has its
start and its text so far, reversed. -/
inductive Passage where
  | blank
  | lineComment (start : Nat) (reversed : Text)
  | blockComment (start : Nat) (reversed : Text)

namespace Scan

/-- Whether a block comment with this text, reversed, ends with a slash: the
asterisk before it must not be the one that opens the comment. -/
def closesBlock (reversed : Text) : Bool :=
  reversed.head? == some (CodePoint.ofChar '*') && 3 ≤ reversed.length

/-- Passes over white space and comments. A block comment without an end leaves
an unknown token. -/
def betweenFrom (passage : Passage) (offset : Nat) (gap : Gap) (comments : List Tree) : Text → Scan
  | [] =>
    match passage with
    | .blank => ⟨[], offset, .finish, gap, comments⟩
    | .lineComment start reversed =>
      ⟨[], offset, .finish, gap, Tree.leaf .comment start offset reversed.reverse :: comments⟩
    | .blockComment _ _ => ⟨[], offset, .unknown, gap, comments⟩
  | c :: rest =>
    let here := offset + Utf8.width c
    match passage with
    | .blank =>
      if c.isBlank then
        betweenFrom .blank here (if c.isLineBreak then gap.orLine else gap) comments rest
      else if c = '/' && rest.head? == some (CodePoint.ofChar '/') then
        betweenFrom (.lineComment offset [c]) here gap.orComment comments rest
      else if c = '/' && rest.head? == some (CodePoint.ofChar '*') then
        betweenFrom (.blockComment offset [c]) here gap comments rest
      else ⟨c :: rest, offset, Token.ofText (c :: rest), gap, comments⟩
    | .lineComment start reversed =>
      if c.endsLine then
        betweenFrom .blank here gap (Tree.leaf .comment start offset reversed.reverse :: comments) rest
      else betweenFrom (.lineComment start (c :: reversed)) here gap comments rest
    | .blockComment start reversed =>
      if c = '/' && closesBlock reversed then
        betweenFrom .blank here gap
          (Tree.leaf .comment start here (c :: reversed).reverse :: comments) rest
      else
        betweenFrom (.blockComment start (c :: reversed)) here
          (if c.isLineBreak then gap.orComment else gap) comments rest

/-- The scan at the next token of a text. -/
def between (offset : Nat) (comments : List Tree) (rest : Text) : Scan :=
  betweenFrom .blank offset .none comments rest

/-- The number of bytes of a lexeme. -/
def byteLength (lexeme : Text) : Nat :=
  lexeme.foldr (fun c length => Utf8.width c + length) 0

/-- The scan behind a lexeme, at the next token. -/
def advance (s : Scan) (lexeme : Text) : Scan :=
  between (s.offset + byteLength lexeme) s.comments (s.rest.drop lexeme.length)

/-- The scan right behind a lexeme, inside a string, template or regular
expression, where white space counts. -/
def advanceInside (s : Scan) (lexeme : Text) : Scan :=
  { s with rest := s.rest.drop lexeme.length, offset := s.offset + byteLength lexeme, next := .unknown }

end Scan

/-- A reader of some part of a program. -/
abbrev Parser := StateT Scan Option

namespace Parser

/-- Reads nothing and fails. -/
def reject {α : Type} : Parser α := fun _ => none

/-- Goes on only if the condition holds. -/
def require (condition : Bool) : Parser Unit := if condition then pure () else reject

/-- The token that comes next. -/
def next : Parser Token := fun s => some (s.next, s)

/-- What lies before the next token. -/
def gap : Parser Gap := fun s => some (s.gap, s)

/-- A bound for the number of tokens left. -/
def budget : Parser Nat := fun s => some (s.rest.length + 1, s)

/-- Whether the given punctuator comes next. -/
def atSymbol (spelling : String) : Parser Bool := fun s => some (s.next == .symbol spelling.toText, s)

/-- Whether the given word comes next. -/
def atWord (spelling : String) : Parser Bool := fun s => some (s.next == .name spelling.toText, s)

/-- Reads a lexeme as a leaf and goes on to the next token. -/
def take (kind : Kind) (lexeme : Text) : Parser Tree := fun s =>
  some (Tree.leaf kind s.offset (s.offset + Scan.byteLength lexeme) lexeme, s.advance lexeme)

/-- Reads a lexeme as a leaf and stops right behind it. -/
def takeInside (kind : Kind) (lexeme : Text) : Parser Tree := fun s =>
  some (Tree.leaf kind s.offset (s.offset + Scan.byteLength lexeme) lexeme, s.advanceInside lexeme)

/-- Reads the given punctuator. -/
def symbol (spelling : String) : Parser Tree := do
  require (← atSymbol spelling)
  take .token spelling.toText

/-- Reads the given word as a keyword. -/
def keyword (spelling : String) : Parser Tree := do
  require (← atWord spelling)
  take .token spelling.toText

/-- Reads the given punctuator if it comes next. -/
def symbol? (spelling : String) : Parser (List Tree) := do
  if ← atSymbol spelling then return [← take .token spelling.toText] else return []

/-- Reads the given word if it comes next. -/
def keyword? (spelling : String) : Parser (List Tree) := do
  if ← atWord spelling then return [← take .token spelling.toText] else return []

/-- The scan behind the next token, if that is a word or a punctuator; behind any
other token nothing is known. -/
def second : Parser Scan := fun s =>
  match s.next with
  | .name spelling | .symbol spelling | .privateName spelling => some (s.advance spelling, s)
  | _ => some ({ s with next := .unknown }, s)

/-- Reads items for as long as `more` says so. -/
def many (more : Parser Bool) (item : Parser Tree) : Nat → Parser (List Tree)
  | 0 => reject
  | n + 1 => do
    if ← more then
      let first ← item
      let others ← many more item n
      return first :: others
    else return []

/-- Reads items with commas between them up to a closing punctuator, which is
left. The commas are part of the result. An item may be missing where `holes`
holds; a comma may always stand behind the last item. -/
def commaList (close : String) (holes : Bool) (item : Parser Tree) : Nat → Parser (List Tree)
  | 0 => reject
  | n + 1 => do
    if ← atSymbol close then return []
    else if ← atSymbol "," then
      require holes
      let comma ← symbol ","
      let others ← commaList close holes item n
      return comma :: others
    else
      let first ← item
      if ← atSymbol close then return [first]
      else
        let comma ← symbol ","
        let others ← commaList close holes item n
        return first :: comma :: others

/-- Reads at least one item, with commas between. -/
def commaSeparated (item : Parser Tree) : Nat → Parser (List Tree)
  | 0 => reject
  | n + 1 => do
    let first ← item
    if ← atSymbol "," then
      let comma ← symbol ","
      let others ← commaSeparated item n
      return first :: comma :: others
    else return [first]

end Parser

namespace Scan

/-- Whether a text can begin with a word, that is, goes on with no letter. -/
def endsWord (t : Text) : Bool := !(t.head?.map CodePoint.isLetter).getD false

/-- Whether a line break before this text ends a statement. It does not where the
text can only go on with the expression before it. -/
def startsStatement (t : Text) : Bool :=
  match t with
  | [] => true
  | c :: rest =>
    let second := rest.head?
    if "`,:;*%><=[(?^|&/".toText.contains c then false
    else if c = '.' then (second.map CodePoint.isDigit).getD false
    else if c = '+' || c = '-' then second == some c
    else if c = '!' then second != some (CodePoint.ofChar '=')
    else if c = 'i' then
      match Text.after? "in".toText t with
      | some behind =>
        !(endsWord behind ||
          match Text.after? "stanceof".toText behind with
          | some behind => endsWord behind
          | none => false)
      | none => true
    else true

/-- Whether the statement before the scan ends here without a semicolon. Where
no expression has begun (`bare`), a break in a comment ends it before anything
but a comma or an equals sign. -/
def endsByBreak (bare : Bool) (s : Scan) : Bool :=
  match s.next with
  | .finish => true
  | next =>
    next == .symbol "\x7d".toText ||
      match s.gap with
      | .none => false
      | .line => startsStatement s.rest
      | .comment =>
        if bare then
          s.rest.head? != some (CodePoint.ofChar ',') && s.rest.head? != some (CodePoint.ofChar '=')
        else startsStatement s.rest

end Scan

namespace Parser

/-- Whether the statement ends here, with or without a semicolon. -/
def atEnd (bare : Bool) : Parser Bool := fun s =>
  some (s.next == .symbol ";".toText || s.endsByBreak bare, s)

/-- Reads the end of a statement: a semicolon, or nothing where a line break, a
closing brace or the end of the program allows it. -/
def terminator (bare : Bool) : Parser (List Tree) := do
  require (← atEnd bare)
  symbol? ";"

end Parser

end Unproxy.Syntax
