import Unproxy.Text.Quoted

/-!
# Unproxy.CommandLine.Arguments

The arguments of a call: an input and an output, both of which may be missing, and
a request for help. What begins with a dash is an option, unless it is a dash, a
negative number or holds a blank. Behind a double dash everything is a value.

The input and the output are taken from the first row of values that has any:
values behind an option that follows them are too many.
-/

namespace Unproxy.CommandLine

/-- What an argument is. -/
inductive Mark where
  | value
  /-- The first double dash. -/
  | dashes
  /-- A request for help; what is written behind the option cannot be used. -/
  | help (excess : Option Text)
  | unknown
  deriving DecidableEq, Repr

namespace Mark

/-- The long form of the request for help. -/
def longHelp : Text := "--help".toText

/-- A text up to the first equals sign, and what is behind the sign. -/
def splitEquals (t : Text) : Text × Option Text :=
  let name := t.takeWhile (· ≠ CodePoint.ofChar '=')
  match t.drop name.length with
  | [] => (name, none)
  | _ :: behind => (name, some behind)

/-- Short options may be joined: requests for help may follow each other, and
anything else behind them is an excess. -/
def joined (tail : Text) : Option Text :=
  match tail.dropWhile (· = CodePoint.ofChar 'h') with
  | [] => none
  | excess => some excess

/-- A negative number: digits, or a point with digits behind it. -/
def isNegativeNumber (t : Text) : Bool :=
  match t with
  | dash :: rest =>
    let tail := rest.dropWhile CodePoint.isDigit
    dash = '-' &&
      match tail with
      | [] => !rest.isEmpty
      | point :: digits => point = '.' && !digits.isEmpty && digits.all CodePoint.isDigit
  | [] => false

/-- What an argument that begins with one dash is. -/
def ofShort (t : Text) : Mark :=
  match t with
  | _ :: h :: tail =>
    if h = 'h' then
      match tail with
      | equals :: behind =>
        if equals = '=' then (if behind.isEmpty then .help (some []) else .help (joined behind))
        else .help (joined tail)
      | [] => .help none
    else if isNegativeNumber t || t.contains (CodePoint.ofChar ' ') then .value
    else .unknown
  | _ => .value

/-- What an argument that begins with two dashes is. Help may be abbreviated. -/
def ofLong (t : Text) : Mark :=
  let (name, behind) := splitEquals t
  if name.isPrefixOf longHelp then .help behind
  else if t.contains (CodePoint.ofChar ' ') then .value
  else .unknown

/-- What an argument before the first double dash is. -/
def ofText (t : Text) : Mark :=
  match t with
  | a :: b :: _ =>
    if a ≠ '-' then .value else if b = '-' then (if t.length = 2 then .dashes else ofLong t) else ofShort t
  | _ => .value

end Mark

/-- The arguments with what they are. -/
def marked : List Text → List (Mark × Text)
  | [] => []
  | t :: rest =>
    match Mark.ofText t with
    | .dashes => (.dashes, t) :: rest.map fun t => (.value, t)
    | mark => (mark, t) :: marked rest

/-- What the arguments ask for. -/
inductive Request where
  | run (input output : Option Text)
  | help
  /-- The arguments cannot be understood. -/
  | misuse (problem : Text)
  deriving DecidableEq, Repr

/-- Values and double dashes. -/
abbrev Row := List (Mark × Text)

/-- The first place's share of a row: one value, and the double dash next to it. -/
def share (row : Row) : Row × Row :=
  let isDashes (w : Mark × Text) : Bool := w.1 == .dashes
  let before := row.takeWhile isDashes
  let rest := row.drop before.length
  let value := rest.take 1
  let after := (rest.drop 1).takeWhile isDashes
  (before ++ value ++ after, rest.drop (1 + after.length))

/-- The value of a share; a double dash is none, whatever it stands for. -/
def shareValue (row : Row) : Option Text := ((row.map Prod.snd).erase "--".toText).head?

/-- What was taken so far. -/
structure Taken where
  input : Option Text := none
  output : Option Text := none
  /-- The input and the output are settled. -/
  settled : Bool := false
  extras : List Text := []
  deriving DecidableEq, Repr

/-- Takes a row of values. -/
def Taken.place (t : Taken) (row : Row) : Taken :=
  if t.settled then { t with extras := t.extras ++ row.map Prod.snd }
  else
    let (first, row) := share row
    let (second, row) := share row
    ⟨shareValue first, shareValue second, true, t.extras ++ row.map Prod.snd⟩

/-- Ends the reading of arguments. -/
def Taken.finish (t : Taken) : Request :=
  if t.extras.isEmpty then .run t.input t.output
  else .misuse ("unrecognized arguments: ".toText ++ Text.join " ".toText t.extras)

/-- Reads arguments; `row` holds the values since the last option. -/
def readFrom (taken : Taken) (row : Row) : List (Mark × Text) → Request
  | [] => (taken.place row).finish
  | (mark, t) :: rest =>
    match mark with
    | .value | .dashes => readFrom taken (row ++ [(mark, t)]) rest
    | .unknown =>
      let taken := if row.isEmpty then taken else taken.place row
      readFrom { taken with extras := taken.extras ++ [t] } [] rest
    | .help none => .help
    | .help (some excess) =>
      .misuse ("argument -h/--help: ignored explicit argument ".toText ++ excess.quoted)

/-- What the arguments ask for. -/
def Request.ofArguments (arguments : List Text) : Request := readFrom {} [] (marked arguments)

/-- How the program is called. -/
def usage : Text := "usage: proxydeob [-h] [input] [output]\n".toText

/-- The help text. -/
def helpText : Text :=
  usage ++
    "\nRecover literals and aliased expressions hidden behind proxy namespaces.\n".toText ++
    "\npositional arguments:\n  input       obfuscated source file\n".toText ++
    "  output      destination file\n".toText ++
    "\noptions:\n  -h, --help  show this help message and exit\n".toText

/-- The complaint about arguments that cannot be understood. -/
def complaint (problem : Text) : Text := usage ++ "proxydeob: error: ".toText ++ problem ++ "\n".toText

end Unproxy.CommandLine
