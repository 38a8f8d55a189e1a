import Unproxy.Files.Path
import Unproxy.Text.Utf8
import Unproxy.Value.Basic

/-!
# Unproxy.Files.Store

A tree of files. A file is known by a number, so that one that is open stays the
same file when its name is given to another.

Main definitions:

* `Files`: the names, the contents, the directory that relative paths start from, and
  what the system refuses to do;
* `Files.read`, `Files.makeDirectory`, `Files.openEmpty`, `Files.append`,
  `Files.rename`, `Files.unlink`: the operations, with the errors an operating system
  gives. One that is refused does nothing, but for a writing that breaks off.
-/

namespace Unproxy

/-- What a name stands for. -/
inductive Files.Entry where
  | directory
  | file (id : Nat)
  deriving DecidableEq, Repr

/-- A number above that of a file. -/
def Files.Entry.bound : Files.Entry → Nat
  | .directory => 0
  | .file id => id + 1

/-- Why an operation fails. -/
inductive Files.Cause where
  | notFound
  | busy
  | exists
  | notDirectory
  | isDirectory
  /-- Anything else that the system gives as a reason: missing rights, a full or a broken
  disk. -/
  | other (number : Nat) (message : Text)
  deriving DecidableEq, Repr

/-- What a system is asked to do, with full names and the numbers of open files. -/
inductive Files.Operation where
  | read (name : List Text)
  | makeDirectory (name : List Text)
  | openEmpty (name : List Text)
  | append (id : Nat) (bytes : Bytes)
  | rename (old new : List Text)
  | unlink (name : List Text)

/-- Why an operation is refused, and how many bytes a writing got done before. -/
structure Files.Refusal where
  cause : Cause
  written : Nat := 0

/-- A tree of files. Names are lists of parts from the top. -/
structure Files where
  current : List Text
  entries : Entries (List Text) Files.Entry
  contents : Entries Nat Bytes
  /-- What the system refuses to do, for reasons that lie outside the tree. What is asked
  for again is refused again. -/
  refusal : Files.Operation → Option Files.Refusal := fun _ => none

namespace Files

/-- No files, on a system that refuses nothing. -/
def empty : Files := { current := [], entries := [], contents := [] }

/-- The number of a cause. -/
def Cause.number : Cause → Nat
  | .notFound => 2
  | .busy => 16
  | .exists => 17
  | .notDirectory => 20
  | .isDirectory => 21
  | .other number _ => number

/-- The wording of a cause. -/
def Cause.message : Cause → Text
  | .notFound => "No such file or directory".toText
  | .busy => "Device or resource busy".toText
  | .exists => "File exists".toText
  | .notDirectory => "Not a directory".toText
  | .isDirectory => "Is a directory".toText
  | .other _ message => message

/-- The number and the wording of a cause. -/
def Cause.toText (c : Cause) : Text :=
  "[Errno ".toText ++ Text.ofNat c.number ++ "] ".toText ++ c.message

/-- A failed operation, with the paths it was about. -/
structure Error where
  cause : Cause
  path : Text
  target : Option Text := none
  deriving DecidableEq, Repr

/-- The wording of a failed operation. -/
def Error.message (e : Error) : Text :=
  e.cause.toText ++ ": ".toText ++ e.path.quoted ++
    match e.target with
    | some target => " -> ".toText ++ target.quoted
    | none => []

/-- What a full name stands for. The current directory and those above it are
always there. -/
def entryAt (f : Files) (name : List Text) : Option Entry :=
  if name.isPrefixOf f.current then some .directory else f.entries.get? name

/-- Goes down from a directory; every part but the last has to be one too. -/
def descend (f : Files) : List Text → List Text → Except Cause (List Text)
  | name, [] => .ok name
  | name, part :: parts =>
    match f.entryAt name with
    | none => .error .notFound
    | some (.file _) => .error .notDirectory
    | some .directory =>
      descend f (if part = "..".toText then name.dropLast else name ++ [part]) parts

/-- The full name of a path, if the directories on the way are there. -/
def locate (f : Files) (p : Path) : Except Cause (List Text) :=
  f.descend (if p.root.isEmpty then f.current else []) p.parts

/-- The full names that a path leads through, itself included, whether they are there
or not. -/
def namesTo (f : Files) (p : Path) : List (List Text) :=
  let start := if p.root.isEmpty then f.current else []
  (List.range (p.parts.length + 1)).map fun n =>
    (p.parts.take n).foldl
      (fun name part => if part = "..".toText then name.dropLast else name ++ [part]) start

/-- The path from the top, with its double points taken out. -/
def absolute (f : Files) (p : Path) : Path :=
  let parts := if p.root.isEmpty then f.current ++ p.parts else p.parts
  let flat := parts.foldl (fun found part => if part = "..".toText then found.dropLast else found ++ [part]) []
  ⟨if p.root.isEmpty then [Path.slash] else p.root, flat⟩

/-- What a path stands for. -/
def find (f : Files) (p : Path) : Except Cause (List Text × Option Entry) :=
  (f.locate p).map fun name => (name, f.entryAt name)

/-- Whether a path stands for a directory. -/
def isDirectory (f : Files) (p : Path) : Bool :=
  match f.find p with
  | .ok (_, some .directory) => true
  | _ => false

/-- Whether a path stands for anything. -/
def isThere (f : Files) (p : Path) : Bool :=
  match f.find p with
  | .ok (_, some _) => true
  | _ => false

/-- The bytes of a file. -/
def content (f : Files) (id : Nat) : Bytes := (f.contents.get? id).getD []

/-- A number no file has, be it named or open. -/
def fresh (f : Files) : Nat :=
  let named := f.entries.map fun (_, entry) => Entry.bound entry
  let stored := f.contents.map fun (id, _) => id + 1
  (named ++ stored).foldl max 0

/-- The bytes of the file at a path. -/
def read (f : Files) (p : Path) : Except Error Bytes :=
  match f.find p with
  | .error cause => .error ⟨cause, p.toText, none⟩
  | .ok (_, none) => .error ⟨.notFound, p.toText, none⟩
  | .ok (_, some .directory) => .error ⟨.isDirectory, p.toText, none⟩
  | .ok (name, some (.file id)) =>
    match f.refusal (.read name) with
    | some refusal => .error ⟨refusal.cause, p.toText, none⟩
    | none => .ok (f.content id)

/-- Makes a directory whose parent is there. -/
def makeOne (f : Files) (p : Path) : Except Error Files :=
  match f.find p with
  | .error cause => .error ⟨cause, p.toText, none⟩
  | .ok (_, some _) => .error ⟨.exists, p.toText, none⟩
  | .ok (name, none) =>
    match f.refusal (.makeDirectory name) with
    | some refusal => .error ⟨refusal.cause, p.toText, none⟩
    | none => .ok { f with entries := Entries.set name .directory f.entries }

/-- Makes a directory that may be there already. -/
def ensureOne (f : Files) (p : Path) : Except Error Files :=
  match f.makeOne p with
  | .ok f => .ok f
  | .error error => if f.isDirectory p then .ok f else .error error

/-- Makes the directories `base/part`, `base/part/part`, … one below the other,
those that are not there. -/
def ensureBelow (f : Files) (base : Path) : List Text → Except Error Files
  | [] => .ok f
  | part :: parts =>
    let here : Path := ⟨base.root, base.parts ++ [part]⟩
    if f.isThere here && !parts.isEmpty then ensureBelow f here parts
    else
      match f.ensureOne here with
      | .error error => .error error
      | .ok f => ensureBelow f here parts

/-- Makes a directory and those above it. What is there already is left alone, and
only the last part has to be a directory then. -/
def makeDirectory (f : Files) (p : Path) : Except Error Files :=
  if p.parts.isEmpty then .ok f else f.ensureBelow ⟨p.root, []⟩ p.parts

/-- Makes a directory, and those above it if it cannot be made without them. The
first argument bounds how many. -/
def ensurePath : Nat → Files → Path → Except Error Files
  | 0, f, p => f.ensureOne p
  | depth + 1, f, p =>
    match f.makeOne p with
    | .ok f => .ok f
    | .error error =>
      if error.cause = .notFound && !p.parts.isEmpty then
        match ensurePath depth f p.parent with
        | .error error => .error error
        | .ok f => f.ensureOne p
      else if f.isDirectory p then .ok f
      else .error error

/-- Opens a file for writing from its start: it is made or emptied. The result holds
its number. -/
def openEmpty (f : Files) (p : Path) : Except Error (Nat × Files) :=
  match f.find p with
  | .error cause => .error ⟨cause, p.toText, none⟩
  | .ok (_, some .directory) => .error ⟨.isDirectory, p.toText, none⟩
  | .ok (name, entry) =>
    match f.refusal (.openEmpty name), entry with
    | some refusal, _ => .error ⟨refusal.cause, p.toText, none⟩
    | none, some (.file id) => .ok (id, { f with contents := Entries.set id [] f.contents })
    | none, _ =>
      let id := f.fresh
      .ok (id, { f with
        entries := Entries.set name (.file id) f.entries
        contents := Entries.set id [] f.contents })

/-- The files with more bytes at the end of one. -/
def extend (f : Files) (id : Nat) (bytes : Bytes) : Files :=
  { f with contents := Entries.set id (f.content id ++ bytes) f.contents }

/-- Adds bytes at the end of an open file. Where that is refused, some may be there. -/
def append (f : Files) (id : Nat) (bytes : Bytes) : Except Cause Unit × Files :=
  match f.refusal (.append id bytes) with
  | some refusal => (.error refusal.cause, f.extend id (bytes.take refusal.written))
  | none => (.ok (), f.extend id bytes)

/-- Whether the last part of a path names no file of its own. -/
def endsInPoints (p : Path) : Bool := p.parts.isEmpty || p.name == "..".toText

/-- Gives a file another name, in one step. What had that name before loses it. Messages
show the old path from the top. -/
def rename (f : Files) (old new : Path) : Except Error Files :=
  let fault (cause : Cause) : Except Error Files :=
    .error ⟨cause, (f.absolute old).toText, some new.toText⟩
  match f.find old with
  | .error cause => fault cause
  | .ok (_, none) | .ok (_, some .directory) => fault .notFound
  | .ok (place, some (.file id)) =>
    if endsInPoints new then fault .busy
    else
      match f.find new with
      | .error cause => fault cause
      | .ok (_, some .directory) => fault .isDirectory
      | .ok (name, _) =>
        match f.refusal (.rename place name) with
        | some refusal => fault refusal.cause
        | none => .ok { f with entries := Entries.set name (.file id) (f.entries.without place) }

/-- Takes the name of a file away. Messages show the path from the top. -/
def unlink (f : Files) (p : Path) : Except Error Files :=
  let fault (cause : Cause) : Except Error Files := .error ⟨cause, (f.absolute p).toText, none⟩
  match f.find p with
  | .error cause => fault cause
  | .ok (_, none) => fault .notFound
  | .ok (_, some .directory) => fault .isDirectory
  | .ok (place, some (.file _)) =>
    match f.refusal (.unlink place) with
    | some refusal => fault refusal.cause
    | none => .ok { f with entries := f.entries.without place }

/-- The last part of the name of a temporary file. It is longer than any part of a name
that there is. -/
def temporaryPart (f : Files) : Text :=
  let lengths := (f.current ++ f.entries.flatMap Prod.fst).map List.length
  let filling := List.replicate (lengths.foldl max 0) (CodePoint.ofChar '_')
  ".tmp-".toText ++ filling ++ ".partial".toText

/-- A path for a temporary file next to another file. -/
def temporaryFor (f : Files) (p : Path) : Path := ⟨p.root, p.parts.dropLast ++ [f.temporaryPart]⟩

/-- The files by full name. -/
def listing (f : Files) : List (List Text × Bytes) :=
  f.entries.filterMap fun (name, entry) =>
    match entry with
    | .file id => some (name, f.content id)
    | .directory => none

end Files

end Unproxy
