import Unproxy.Files.Store

/-!
# Unproxy.Files.Text

Text files. Reading joins line breaks of every kind into line feeds; writing goes
to a temporary file first, which then takes the place of the target.
-/

namespace Unproxy.Files

/-- Why a text file cannot be read. -/
inductive ReadError where
  | file (error : Error)
  | undecodable (error : Utf8.DecodeError)
  deriving DecidableEq, Repr

/-- The wording of a failed reading. -/
def ReadError.message : ReadError → Text
  | .file error => error.message
  | .undecodable error => error.message

/-- Why a text file cannot be written. -/
inductive WriteError where
  | file (error : Error)
  /-- The open file does not take the text. -/
  | brokenOff (cause : Cause)
  | unencodable (error : Utf8.EncodeError)
  deriving DecidableEq, Repr

/-- The wording of a failed writing. -/
def WriteError.message : WriteError → Text
  | .file error => error.message
  | .brokenOff cause => cause.toText
  | .unencodable error => error.message

/-- The text of bytes, line breaks joined. -/
def textOf (bytes : Bytes) : Except Utf8.DecodeError Text := (Utf8.decode bytes).map Text.joinLineBreaks

/-- The text without the mark of its byte order. -/
def dropMark (t : Text) : Text :=
  match t with
  | c :: rest => if c.val = 0xFEFF then rest else t
  | [] => []

/-- The text of a file. -/
def readRaw (f : Files) (p : Path) : Except ReadError Text :=
  match f.read p with
  | .error error => .error (.file error)
  | .ok bytes => (textOf bytes).mapError .undecodable

/-- The text of a file without the mark of its byte order. -/
def readText (f : Files) (p : Path) : Except ReadError Text := (f.readRaw p).map dropMark

/-- Fills an open file with a text. -/
def fill (f : Files) (id : Nat) (t : Text) : Except WriteError Unit × Files :=
  match Utf8.checkEncodable t with
  | .error error => (.error (.unencodable error), f)
  | .ok () =>
    let (outcome, f) := f.append id (Utf8.encode t)
    (outcome.mapError .brokenOff, f)

/-- Takes a temporary file away after a failure. If it cannot be taken away, that is the
failure, unless it is gone already. -/
def discard (f : Files) (temporary : Path) (error : WriteError) : Except WriteError Unit × Files :=
  match f.unlink temporary with
  | .ok f => (.error error, f)
  | .error removal => (.error (if removal.cause = .notFound then error else .file removal), f)

/-- Writes a text to a temporary file, which then takes the place of the target. When
that fails the temporary file is taken away again. -/
def writeThrough (f : Files) (temporary p : Path) (t : Text) : Except WriteError Unit × Files :=
  match f.openEmpty temporary with
  | .error error => (.error (.file { error with path := (f.absolute temporary).toText }), f)
  | .ok (id, f) =>
    match f.fill id t with
    | (.error error, f) => f.discard temporary error
    | (.ok (), f) =>
      match f.rename temporary p with
      | .error error => f.discard temporary (.file error)
      | .ok f => (.ok (), f)

/-- Writes a text. The directories above the file are made if they are not there. The
result holds the files also when it fails. -/
def writeText (f : Files) (p : Path) (t : Text) : Except WriteError Unit × Files :=
  match f.makeDirectory p.parent with
  | .error error => (.error (.file error), f)
  | .ok f => f.writeThrough (f.temporaryFor p) p t

end Unproxy.Files
