import Unproxy.CommandLine.Call
import Unproxy.Log.Time

/-!
# Unproxy.Main

The program. It takes the files that a call can touch from the disk, makes the call,
and puts on the disk what the call changed.
-/

namespace Unproxy.Disk

open Log Pipeline

/-- A text as the operating system takes it. -/
def toName (t : Text) : String := String.ofList (t.map fun c => Char.ofNat c.val)

/-- A full name as the operating system takes it. -/
def fullName (name : List Text) : String := "/" ++ "/".intercalate (name.map toName)

/-- Bytes as the operating system takes them. -/
def toBlock (bytes : Bytes) : ByteArray := ⟨bytes.toArray⟩

/-- Takes over what the disk has under a full name. -/
def takeOver (files : Files) (name : List Text) : IO Files := do
  let path := (← IO.currentDir) / fullName name
  if files.entries.has name then return files
  else if ← path.isDir then
    return { files with entries := files.entries.set name .directory }
  else if ← path.pathExists then
    let bytes := (← IO.FS.readBinFile path).toList
    let id := files.fresh
    return { files with
      entries := files.entries.set name (.file id)
      contents := files.contents.set id bytes }
  else return files

/-- The part of the disk that some paths lead through. -/
def snapshot (paths : List Path) : IO Files := do
  let here := Path.ofText (← IO.currentDir).toString.toText
  let files := { Files.empty with current := here.parts }
  paths.foldlM (fun files p => (files.namesTo p).foldlM takeOver files) files

/-- Puts what stands under a full name on the disk, if it is not there yet. -/
def putBack (before after : Files) (name : List Text) : Files.Entry → IO Unit
  | .directory =>
    if before.entries.has name then return else IO.FS.createDirAll (fullName name)
  | .file id => do
    let known := match before.entries.get? name with
      | some (.file old) => before.content old == after.content id
      | _ => false
    if !known then IO.FS.writeBinFile (fullName name) (toBlock (after.content id))

/-- The variables that settings come from. -/
def environment : IO CommandLine.Environment :=
  ["PROXYDEOB_SCHEMA", "PROXYDEOB_VERBOSE", "PROXYDEOB_LOG_FILE", "PROXYDEOB_REPORT"].filterMapM
    fun name => return (← IO.getEnv name).map fun value => (name.toText, value.toText)

/-- The time, which a file made for the purpose tells. -/
def now : IO Text := do
  let (_, path) ← IO.FS.createTempFile
  let time := (← path.metadata).modified
  IO.FS.removeFile path
  return timeText time.sec.toNat

/-- The clock of the machine. -/
def clock : Clock IO where
  now := now
  measure f := do
    let start ← IO.monoNanosNow
    let result ← IO.lazyPure fun _ => Clock.outcome f
    let stop ← IO.monoNanosNow
    let seconds := Binary64.ofRatio false (stop - start) 1000000000
    return (result, if h : seconds.isCanonical = true then ⟨seconds, h⟩ else Duration.zero)

/-- A layout for want of a formatter: line breaks at the end go. -/
def layOut (t : Text) : Text := (t.reverse.dropWhile fun c => c.val == 0x0A || c.val == 0x0D).reverse

/-- A call on the disk. The result is the exit status. -/
def call (arguments : List Text) : IO UInt32 := do
  let environment ← environment
  let before ← snapshot (CommandLine.touched arguments environment)
  let outcome ← CommandLine.call clock
    { arguments := arguments, environment := environment, files := before,
      home := Path.ofText "proxydeob/schema/config.json".toText, layOut := layOut }
  for (name, entry) in outcome.files.entries do
    putBack before outcome.files name entry
  (← IO.getStdout).write (toBlock (Utf8.encode outcome.output))
  (← IO.getStderr).write (toBlock (Utf8.encode outcome.errors))
  match outcome.ending with
  | .status code => return code.toUInt32
  | .abort error =>
    (← IO.getStderr).write (toBlock (Utf8.encode (error.message ++ "\n".toText)))
    return 1

end Unproxy.Disk

/-- The program's entry point. -/
def main (arguments : List String) : IO UInt32 := Unproxy.Disk.call (arguments.map String.toText)
