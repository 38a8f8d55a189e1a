import Unproxy.Text.Basic

/-!
# Unproxy.Files.Path

Paths, read once: empty parts and single points are dropped, double points stay.
A path that begins with exactly two slashes keeps both.
-/

namespace Unproxy

/-- A path: what it starts from and its parts. -/
structure Path where
  /-- Empty, one slash or two. -/
  root : Text
  parts : List Text
  deriving DecidableEq, Repr

namespace Path

/-- The slash between parts. -/
def slash : CodePoint := '/'

/-- The pieces between slashes. -/
def split : Text → List Text
  | [] => [[]]
  | c :: rest =>
    if c = slash then [] :: split rest
    else
      match split rest with
      | [] => [[c]]
      | piece :: pieces => (c :: piece) :: pieces

/-- The slashes a text starts from. -/
def rootOf (t : Text) : Text :=
  match (t.takeWhile (· = slash)).length with
  | 0 => []
  | 2 => [slash, slash]
  | _ => [slash]

/-- Reads a path. -/
def ofText (t : Text) : Path :=
  ⟨rootOf t, (split t).filter fun part => !part.isEmpty && part != ".".toText⟩

/-- The path as text; the path without parts is a point. -/
def toText (p : Path) : Text :=
  if p.root.isEmpty && p.parts.isEmpty then ".".toText else p.root ++ Text.join [slash] p.parts

/-- The last part, empty if there is none. -/
def name (p : Path) : Text := p.parts.getLast?.getD []

/-- The path without its last part. -/
def parent (p : Path) : Path := ⟨p.root, p.parts.dropLast⟩

/-- The name without the part from the last point on; a point at either end of the
name does not count. -/
def stem (p : Path) : Text :=
  let name := p.name
  let tail := (name.reverse.takeWhile (· ≠ CodePoint.ofChar '.')).length
  let point := name.length - tail - 1
  if tail < name.length && 0 < point && tail ≠ 0 then name.take point else name

/-- The path with another last part. -/
def withName (p : Path) (name : Text) : Path := ⟨p.root, p.parts.dropLast ++ [name]⟩

end Path

end Unproxy
