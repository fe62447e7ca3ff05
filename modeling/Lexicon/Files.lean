import Lexicon.Compile

namespace Lexicon

/-! Paths. A path is a number of steps, from the root or from the place where the
command works. -/

inductive PathStep where
  | stay
  | up
  | into (name : String)
deriving DecidableEq, Repr

/-- Where a path begins, its steps, and whether it ends in a slash. -/
structure Path where
  absolute : Bool
  steps : List PathStep
  slashed : Bool
deriving DecidableEq, Repr

/-- A place is the names that lead to it from the root, the last one first. -/
abbrev Place := List String

namespace PathStep

/-- Nothing between two slashes is no step. -/
def ofPiece : List Char → Option PathStep
  | [] => none
  | ['.'] => some .stay
  | ['.', '.'] => some .up
  | piece => some (.into (String.ofList piece))

/-- The root is above itself. -/
def target (place : Place) : PathStep → Place
  | .stay => place
  | .up => place.tail
  | .into name => name :: place

end PathStep

namespace Path

def pieces : List Char → List (List Char)
  | [] => [[]]
  | char :: rest =>
      if char = '/' then
        [] :: pieces rest
      else
        match pieces rest with
        | [] => [[char]]
        | piece :: others => (char :: piece) :: others

def ofString (text : String) : Path where
  absolute := text.toList.head? == some '/'
  steps := (pieces text.toList).filterMap PathStep.ofPiece
  slashed := text.toList.getLast? == some '/'

end Path

/-! Files by their places. The root is a directory. -/

inductive FileEntry where
  | file (content : List UInt8)
  | directory
deriving DecidableEq, Repr

structure Files where
  working : Place
  entries : List (Place × FileEntry)
deriving DecidableEq, Repr

namespace Files

def entry? (files : Files) : Place → Option FileEntry
  | [] => some .directory
  | name :: above => files.entries.lookup (name :: above)

/-- Each step begins in a directory; nothing need stand where the last one leads. -/
def walk (files : Files) (place : Place) : List PathStep → Except FileError Place
  | [] => .ok place
  | step :: rest =>
      match files.entry? place with
      | some .directory => walk files (step.target place) rest
      | some (.file _) => .error .notDirectory
      | none => .error .notFound

/-- An empty path leads nowhere. -/
def locate (files : Files) (path : Path) : Except FileError Place :=
  if path.absolute then
    files.walk [] path.steps
  else if path.steps.isEmpty then
    .error .notFound
  else
    files.walk files.working path.steps

/-- A file is no directory, even if a slash behind its name asks for one. -/
def read (files : Files) (path : String) : Except FileError (List UInt8) := do
  let path := Path.ofString path
  match files.entry? (← files.locate path) with
  | some (.file content) => if path.slashed then .error .notDirectory else .ok content
  | some .directory => .error .isDirectory
  | none => .error .notFound

def set (files : Files) (place : Place) (content : List UInt8) : Files :=
  { files with
    entries := (place, .file content) :: files.entries.filter fun entry => entry.1 != place }

/-- Makes a file or replaces its content. Behind a slash there is no file to be made. -/
def write (files : Files) (path : String) (content : List UInt8) : Except FileError Files := do
  let path := Path.ofString path
  let place ← files.locate path
  if path.slashed || files.entry? place == some .directory then
    .error .isDirectory
  else
    .ok (files.set place content)

end Files

end Lexicon
