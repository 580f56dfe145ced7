import CodeGraph.Failure
import CodeGraph.Path
import CodeGraph.Text.Utf8

namespace CodeGraph

open CodeGraph.Path

/-!
# Trees of files

A tree holds the files that an input can lead to. A path leads to a place step by step: every step but
the last needs a directory, and `..` goes up from the place reached so far.
-/

structure File where
  data : Array UInt8
  /-- Nanoseconds since the beginning of 1970. -/
  modified : Nat
  deriving Repr, Inhabited

/-- A place is named by the names from the root down to it. -/
abbrev Place := List String

structure FileTree where
  files : List (Place × File)
  /-- Directories that are there without a file below them. -/
  directories : List Place
  /-- Where relative paths begin. -/
  current : Place
  deriving Repr, Inhabited

inductive FileError where
  | notFound
  | notDirectory
  | isDirectory
  | alreadyThere
  | notText
  deriving DecidableEq, Repr

namespace FileError

def message : FileError → String
  | notFound => "No such file or directory (os error 2)"
  | notDirectory => "Not a directory (os error 20)"
  | isDirectory => "Is a directory (os error 21)"
  | alreadyThere => "File exists (os error 17)"
  | notText => "stream did not contain valid UTF-8"

end FileError

def Failure.ofFileError (path : String) : FileError → Failure
  | .notFound => .moduleNotFound path
  | e => .unopened path e.message

namespace FileTree

def empty (current : Place) : FileTree :=
  ⟨[], [], current⟩

/-! ## Places -/

def fileAt? (t : FileTree) (place : Place) : Option File :=
  t.files.lookup place

/-- The root is a directory, and so is every place with something below it. -/
def hasDirectory (t : FileTree) (place : Place) : Bool :=
  place.isEmpty || t.directories.any place.isPrefixOf ||
    t.files.any fun (p, _) => place.isPrefixOf p && p != place

def follow (t : FileTree) (place : Place) : List Component → Except FileError Place
  | [] => .ok place
  | .root :: rest => t.follow [] rest
  | c :: rest =>
    if t.hasDirectory place then
      t.follow (match c with
        | .name n => place ++ [n]
        | .up => place.dropLast
        | _ => place) rest
    else if (t.fileAt? place).isSome then .error .notDirectory
    else .error .notFound

/-- A path that ends in a slash or in a dot means a directory. -/
def meansDirectory (path : String) : Bool :=
  Text.endsWith "/" path || Text.endsWith "/." path

def locate (t : FileTree) (path : String) : Except FileError Place :=
  if path.isEmpty then .error .notFound
  else do
    let place ← t.follow t.current (components path)
    if meansDirectory path && !t.hasDirectory place then
      .error (if (t.fileAt? place).isSome then .notDirectory else .notFound)
    else return place

/-! ## Questions about paths -/

def file? (t : FileTree) (path : String) : Option File :=
  match t.locate path with
  | .ok place => t.fileAt? place
  | .error _ => none

def isFile (t : FileTree) (path : String) : Bool :=
  (t.file? path).isSome

def isDirectory (t : FileTree) (path : String) : Bool :=
  match t.locate path with
  | .ok place => t.hasDirectory place
  | .error _ => false

def contains (t : FileTree) (path : String) : Bool :=
  t.isFile path || t.isDirectory path

def read (t : FileTree) (path : String) : Except FileError (Array UInt8) := do
  let place ← t.locate path
  match t.fileAt? place with
  | some file => return file.data
  | none => .error (if t.hasDirectory place then .isDirectory else .notFound)

def readText (t : FileTree) (path : String) : Except FileError String := do
  let data ← t.read path
  match Text.ofUtf8? data.toList with
  | some text => return text
  | none => .error .notText

def textOf (t : FileTree) (path : String) : Except Failure String :=
  match t.readText path with
  | .ok text => .ok text
  | .error e => .error (.ofFileError path e)

def canonical? (t : FileTree) (path : String) : Option String :=
  match t.locate path with
  | .ok place =>
    if (t.fileAt? place).isSome || t.hasDirectory place then some ("/" ++ Text.joinWith "/" place) else none
  | .error _ => none

/-- The files below a directory, each with the names that lead down to it. -/
def below (t : FileTree) (path : String) : List (List String × File) :=
  match t.locate path with
  | .ok place =>
    t.files.filterMap fun (p, file) =>
      if place.isPrefixOf p && p != place then some (p.drop place.length, file) else none
  | .error _ => []

def pathBelow (directory : String) (names : List String) : String :=
  names.foldl join directory

/-! ## Changes -/

def putAt (t : FileTree) (place : Place) (file : File) : FileTree :=
  { t with files := t.files.filter (·.1 != place) ++ [(place, file)] }

def makeDirectoryAt (t : FileTree) (place : Place) : FileTree :=
  if t.hasDirectory place then t else { t with directories := t.directories ++ [place] }

/-- Makes the directory of a path with all directories above it that are missing. The names are added
one by one; a file among them stands in the way. -/
def makeDirectoriesFrom (t : FileTree) (place : Place) : List Component → Except FileError (FileTree × Place)
  | [] => .ok (t, place)
  | .root :: rest => t.makeDirectoriesFrom [] rest
  | .here :: rest => t.makeDirectoriesFrom place rest
  | .up :: rest => t.makeDirectoriesFrom place.dropLast rest
  | .name n :: rest =>
    let place := place ++ [n]
    if (t.fileAt? place).isSome then .error (if rest.isEmpty then .alreadyThere else .notDirectory)
    else (t.makeDirectoryAt place).makeDirectoriesFrom place rest

def makeDirectories (t : FileTree) (path : String) : Except FileError FileTree := do
  return (← t.makeDirectoriesFrom t.current (components path)).1

/-- Writes a file into a directory that is there. -/
def write (t : FileTree) (path : String) (file : File) : Except FileError FileTree := do
  let place ← if path.isEmpty then .error .notFound else t.follow t.current (components path)
  if t.hasDirectory place then .error .isDirectory
  else if meansDirectory path then
    .error (if (t.fileAt? place).isSome then .notDirectory
      else if Text.endsWith "/" path then .isDirectory else .notFound)
  else return t.putAt place file

end FileTree

end CodeGraph
