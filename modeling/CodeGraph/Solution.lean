import CodeGraph.Dict
import CodeGraph.Project

namespace CodeGraph

open CodeGraph.Text

/-!
# Solution files

A solution file lists projects and folders, one line for each, and in a section of its own it says for
each of them in which folder it lies. Identifiers are compared without braces and without case.
-/

structure SolutionProject where
  name : String
  path : String
  guid : String
  /-- Names of the folders around the project, the outermost first. -/
  folders : List String
  deriving DecidableEq, Repr

structure Solution where
  path : String
  name : String
  projects : List SolutionProject
  deriving DecidableEq, Repr

structure SolutionEntry where
  name : String
  path : String
  guid : String
  isFolder : Bool
  deriving DecidableEq, Repr

namespace SolutionEntry

def isBrace (c : Char) : Bool :=
  c == '\x7b' || c == '\x7d'

def guidOf (text : String) : String :=
  upperAscii (trimMatches isBrace (trim text))

def folderType : String := "2150E333-8FDC-42A3-9474-1A3956D46DE8"

/-- Reads `Project("type") = "name", "path", "guid"`. -/
def ofLine? (line : String) : Option SolutionEntry := do
  let (head, _, tail) ← Chars.cut? (· == '=') line.toList
  let type ← (Chars.splitBy (· == '"') head)[1]?
  match (Chars.splitBy (· == ',') tail).map fun f => trimMatches (· == '"') (trim (.ofList f)) with
  | name :: path :: guid :: _ =>
    return ⟨name, path, guidOf guid, guidOf (.ofList type) == folderType⟩
  | _ => none

def projectExtensions : List String :=
  ["csproj", "vbproj", "fsproj"]

def isProject (e : SolutionEntry) : Bool :=
  !e.isFolder && (Path.extension? (slashed e.path)).any fun x => projectExtensions.any (eqIgnoreCase x)

end SolutionEntry

structure SolutionLines where
  entries : List SolutionEntry
  /-- Identifiers with those of the folders around them. -/
  parents : Dict String
  /-- The lines belong to the section on folders. -/
  inNesting : Bool
  deriving Repr

namespace SolutionLines

def empty : SolutionLines :=
  ⟨[], .empty, false⟩

/-- One more line, none when it opens an entry that cannot be read. -/
def add? (s : SolutionLines) (line : String) : Option SolutionLines :=
  let line := trim line
  if startsWith "Project(" line then
    (SolutionEntry.ofLine? line).map fun e => { s with entries := s.entries ++ [e] }
  else if startsWith "GlobalSection(NestedProjects)" line then some { s with inNesting := true }
  else if startsWith "EndGlobalSection" line then some { s with inNesting := false }
  else if s.inNesting then
    match Chars.cut? (· == '=') line.toList with
    | some (child, _, parent) =>
      let guid := fun (text : Chars) => SolutionEntry.guidOf (.ofList text)
      some { s with parents := s.parents.insert (guid child) (guid parent) }
    | none => some s
  else some s

/-- Reads all lines, or gives the number of the first one that cannot be read. -/
def read (s : SolutionLines) (number : Nat) : List String → Except Nat SolutionLines
  | [] => .ok s
  | line :: more =>
    match s.add? line with
    | some s => s.read (number + 1) more
    | none => .error number

def folders (s : SolutionLines) : Dict String :=
  (s.entries.filter (·.isFolder)).foldl (fun d e => d.insert e.guid e.name) .empty

end SolutionLines

/-- Names of the folders around an identifier, the innermost first and at most so many. -/
def foldersAround (parents folders : Dict String) : Nat → String → List String
  | 0, _ => []
  | more + 1, guid =>
    match parents.get? guid with
    | none => []
    | some parent =>
      match folders.get? parent with
      | none => []
      | some name => name :: foldersAround parents folders more parent

/-- Names of the folders around an identifier, the outermost first. Folders that lie in each other give
one name more than there are folders. -/
def folderChain (parents folders : Dict String) (guid : String) : List String :=
  (foldersAround parents folders (folders.size + 1) guid).reverse

namespace Solution

def parse (path text : String) : Except Failure Solution :=
  match SolutionLines.empty.read 1 (lines text) with
  | .error number =>
    .error (.badSolution path ("line " ++ toString number ++ ": malformed Project entry"))
  | .ok s =>
    .ok {
      path
      name := (Path.stem? path).getD "Solution"
      projects := (s.entries.filter (·.isProject)).map fun e =>
        { name := e.name
          path := Path.join (directoryOf path) (slashed e.path)
          guid := e.guid
          folders := folderChain s.parents s.folders e.guid } }

def ofFile (t : FileTree) (path : String) : Except Failure Solution := do
  parse path (← t.textOf path)

end Solution

end CodeGraph
