import CodeGraph.FileTree
import CodeGraph.Metadata.Member

namespace CodeGraph.Metadata

/-!
# Compiled modules from files

Beside a module may lie a file of sequence points and a documentation file, of the same name with
another extension. One that cannot be read does not count.
-/

def pdbExtension : String := "pdb"

def docsExtension : String := "xml"

/-- The file of a module in a directory, where the modules that others mention are looked for. -/
def fileIn (directory name : String) : String :=
  Path.join directory (name ++ ".dll")

def siblings (path : String) : List String :=
  [pdbExtension, docsExtension].map (Path.withExtension path)

def siblingPdb? (t : FileTree) (path : String) : Option Pdb := do
  let file ← t.file? (Path.withExtension path pdbExtension)
  if Pdb.isPortable file.data then Pdb.ofBytes? file.data else none

def siblingDocs? (t : FileTree) (path : String) : Option (Dict String) :=
  match t.readText (Path.withExtension path docsExtension) with
  | .ok text => Doc.parseFile? text
  | .error _ => none

/-- Opens a compiled module with what lies beside it. -/
def BinaryModule.ofFile (t : FileTree) (path : String) (withLocations : Bool) :
    Except Failure BinaryModule :=
  match t.read path with
  | .error e => .error (.ofFileError path e)
  | .ok data =>
    match BinaryModule.ofBytes? path data with
    | none => .error (.badImage path)
    | some m => .ok { m with
        files := path :: (siblings path).filter t.contains
        pdb := if withLocations then siblingPdb? t path else none
        docs := siblingDocs? t path }

end CodeGraph.Metadata
