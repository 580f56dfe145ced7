import CodeGraph.FileTree
import CodeGraph.Xml.Document

namespace CodeGraph

open CodeGraph.Text

/-!
# Project files

A project file is XML. What matters of it is the name of the module that it builds and what it refers
to; elements count wherever they stand and whatever their namespace is.
-/

structure Project where
  path : String
  assemblyName : String
  rootNamespace : Option String
  outputType : Option String
  /-- Files of the projects that are referred to. -/
  projectReferences : List String
  /-- Modules that are referred to, without version and culture. -/
  references : List String
  packageReferences : List String
  deriving DecidableEq, Repr

/-- A path in a project or solution may use backslashes. -/
def slashed (path : String) : String :=
  replace "\\" "/" path

def directoryOf (path : String) : String :=
  (Path.parent? path).getD ""

namespace Project

/-- The texts of a property that are not blank, trimmed. -/
def propertyTexts (document : Xml.Node) (name : String) : List String :=
  (((document.descendants.filter (·.isNamed name)).filterMap (·.firstText?)).map trim).filter (! ·.isEmpty)

/-- What items of a kind include, trimmed; items that include nothing do not count. -/
def includes (document : Xml.Node) (name : String) : List String :=
  (((document.descendants.filter (·.isNamed name)).filterMap (·.attribute? "Include")).map trim).filter
    (! ·.isEmpty)

/-- Reads a project file. Of several values of a property the last counts, and a project without name
is called like its file. -/
def parse (path text : String) : Except Failure Project :=
  match Xml.parse? text with
  | none => .error (.badProject path)
  | some document =>
    let property := fun name => (propertyTexts document name).getLast?
    .ok {
      path
      assemblyName := ((property "AssemblyName").or (Path.stem? path)).getD ""
      rootNamespace := property "RootNamespace"
      outputType := property "OutputType"
      projectReferences := (includes document "ProjectReference").map fun reference =>
        Path.normalize (Path.join (directoryOf path) (slashed reference))
      references := (includes document "Reference").map fun reference => trim (before (· == ',') reference)
      packageReferences := includes document "PackageReference" }

def ofFile (t : FileTree) (path : String) : Except Failure Project := do
  parse path (← t.textOf path)

def directory (p : Project) : String :=
  directoryOf p.path

def name (p : Project) : String :=
  (Path.stem? p.path).getD p.assemblyName

/-! ## Files of a project -/

def buildDirectories : List String :=
  ["bin", "obj"]

def isBuildDirectory (name : String) : Bool :=
  buildDirectories.any (eqIgnoreCase name)

/-- A built module is newer than another, or as new and first by its path. -/
def isPreferred (a b : String × File) : Bool :=
  b.2.modified < a.2.modified || (a.2.modified == b.2.modified && (Path.compare a.1 b.1).isLT)

def preferred? : List (String × File) → Option (String × File)
  | [] => none
  | a :: more =>
    match preferred? more with
    | some b => some (if isPreferred b a then b else a)
    | none => some a

/-- The newest module of the project's name below its build directory. -/
def buildOutput? (p : Project) (t : FileTree) : Option String :=
  let root := Path.join p.directory "bin"
  let wanted := ["dll", "exe"].map fun extension => p.assemblyName ++ "." ++ extension
  let built := (t.below root).filterMap fun (names, file) =>
    if names.getLast?.any fun n => wanted.any (eqIgnoreCase n) then
      some (FileTree.pathBelow root names, file)
    else none
  (preferred? built).map (·.1)

def isSourceFile (path : String) : Bool :=
  (Path.extension? path).any (eqIgnoreCase "cs")

/-- The sources below the project's directory, except for those that were built, in order. -/
def sourceFiles (p : Project) (t : FileTree) : List String :=
  let sources := (t.below p.directory).filter fun (names, _) =>
    !names.dropLast.any isBuildDirectory && names.getLast?.any isSourceFile
  Path.sort (sources.map fun (names, _) => FileTree.pathBelow p.directory names)

end Project

end CodeGraph
