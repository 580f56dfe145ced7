import CodeGraph.Config
import CodeGraph.Graph.Item
import CodeGraph.Input
import CodeGraph.Solution

namespace CodeGraph

/-!
# Plans

A plan says which modules an input consists of, where their nodes hang, and what they are read from.
-/

inductive ModuleSource where
  | binary (path : String)
  | source (name : String) (references files : List String)
  deriving DecidableEq, Repr

structure PlannedModule where
  /-- Name of the node above the module, empty for none. -/
  parent : String
  source : ModuleSource
  /-- Where the modules that this one mentions may lie. -/
  searchDirectory : Option String
  project : Option String
  deriving DecidableEq, Repr

structure Plan where
  /-- The solution and its folders, each after the one around it. -/
  hierarchy : List Node
  modules : List PlannedModule
  /-- Projects that were never built. -/
  skipped : List String
  /-- Name of the group of all modules that are not of the input. -/
  externalsRoot : String
  deriving DecidableEq, Repr

namespace Project

/-- The name of the module that a project among these, or else the file itself, builds. -/
def assemblyNameAt (projects : List Project) (t : FileTree) (path : String) : String :=
  match projects.reverse.find? fun p => Path.same p.path path with
  | some p => p.assemblyName
  | none =>
    match Project.ofFile t path with
    | .ok p => p.assemblyName
    | .error _ => (Path.stem? path).getD ""

def visibleModules (p : Project) (projects : List Project) (t : FileTree) : List String :=
  ((p.projectReferences.map (assemblyNameAt projects t) ++ p.references ++ p.packageReferences).filter
    (! ·.isEmpty)).foldl (fun seen name => if seen.contains name then seen else seen ++ [name]) []

/-- How a project below a node is read; none when it would be read from what was built and there is
nothing. -/
def planned? (p : Project) (mode : ParseMode) (projects : List Project) (t : FileTree) (parent : String) :
    Option PlannedModule :=
  let output := p.buildOutput? t
  let source : Option ModuleSource := match mode with
    | .binary => output.map .binary
    | .source => some (.source p.assemblyName (p.visibleModules projects t) (p.sourceFiles t))
  source.map fun source =>
    { parent, source, searchDirectory := output.bind Path.parent?, project := some p.name }

end Project

/-- The names of the folders of a chain, the outermost first, each below the one before it. -/
def folderNames (root : String) : List String → List String
  | [] => []
  | folder :: more =>
    let name := Name.join root (Name.moduleSegment folder)
    name :: folderNames name more

def folderParent (root : String) (folders : List String) : String :=
  (folderNames root folders).getLast?.getD root

namespace Plan

def empty (externalsRoot : String) : Plan :=
  ⟨[], [], [], externalsRoot⟩

/-- Adds the folders of a chain that are not there yet, each below the one before it. -/
def addFolders (plan : Plan) (parent : String) : List String → Plan
  | [] => plan
  | name :: more =>
    let plan :=
      if plan.hierarchy.any fun n => n.kind == .solutionFolder && n.name == name then plan
      else { plan with hierarchy := plan.hierarchy ++ [.plain name parent .solutionFolder] }
    plan.addFolders name more

/-- Adds one project of a solution. A folder has a node only if a project in it is read. -/
def addProject (plan : Plan) (root : String) (entry : SolutionProject) : Option PlannedModule → Plan
  | some module =>
    let plan := plan.addFolders root (folderNames root entry.folders)
    { plan with modules := plan.modules ++ [module] }
  | none => { plan with skipped := plan.skipped ++ [entry.name] }

def ofProjects (solution : Solution) (projects : List Project) (mode : ParseMode) (t : FileTree) : Plan :=
  let root := Name.moduleSegment solution.name
  let start : Plan :=
    ⟨[.plain root "" .solution], [], [], Name.join root Name.externals⟩
  (solution.projects.zip projects).foldl
    (fun plan (entry, project) => plan.addProject root entry
      (project.planned? mode projects t (folderParent root entry.folders))) start

/-- All projects have to be readable, also those that will be skipped. -/
def ofSolution (solution : Solution) (mode : ParseMode) (t : FileTree) : Except Failure Plan := do
  let projects ← solution.projects.mapM fun entry => Project.ofFile t entry.path
  return ofProjects solution projects mode t

def ofProject (project : Project) (mode : ParseMode) (t : FileTree) : Except Failure Plan :=
  match project.planned? mode [] t "" with
  | some module => .ok { empty Name.externals with modules := [module] }
  | none => .error (.noBuildOutput project.name)

def ofModule (path : String) (t : FileTree) : Except Failure Plan :=
  if t.isFile path then
    .ok { empty Name.externals with modules := [⟨"", .binary path, Path.parent? path, none⟩] }
  else .error (.moduleNotFound path)

def ofInput (t : FileTree) (input : String) (mode : ParseMode) : Except Failure Plan := do
  match ← InputKind.detect input with
  | .module => ofModule input t
  | .project => ofProject (← Project.ofFile t input) mode t
  | .solution => ofSolution (← Solution.ofFile t input) mode t

end Plan

end CodeGraph
