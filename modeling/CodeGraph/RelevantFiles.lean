import CodeGraph.Config
import CodeGraph.Input
import CodeGraph.Metadata.OpenFile
import CodeGraph.Metadata.Reference
import CodeGraph.Solution

namespace CodeGraph

/-!
# The files that an input depends on

A change of one of these files can change what a parse of the input gives.
-/

/-- A module, the files beside it, and the modules beside it that it mentions. -/
def moduleFiles (t : FileTree) (path : String) : List String :=
  let references := match Path.parent? path, Metadata.BinaryModule.ofFile t path false with
    | some directory, .ok m => m.view.references.map (Metadata.fileIn directory)
    | _, _ => []
  path :: (Metadata.siblings path ++ references).filter t.isFile

def Project.files (p : Project) (t : FileTree) : ParseMode → List String
  | .binary => p.path :: (p.buildOutput? t).toList.flatMap (moduleFiles t)
  | .source => p.path :: p.sourceFiles t

def InputKind.files (t : FileTree) (input : String) (mode : ParseMode) :
    InputKind → Except Failure (List String)
  | .module => return moduleFiles t input
  | .project => do return (← Project.ofFile t input).files t mode
  | .solution => do
    let solution ← Solution.ofFile t input
    let projects ← solution.projects.mapM fun entry => Project.ofFile t entry.path
    return projects.flatMap (·.files t mode)

def relevantFiles (t : FileTree) (input : String) (mode : ParseMode) : Except Failure (List String) := do
  let files ← (← InputKind.detect input).files t input mode
  return Path.dedup (Path.sort (input :: files))

/-- When the last change was made to one of the files, none when none of them is there. -/
def newestChange? (t : FileTree) (files : List String) : Option Nat :=
  ((files.filterMap t.file?).map (·.modified)).max?

end CodeGraph
