import CodeGraph.CSharp.OpenFiles
import CodeGraph.Metadata.OpenFile
import CodeGraph.Metadata.Reference
import CodeGraph.Plan
import CodeGraph.Walk.Members

namespace CodeGraph

/-!
# Opened modules

A module that was read, with the place of its names. A module outside the input is opened when one of
the input mentions it and its file lies where that one's references are looked for.
-/

structure OpenedModule where
  view : ModuleView
  /-- Where the names of the module begin. -/
  root : String
  /-- Where the modules that this one mentions may lie. -/
  searchDirectory : Option String

namespace OpenedModule

def name (m : OpenedModule) : String :=
  m.view.name

def context (m : OpenedModule) (index : ExportIndex) (modules : Modules) : WalkContext :=
  ⟨m.view, m.root, index, modules⟩

end OpenedModule

def ModuleSource.view (t : FileTree) (withLocations : Bool) : ModuleSource → Except Failure ModuleView
  | .binary path => (Metadata.BinaryModule.ofFile t path withLocations).map (·.view)
  | .source name references files =>
    (CSharp.SourceModule.ofFiles t name references files withLocations).map (·.view)

def PlannedModule.read (p : PlannedModule) (t : FileTree) (withLocations : Bool) :
    Except Failure OpenedModule := do
  let view ← p.source.view t withLocations
  return ⟨view, Name.join p.parent (Name.moduleSegment view.name), p.searchDirectory⟩

/-! ## Modules outside the input -/

/-- What matters of a module when the modules that it mentions are looked for. -/
structure ModuleMentions where
  references : List String
  searchDirectory : Option String
  deriving DecidableEq, Repr

def OpenedModule.mentions (m : OpenedModule) : ModuleMentions :=
  ⟨m.view.references, m.searchDirectory⟩

def ModuleMentions.fileOf? (m : ModuleMentions) (t : FileTree) (name : String) : Option String :=
  (m.searchDirectory.map (Metadata.fileIn · name)).filter t.isFile

/-- Each module that is mentioned and can be opened, once, with the first file that was found for it. -/
def locateExternals (t : FileTree) (modules : Modules) (ignored : Ignored)
    (mentioning : List ModuleMentions) : List (String × String) :=
  let mentions := mentioning.flatMap fun m => m.references.map (m, ·)
  mentions.foldl
    (fun found (m, name) =>
      if modules.isOpened name || ignored.covers name || found.any (·.1 == name) then found
      else found ++ (m.fileOf? t name).toList.map (name, ·)) []

end CodeGraph
