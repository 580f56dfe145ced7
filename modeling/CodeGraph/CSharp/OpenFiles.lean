import CodeGraph.CSharp.Module
import CodeGraph.FileTree

namespace CodeGraph.CSharp

/-- Reads a module from its source files; all of them have to be readable. -/
def SourceModule.ofFiles (t : FileTree) (name : String) (references paths : List String)
    (withLocations : Bool) : Except Failure SourceModule := do
  let texts ← paths.mapM fun path => return (path, ← t.textOf path)
  return .ofTexts name references texts withLocations

end CodeGraph.CSharp
