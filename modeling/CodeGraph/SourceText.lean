import CodeGraph.FileTree
import CodeGraph.Graph.Locator

namespace CodeGraph

/-! # The source of a node -/

structure SourceText where
  path : String
  text : String
  line : Nat
  deriving DecidableEq, Repr

/-- Reads the file in which a node, or the first one below it, is declared. -/
def Locator.source (s : Locator) (t : FileTree) (node : String) : Except Failure SourceText :=
  match s.location? node with
  | none => .error (.nodeNotFound node)
  | some place => do return ⟨place.path, ← t.textOf place.path, place.line⟩

end CodeGraph
