import CodeGraph.Failure
import CodeGraph.Path

namespace CodeGraph

open CodeGraph.Text

/-! # Kinds of inputs -/

inductive InputKind where
  | solution
  | project
  | module
  deriving DecidableEq, Repr

namespace InputKind

def name : InputKind → String
  | solution => "solution"
  | project => "project"
  | module => "module"

def extensions : List (String × InputKind) :=
  [("sln", solution), ("csproj", project), ("vbproj", project), ("fsproj", project), ("dll", module),
    ("exe", module)]

def ofPath? (path : String) : Option InputKind :=
  (Path.extension? path).bind fun e => extensions.lookup (lowerAscii e)

def detect (path : String) : Except Failure InputKind :=
  match ofPath? path with
  | some kind => .ok kind
  | none => .error (.unsupportedFile path)

end InputKind

end CodeGraph
