namespace CodeGraph

/-!
# Why an input gives no graph
-/

inductive Failure where
  | unsupportedFile (path : String)
  | moduleNotFound (path : String)
  | noBuildOutput (project : String)
  | unopened (path reason : String)
  | badImage (path : String)
  | badSolution (path reason : String)
  | badProject (path : String)
  | cancelled
  | config
  | nodeNotFound (name : String)
  | inputOutput (reason : String)
  deriving DecidableEq, Repr, Inhabited

namespace Failure

/-- What a user reads. Where the details are those of a reader for a foreign format, the text ends
before them. -/
def message : Failure → String
  | unsupportedFile path => "file type not supported: " ++ path
  | moduleNotFound path => "module not found: " ++ path
  | noBuildOutput project => "project " ++ project ++ " has no build output"
  | unopened path reason => "failed to open " ++ path ++ ": " ++ reason
  | badImage path => "malformed module " ++ path ++ ": "
  | badSolution path reason => "malformed solution " ++ path ++ ": " ++ reason
  | badProject path => "malformed project " ++ path ++ ": "
  | cancelled => "parse cancelled"
  | config => "Configuration error: "
  | nodeNotFound name => "node not found: " ++ name
  | inputOutput reason => "IO error: " ++ reason

end Failure

end CodeGraph
