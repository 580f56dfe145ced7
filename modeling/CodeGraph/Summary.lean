import CodeGraph.Json

namespace CodeGraph

/-!
# The outcome of a parse
-/

structure Summary where
  input : String
  modules : List String
  /-- Names of the modules that were opened because others mention them. -/
  externals : List String
  /-- Projects of a solution that were left out because they were never built. -/
  skipped : List String
  nodes : Nat
  links : Nat
  elapsedMs : Nat
  deriving Repr

namespace Summary

def toJson (s : Summary) : Json :=
  let texts := fun (l : List String) => Json.arr (l.map .str)
  .obj [("elapsed_ms", .nat s.elapsedMs), ("externals", texts s.externals), ("input", .str s.input),
    ("links", .nat s.links), ("modules", texts s.modules), ("nodes", .nat s.nodes),
    ("skipped_projects", texts s.skipped)]

def report (s : Summary) : String :=
  toString s.modules.length ++ " modules, " ++ toString s.externals.length ++ " externals, " ++
    toString s.nodes ++ " nodes, " ++ toString s.links ++ " links in " ++ toString s.elapsedMs ++ "ms" ++
    if s.skipped.isEmpty then "" else " (skipped: " ++ Text.joinWith ", " s.skipped ++ ")"

end Summary

end CodeGraph
