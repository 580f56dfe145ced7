import CodeGraph.Graph.Item

namespace CodeGraph

/-!
# Links of one source

The links of one type, member or module leave it at most once for each target and kind of target.
-/

structure LinkDedup where
  source : String
  seen : List (String × NodeKind)
  deriving Repr

namespace LinkDedup

def new (source : String) : LinkDedup :=
  ⟨source, []⟩

/-- The link to a target, unless the target was linked before. -/
def link (d : LinkDedup) (target : String) (targetKind : NodeKind) (kind : LinkKind) :
    Option Link × LinkDedup :=
  if d.seen.contains (target, targetKind) then (none, d)
  else (some ⟨d.source, target, targetKind, kind⟩, { d with seen := (target, targetKind) :: d.seen })

end LinkDedup

end CodeGraph
