import CodeGraph.Symbol.ModuleView
import CodeGraph.Walk.Sink

namespace CodeGraph

/-!
# Link targets
-/

structure WalkContext where
  view : ModuleView
  /-- Where the names of the module begin. -/
  root : String
  index : ExportIndex
  modules : Modules

namespace WalkContext

def ownTypeName (ctx : WalkContext) (ns : String) (nesting : List String) : String :=
  Name.join ctx.root (Name.typePath ns nesting)

/-- Sends what a target in a module that was never opened needs. -/
def demandFor (ctx : WalkContext) (t : NamedType) (demand : Sink → Sink) (s : Sink) : Sink :=
  if t.owner.any (! ctx.modules.isOpened ·) then demand s else s

/-- The name to link to for a type, none when nothing is to be linked. -/
def typeTarget (ctx : WalkContext) (t : NamedType) (s : Sink) : Option String × Sink :=
  if t.isGenerated then (none, s)
  else
    match ctx.modules.typeName t with
    | none => (none, s)
    | some name => (some name, ctx.demandFor t (·.demandType ctx.modules t) s)

def memberTarget (ctx : WalkContext) (declaring : NamedType) (segment : String) (kind : MemberKind)
    (s : Sink) : Option String × Sink :=
  match ctx.modules.typeName declaring with
  | none => (none, s)
  | some typeName =>
    let name := Name.join typeName segment
    (some name, ctx.demandFor declaring (·.demandMember ctx.modules declaring name kind) s)

/-- Links to one named type; `skip` names a type that may not become a target. -/
def linkNamed (ctx : WalkContext) (kind : LinkKind) (skip : Option String)
    (state : LinkDedup × Sink) (t : NamedType × Bool) : LinkDedup × Sink :=
  let (dedup, s) := state
  let (target, s) := ctx.typeTarget t.1 s
  match target with
  | none => (dedup, s)
  | some target =>
    if skip = some target ∨ target = dedup.source then (dedup, s)
    else
      let (link, dedup) := dedup.link target .type (if t.2 then .genericArgument else kind)
      (dedup, s.link? link)

/-- Links to every named type that a type mentions; those in argument lists are generic arguments
whatever the type itself is. -/
def linkType (ctx : WalkContext) (kind : LinkKind) (skip : Option String) (state : LinkDedup × Sink)
    (t : TypeRef) : LinkDedup × Sink :=
  t.namedTypes.foldl (ctx.linkNamed kind skip) state

end WalkContext

end CodeGraph
