import CodeGraph.Walk.Body

namespace CodeGraph

/-!
# The walk over members
-/

namespace WalkContext

def sendSignature (ctx : WalkContext) (typeName : String) (symbol : MemberSymbol)
    (state : LinkDedup × Sink) : LinkDedup × Sink :=
  match symbol.kind with
  | .method =>
    let returned := if symbol.isConstructor then [] else symbol.value.toList
    symbol.parameters.foldl (ctx.linkType .parameterType none)
      (returned.foldl (ctx.linkType .returnType none) state)
  | _ => symbol.value.toList.foldl (ctx.linkType .variableType (some typeName)) state

def walkMember (ctx : WalkContext) (walk : TypeWalk) (typeName : String) (state : Nat × Sink) (id : Nat) :
    Nat × Sink :=
  let (count, s) := state
  match ctx.view.memberSymbol ctx.index id with
  | .error _ => state
  | .ok symbol =>
    if symbol.isGenerated || symbol.isImplicitCtor || Name.isGenerated symbol.name then state
    else
      let name := Name.join typeName symbol.segment
      let node := ((Node.ofMember name typeName symbol.kind symbol.isPrivate).describedAs
        symbol.description).locatedAt symbol.location
      let (dedup, s) := ctx.sendSignature typeName symbol (.new name, s.node node)
      if ctx.view.hasBody id then (count + 1, (ctx.analyzeBody walk id dedup s).2) else (count + 1, s)

/-- Sends the members of every type that has a node; gives their number. -/
def walkMembers (ctx : WalkContext) (walk : TypeWalk) (s : Sink) : Nat × Sink :=
  walk.records.foldl
    (fun state record =>
      match record.node with
      | none => state
      | some typeName => (ctx.view.members record.symbol.id).foldl (ctx.walkMember walk typeName) state)
    (0, s)

end WalkContext

end CodeGraph
