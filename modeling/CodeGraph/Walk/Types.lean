import CodeGraph.Walk.Context

namespace CodeGraph

/-!
# The walk over types

Types are met from the top level down, each before the types nested in it. What compilers add gets no
node; of it only the types that drive asynchronous methods are remembered.
-/

/-- A type that was met. One that drives an asynchronous method has no node. -/
structure TypeRecord where
  symbol : TypeSymbol
  node : Option String
  isAsync : Bool
  deriving Repr

structure TypeWalk where
  records : Array TypeRecord
  /-- Types that drive asynchronous methods, by name. -/
  asyncTypes : Dict Nat
  deriving Repr

namespace TypeWalk

def empty : TypeWalk :=
  ⟨#[], .empty⟩

def nodeCount (w : TypeWalk) : Nat :=
  (w.records.filter (·.node.isSome)).size

end TypeWalk

abbrev Namespaces := Dict (Option String)

/-- The names of a namespace and of those around it, the outermost first. -/
def namespaceChain (root ns : String) : List String :=
  ((Sink.namespaceParts ns).foldl
    (fun (name, chain) part => let name := Name.join name part; (name, chain ++ [name])) (root, [])).2

/-- A namespace with those around it; what is there keeps its description. -/
def Namespaces.register (n : Namespaces) (root ns : String) : Namespaces :=
  (namespaceChain root ns).foldl (fun n name => if n.contains name then n else n.insert name none) n

/-- The type whose comment describes its namespace. -/
def namespaceDoc : String := "NamespaceDoc"

structure TypeWalkState where
  walk : TypeWalk
  namespaces : Namespaces
  sink : Sink

namespace WalkContext

def sendTypeLinks (ctx : WalkContext) (name : String) (symbol : TypeSymbol) (s : Sink) : Sink :=
  let state := symbol.base.toList.foldl (ctx.linkType .baseType (some name)) (LinkDedup.new name, s)
  (symbol.interfaces.foldl (ctx.linkType .interface (some name)) state).2

/-- One type, and the types nested in it, which are to be met next. -/
def walkType (ctx : WalkContext) (state : TypeWalkState) (id : Nat) (declaring : Option String) :
    TypeWalkState × List (Nat × Option String) :=
  match ctx.view.typeSymbol ctx.index id with
  | .error _ => (state, [])
  | .ok symbol =>
    let name := ctx.ownTypeName symbol.ns symbol.nesting
    if symbol.isGenerated || Name.isGenerated symbol.name then
      if symbol.isAsyncStateMachine then
        ({ state with walk :=
            ⟨state.walk.records.push ⟨symbol, none, true⟩, state.walk.asyncTypes.insert name id⟩ }, [])
      else (state, [])
    else if symbol.name = namespaceDoc ∧ symbol.declaring.isNone then
      if symbol.ns.isEmpty then (state, [])
      else
        let namespaces := state.namespaces.register ctx.root symbol.ns
        ({ state with namespaces := namespaces.insert (Name.join ctx.root symbol.ns) symbol.description },
          [])
    else
      let namespaces :=
        if declaring.isNone then state.namespaces.register ctx.root symbol.ns else state.namespaces
      let parent := declaring.getD (Name.join ctx.root symbol.ns)
      let node := ((Node.plain name parent .type).describedAs symbol.description).locatedAt symbol.location
      let sink := ctx.sendTypeLinks name symbol (state.sink.node node)
      let walk := { state.walk with records := state.walk.records.push ⟨symbol, some name, false⟩ }
      (⟨walk, namespaces, sink⟩, (ctx.view.nested id).map (·, some name))

/-- Types one after the other, each followed by those that are nested in it. The first argument bounds
how deep types nest. -/
def walkNested (ctx : WalkContext) : Nat → TypeWalkState → List (Nat × Option String) → TypeWalkState
  | 0, state, _ => state
  | depth + 1, state, types =>
    types.foldl (fun state type =>
      let met := ctx.walkType state type.1 type.2
      ctx.walkNested depth met.1 met.2) state

def sendNamespaces (namespaces : Namespaces) (s : Sink) : Sink :=
  (namespaces.entries.mergeSort fun a b => !(b.1 < a.1)).foldl
    (fun s (name, description) =>
      s.node ((Node.plain name (Name.parent name) .namespacePart).describedAs description)) s

def walkTypes (ctx : WalkContext) (s : Sink) : TypeWalk × Sink :=
  let state := ctx.walkNested (ctx.view.typeCount + 1) ⟨.empty, .empty, s⟩
    (ctx.view.topLevel.map (·, none))
  (state.walk, sendNamespaces state.namespaces state.sink)

end WalkContext

end CodeGraph
