import CodeGraph.OpenedModule
import CodeGraph.Summary

namespace CodeGraph

/-!
# Parses

A parse opens all modules of an input, then links each to those it mentions, then walks their types
and last their members. Every stage is over for all modules before the next one starts. What was sent
before a failure stays sent.
-/

/-- What was sent so far, and how often the parse has looked whether it shall stop. -/
structure Progress where
  sink : Sink
  checks : Nat

/-- A parse is asked to stop by the number of the first check that notices, none when it may go on. -/
abbrev StopRequest := Option Nat

abbrev Parsing := ExceptT Failure (StateM Progress)

/-- Looks whether the parse shall stop. A request once noticed is noticed by all later checks. -/
def noticesStop (stop : StopRequest) : Parsing Bool :=
  modifyGet fun p => (stop.any (· ≤ p.checks), { p with checks := p.checks + 1 })

def goOn (stop : StopRequest) : Parsing Unit := do
  if ← noticesStop stop then throw .cancelled

def sending {α : Type} (send : Sink → α × Sink) : Parsing α :=
  modifyGet fun p => let (a, sink) := send p.sink; (a, { p with sink })

def ofResult {α : Type} (result : Except Failure α) : Parsing α :=
  ExceptT.mk (pure result)

structure ModuleSet where
  internal : List OpenedModule
  external : List OpenedModule
  modules : Modules
  index : ExportIndex

namespace ModuleSet

def empty (externalsRoot : String) (ignored : Ignored) : ModuleSet :=
  ⟨[], [], .new externalsRoot ignored, .empty⟩

def all (s : ModuleSet) : List OpenedModule :=
  s.internal ++ s.external

/-- A module of the input below a node; of two with one name the first counts. -/
def addInternal (s : ModuleSet) (parent : String) (m : OpenedModule) (sink : Sink) : ModuleSet × Sink :=
  if s.modules.isOpened m.name then (s, sink)
  else
    ({ s with
        internal := s.internal ++ [m]
        modules := s.modules.insert m.name m.root true
        index := s.index.add m.view.exports m.view.references },
      sink.node (.plain m.root parent .module))

/-- A module outside the input. It counts as opened only when all of them are there. -/
def addExternal (s : ModuleSet) (view : ModuleView) (sink : Sink) : ModuleSet × Sink :=
  ({ s with
      external := s.external ++ [⟨view, s.modules.rootOf view.name, none⟩]
      index := s.index.add view.exports view.references },
    sink.demandModule s.modules view.name)

/-- From here on the modules outside the input count as opened. -/
def admitExternals (s : ModuleSet) : ModuleSet :=
  { s with modules := s.external.foldl (fun modules m => modules.insert m.name m.root false) s.modules }

def externalViews (s : ModuleSet) (t : FileTree) (config : Config) : List ModuleView :=
  (locateExternals t s.modules config.ignored (s.internal.map (·.mentions))).filterMap fun (_, path) =>
    ((ModuleSource.binary path).view t config.debugSymbols).toOption

def addExternals (s : ModuleSet) (t : FileTree) (config : Config) (sink : Sink) : ModuleSet × Sink :=
  if config.externalReferences then
    let (s, sink) := (s.externalViews t config).foldl (fun (s, sink) view => s.addExternal view sink) (s, sink)
    (s.admitExternals, sink)
  else (s, sink)

def sendReferences (s : ModuleSet) (sink : Sink) : Sink :=
  s.internal.foldl (fun sink m => (sink.references s.modules m.root m.view.references).2) sink

end ModuleSet

/-! ## Stages -/

/-- Reads the modules of a plan up to the first that cannot be read. -/
def readModules (t : FileTree) (withLocations : Bool) (stop : StopRequest) :
    List PlannedModule → Parsing (List (String × OpenedModule))
  | [] => pure []
  | p :: more => do
    goOn stop
    let m ← ofResult (p.read t withLocations)
    return (p.parent, m) :: (← readModules t withLocations stop more)

/-- The walk over the types of each module, none for a module that came after the request to stop. -/
def walkAllTypes (s : ModuleSet) (stop : StopRequest) : List OpenedModule → Parsing (List (Option TypeWalk))
  | [] => pure []
  | m :: more => do
    let walk ← if ← noticesStop stop then pure none
      else some <$> sending (m.context s.index s.modules).walkTypes
    return walk :: (← walkAllTypes s stop more)

def walkAllMembers (s : ModuleSet) (stop : StopRequest) : List (OpenedModule × Option TypeWalk) → Parsing Unit
  | [] => pure ()
  | (m, walk) :: more => do
    match walk with
    | none => pure ()
    | some walk =>
      if !(← noticesStop stop) then discard (sending ((m.context s.index s.modules).walkMembers walk))
    walkAllMembers s stop more

def openModules (t : FileTree) (config : Config) (stop : StopRequest) (plan : Plan) :
    Parsing ModuleSet := do
  sending fun sink => ((), plan.hierarchy.foldl .node sink)
  let opened ← readModules t config.debugSymbols stop plan.modules
  let set ← sending fun sink => opened.foldl (fun (s, sink) (parent, m) => s.addInternal parent m sink)
    (ModuleSet.empty plan.externalsRoot config.ignored, sink)
  goOn stop
  let set ← sending (set.addExternals t config)
  sending fun sink => ((), set.sendReferences sink)
  goOn stop
  return set

/-- Walks all modules, their types before their members. -/
def walkModules (stop : StopRequest) (set : ModuleSet) : Parsing Unit := do
  let walks ← walkAllTypes set stop set.all
  goOn stop
  walkAllMembers set stop (set.all.zip walks)
  goOn stop

def parsing (t : FileTree) (config : Config) (input : String) (stop : StopRequest) : Parsing Summary := do
  let plan ← ofResult (Plan.ofInput t input config.mode)
  goOn stop
  let set ← openModules t config stop plan
  walkModules stop set
  let items := (← get).sink.items
  return {
    input
    modules := set.internal.map (·.name)
    externals := set.external.map (·.name)
    skipped := plan.skipped
    nodes := items.countP (·.node?.isSome)
    links := items.countP (·.link?.isSome)
    elapsedMs := 0 }

/-- What a parse gives: the items in the order sent, also those before a failure, and how it ended. The
time that it took is for the caller to measure. -/
structure Outcome where
  items : List Item
  result : Except Failure Summary

def parse (t : FileTree) (config : Config) (input : String) (stop : StopRequest) : Outcome :=
  let (result, progress) := (parsing t config input stop).run.run ⟨.empty, 0⟩
  ⟨progress.sink.items.toList, result⟩

end CodeGraph
