import CodeGraph.Dict
import CodeGraph.Graph.Item
import CodeGraph.Ignored
import CodeGraph.Symbol.TypeRef

namespace CodeGraph

/-!
# Where the names of modules live
-/

/-- Where the names of one opened module begin, and whether it belongs to the input. -/
structure ModuleEntry where
  root : String
  internal : Bool
  deriving DecidableEq, Repr

/-- The opened modules, the group of all others, and the modules that are never linked to. -/
structure Modules where
  entries : Dict ModuleEntry
  externalsRoot : String
  ignored : Ignored
  deriving Repr

namespace Modules

def new (externalsRoot : String) (ignored : Ignored) : Modules :=
  ⟨.empty, externalsRoot, ignored⟩

def insert (m : Modules) (name root : String) (internal : Bool) : Modules :=
  { m with entries := m.entries.insert name ⟨root, internal⟩ }

def get? (m : Modules) (name : String) : Option ModuleEntry :=
  m.entries.get? name

def isOpened (m : Modules) (name : String) : Bool :=
  m.entries.contains name

def isInternal (m : Modules) (name : String) : Bool :=
  (m.get? name).any (·.internal)

/-- A module of the input is not ignored, whatever its name. -/
def isIgnored (m : Modules) (name : String) : Bool :=
  !m.isInternal name && m.ignored.covers name

/-- Where a module's names begin: its own place when it is opened, else a place in the group. -/
def rootOf (m : Modules) (name : String) : String :=
  match m.get? name with
  | some entry => entry.root
  | none => Name.join m.externalsRoot (Name.moduleSegment name)

/-- Canonical name of a type at a place that mentions it; none when it may not be linked to. -/
def typeName (m : Modules) (t : NamedType) : Option String :=
  match t.owner with
  | some owner =>
    if m.isIgnored owner then none
    else some (Name.join (m.rootOf owner) (Name.typePath t.ns t.nesting))
  | none => none

def internalModules (m : Modules) : List String :=
  Text.sort ((m.entries.entries.filter (·.2.internal)).map (·.1))

end Modules

end CodeGraph
