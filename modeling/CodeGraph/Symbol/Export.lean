import CodeGraph.Dict
import CodeGraph.Symbol.Member
import CodeGraph.Symbol.Scope

namespace CodeGraph

/-!
# What modules offer each other
-/

/-- A type that is known, or a text that is read in the scope where it was written. -/
inductive TypeSource where
  | resolved (type : TypeRef)
  | written (text : String) (scope : Scope)
  deriving Repr

structure ExportedMember where
  id : Nat
  name : String
  kind : MemberKind
  signature : List String
  value : Option TypeSource
  isConstructor : Bool
  isStatic : Bool
  /-- It may be called on a value of its first parameter's type. -/
  isExtension : Bool
  deriving Repr

structure ExportedType where
  id : Nat
  ns : String
  nesting : List String
  base : Option TypeSource
  members : List ExportedMember
  /-- A parameterless constructor is written out. -/
  hasDefaultCtor : Bool
  isInterface : Bool
  deriving Repr

namespace ExportedType

def membersNamed (t : ExportedType) (name : String) : List ExportedMember :=
  t.members.filter (·.name == name)

def constructors (t : ExportedType) : List ExportedMember :=
  t.members.filter (·.isConstructor)

end ExportedType

structure Exports where
  owner : String
  types : Dict ExportedType
  deriving Repr, Inhabited

namespace Exports

def empty (owner : String) : Exports :=
  ⟨owner, .empty⟩

def insert (e : Exports) (key : String) (t : ExportedType) : Exports :=
  { e with types := e.types.insert key t }

/-- Some type lives in the namespace or below it. -/
def hasNamespace (e : Exports) (ns : String) : Bool :=
  e.types.values.any fun t => t.ns == ns || Text.startsWith (ns ++ ".") t.ns

/-- Extension methods of a name in types that are nested in no other and live in the namespaces. -/
def extensionMethods (e : Exports) (namespaces : List String) (name : String) :
    List (ExportedType × ExportedMember) :=
  (e.types.values.filter fun t => t.nesting.length == 1 && namespaces.contains t.ns).flatMap fun t =>
    ((t.membersNamed name).filter (·.isExtension)).map (t, ·)

end Exports

/-- The exports of every opened module and the names of the modules that each one mentions. -/
structure ExportIndex where
  tables : Dict Exports
  references : Dict (List String)
  deriving Repr, Inhabited

namespace ExportIndex

def empty : ExportIndex :=
  ⟨.empty, .empty⟩

def add (i : ExportIndex) (table : Exports) (references : List String) : ExportIndex :=
  ⟨i.tables.insert table.owner table, i.references.insert table.owner references⟩

def table? (i : ExportIndex) (owner : String) : Option Exports :=
  i.tables.get? owner

/-- The tables that a module sees: its own, then those of the modules it mentions. -/
def visibleFrom (i : ExportIndex) (owner : String) : List Exports :=
  (owner :: (i.references.get? owner).getD []).filterMap i.tables.get?

def find? (i : ExportIndex) (owner key : String) : Option (String × ExportedType) :=
  (i.visibleFrom owner).findSome? fun table => (table.types.get? key).map (table.owner, ·)

def typeIn? (i : ExportIndex) (owner key : String) : Option ExportedType :=
  (i.tables.get? owner).bind (·.types.get? key)

def extensionMethods (i : ExportIndex) (owner : String) (namespaces : List String) (name : String) :
    List (String × ExportedType × ExportedMember) :=
  (i.visibleFrom owner).flatMap fun table =>
    (table.extensionMethods namespaces name).map (table.owner, ·)

end ExportIndex

end CodeGraph
