import CodeGraph.Symbol.TypeRef
import CodeGraph.Graph.Item

namespace CodeGraph

/-!
# Types and members as the walks see them
-/

inductive SymbolError where
  | metadata
  | unwritten
  | unknownHandle (handle : Nat)
  deriving DecidableEq, Repr

structure TypeSymbol where
  id : Nat
  ns : String
  nesting : List String
  declaring : Option Nat
  base : Option TypeRef
  interfaces : List TypeRef
  isGenerated : Bool
  description : Option String
  location : Option SourceLocation
  deriving Repr

namespace TypeSymbol

def name (t : TypeSymbol) : String :=
  t.nesting.getLast?.getD ""

def key (t : TypeSymbol) : String :=
  exportKey t.ns t.nesting

def isAsyncStateMachine (t : TypeSymbol) : Bool :=
  t.interfaces.any fun i =>
    i.asNamed?.any (·.isTopLevel "System.Runtime.CompilerServices" "IAsyncStateMachine")

end TypeSymbol

/-- A field, property, event or method. -/
structure MemberSymbol where
  id : Nat
  declaring : Nat
  /-- Raw name; accessors never appear, their property or event does. -/
  name : String
  kind : MemberKind
  signature : List String
  parameters : List TypeRef
  /-- What a method returns, or the declared type of anything else. -/
  value : Option TypeRef
  isConstructor : Bool
  /-- A parameterless constructor that the compiler supplies. -/
  isImplicitCtor : Bool
  isPrivate : Bool
  isGenerated : Bool
  description : Option String
  location : Option SourceLocation
  deriving Repr

def MemberSymbol.segment (m : MemberSymbol) : String :=
  Name.memberSegment m.name m.signature (m.kind == .method)

/-- A member at a place that mentions it. -/
structure MemberRef where
  declaring : NamedType
  name : String
  kind : MemberKind
  signature : List String
  /-- Type arguments of a generic method at this place. -/
  args : List TypeRef
  /-- The definition, when it lies in the module being read. -/
  handle : Option Nat
  isConstructor : Bool
  isImplicitCtor : Bool
  isLocalFunction : Bool
  deriving Repr

namespace MemberRef

def plain (declaring : NamedType) (name : String) (kind : MemberKind) : MemberRef :=
  ⟨declaring, name, kind, [], [], none, false, false, false⟩

def segment (m : MemberRef) : String :=
  Name.memberSegment m.name m.signature (m.kind == .method)

def isGenerated (m : MemberRef) : Bool :=
  Name.isGenerated m.name || m.declaring.isGenerated

end MemberRef

inductive TypeUsage where
  | local
  | foreach
  | catch
  | generic
  deriving DecidableEq, Repr

inductive MemberUsage where
  | call
  | creation
  | access
  deriving DecidableEq, Repr

inductive BodyRef where
  | type (target : TypeRef) (usage : TypeUsage)
  | member (target : MemberRef) (usage : MemberUsage)
  deriving Repr

end CodeGraph
