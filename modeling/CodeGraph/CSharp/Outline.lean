import CodeGraph.CSharp.Code
import CodeGraph.Symbol.Scope

namespace CodeGraph.CSharp

open CodeGraph.Text

/-!
# What a source file declares

The outline of a file is the tree of its namespaces, types and members. A field declaration with
several names is one member for each name.
-/

inductive TypeForm where
  | classType
  | structType
  | interface
  | enum
  | record
  | delegate
  deriving DecidableEq, Repr

inductive UsingTarget where
  | namespacePart (name : String)
  | static (type : String)
  | alias (name target : String)
  deriving DecidableEq, Repr

structure Using where
  /-- It holds in every file of the module. -/
  isGlobal : Bool
  target : UsingTarget
  deriving Repr

def Using.apply (u : Using) (s : Scope) : Scope :=
  match u.target with
  | .namespacePart name => { s with usings := s.usings ++ [name] }
  | .static type => { s with staticUsings := s.staticUsings ++ [type] }
  | .alias name target => { s with aliases := s.aliases ++ [(name, target)] }

inductive MemberForm where
  | field
  | eventField
  | property
  | event
  | indexer
  | method
  | constructor
  | destructor
  | operator (symbol : String)
  | conversion (implicit : Bool)
  | enumMember
  deriving DecidableEq, Repr

structure OutlineMember where
  form : MemberForm
  modifiers : List String
  /-- The interface that the member implements by name. -/
  interface : Option String
  name : String
  type : Option String
  typeParams : List String
  parameters : Parameters
  /-- The code of its block, accessors or initializer, in the order written. -/
  body : List Code
  row : Nat
  /-- Comments above it, the nearest first. -/
  above : List String

/-- A type's declaration without what it contains. -/
structure OutlineType where
  form : TypeForm
  modifiers : List String
  name : String
  typeParams : List String
  /-- Parameters behind the name. -/
  parameters : Option Parameters
  bases : List String
  row : Nat
  above : List String

inductive OutlineItem where
  | using (directive : Using)
  /-- A namespace that holds the rest of the file. -/
  | fileNamespace (name : String)
  | namespacePart (name : String) (items : List OutlineItem)
  | type (declaration : OutlineType) (items : List OutlineItem)
  | member (declaration : OutlineMember)

mutual

def OutlineItem.weight : OutlineItem → Nat
  | .namespacePart _ items => 1 + OutlineItem.weightAll items
  | .type _ items => 1 + OutlineItem.weightAll items
  | _ => 1

def OutlineItem.weightAll : List OutlineItem → Nat
  | [] => 0
  | i :: rest => OutlineItem.weight i + OutlineItem.weightAll rest

end

structure SourceFile where
  path : String
  items : List OutlineItem

end CodeGraph.CSharp
