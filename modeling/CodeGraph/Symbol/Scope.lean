import CodeGraph.Name.Canonical

namespace CodeGraph

open CodeGraph.Text

/-!
# Scopes

A scope is everything that decides what a simple type name means at one place.
-/

structure Scope where
  owner : String
  ns : String
  usings : List String
  staticUsings : List String
  /-- Short names and the texts they stand for. -/
  aliases : List (String × String)
  /-- Export keys of the types around the place, the innermost first. -/
  enclosing : List String
  typeParams : List String
  deriving Repr, Inhabited, DecidableEq

namespace Scope

def outermost (owner : String) : Scope :=
  ⟨owner, "", [], [], [], [], []⟩

def inNamespace (s : Scope) (name : String) : Scope :=
  { s with ns := Name.join s.ns name }

def withTypeParams (s : Scope) (params : List String) : Scope :=
  { s with typeParams := s.typeParams ++ params }

def inType (s : Scope) (key : String) (params : List String) : Scope :=
  { s with enclosing := key :: s.enclosing }.withTypeParams params

/-- A dotted name and the names above it, down to the empty name. The parts are given last first. -/
def chainOf : List Chars → List String
  | [] => [""]
  | part :: above => .ofList (Chars.joinWith ['.'] (part :: above).reverse) :: chainOf above

/-- The namespaces in which a simple name is looked up: the current one and those around it. -/
def namespaces (s : Scope) : List String :=
  if s.ns.isEmpty then [""] else chainOf (Chars.splitBy (· == '.') s.ns.toList).reverse

end Scope

end CodeGraph
