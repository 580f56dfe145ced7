import CodeGraph.Symbol.Export

namespace CodeGraph

/-!
# What a walk sees of a module

Compiled and written modules answer the same questions. A reference that cannot be followed is
answered with a guessed or missing owner and never with an error.
-/

structure ModuleView where
  name : String
  /-- Names of the modules that this one mentions. -/
  references : List String
  files : List String
  exports : Exports
  topLevel : List Nat
  nested : Nat → List Nat
  typeSymbol : ExportIndex → Nat → Except SymbolError TypeSymbol
  /-- Fields, properties, events and methods; accessors are part of their property or event. -/
  members : Nat → List Nat
  memberSymbol : ExportIndex → Nat → Except SymbolError MemberSymbol
  hasBody : Nat → Bool
  /-- What the member's body, accessors or initializer mention. -/
  body : ExportIndex → Nat → Except SymbolError (List BodyRef)
  findMethod : Nat → String → Option Nat
  /-- Handles of types are below this number. -/
  typeCount : Nat
  /-- Handles of members are below this number. -/
  memberCount : Nat

end CodeGraph
