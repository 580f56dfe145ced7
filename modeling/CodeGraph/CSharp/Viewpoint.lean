import CodeGraph.CSharp.WrittenType
import CodeGraph.Symbol.Export

namespace CodeGraph.CSharp

open CodeGraph.Text

/-!
# What names mean in a module

A name is looked up among the exports of the module itself, then among those of the modules that it
mentions. A name that nothing answers to still gives a type, with a guessed owner or none.
-/

/-- The module that owns the keyword types. -/
def coreLibrary : String := "System.Runtime"

def coreType (name : String) : TypeRef :=
  .named (.simple (some coreLibrary) "System" name)

/-- What one module sees: the exports of all, its own, and the names of those it mentions. -/
structure Viewpoint where
  index : ExportIndex
  own : Exports
  references : List String

namespace Viewpoint

def mention (v : Viewpoint) (owner : String) (t : ExportedType) : NamedType :=
  ⟨some owner, t.ns, t.nesting, [], if owner = v.own.owner then some t.id else none⟩

/-- The type of a key, the module's own before those of others. -/
def find? (v : Viewpoint) (key : String) : Option NamedType :=
  match v.own.types.get? key with
  | some t => some (v.mention v.own.owner t)
  | none => (v.index.find? v.own.owner key).map fun (owner, t) => v.mention owner t

def definition? (v : Viewpoint) (t : NamedType) : Option ExportedType :=
  match t.owner with
  | none => none
  | some owner =>
    if owner = v.own.owner then v.own.types.get? t.key else v.index.typeIn? owner t.key

/-- Lookup of a name without dots: in the types around the place, the namespaces around it, its
aliases and its usings. `followAlias` gives the type that an alias stands for. -/
def lookupSimple (v : Viewpoint) (followAlias : String → Option TypeRef) (scope : Scope) (raw : String) :
    Option NamedType :=
  let around := (scope.enclosing.findSome? fun key => v.find? (key ++ "." ++ raw)).or
    (scope.namespaces.findSome? fun ns => v.find? (Name.join ns raw))
  match around, scope.aliases.lookup raw with
  | some t, _ => some t
  | none, some target => (followAlias target).bind (·.asNamed?.filter (·.owner.isSome))
  | none, none => scope.usings.findSome? fun ns => v.find? (Name.join ns raw)

/-- Lookup of a dotted name: as a whole, below each namespace around the place, and last through its
first part. -/
def lookupQualified (v : Viewpoint) (followAlias : String → Option TypeRef) (scope : Scope)
    (first : String) (rest : List String) : Option NamedType :=
  let text := match scope.aliases.lookup first with
    | some target => Name.join target (joinWith "." rest)
    | none => joinWith "." (first :: rest)
  let whole := (v.find? text).or (scope.namespaces.findSome? fun ns => v.find? (Name.join ns text))
  match whole with
  | some t => some t
  | none =>
    rest.foldl (fun t name => t.bind fun t => v.find? (t.key ++ "." ++ name))
      (v.lookupSimple followAlias scope first)

def longest : List String → Option String
  | [] => none
  | a :: r => some (r.foldl (fun best b => if b.utf8ByteSize < best.utf8ByteSize then best else b) a)

/-- A type for a name that nothing answers to. A dotted name is placed in the mentioned module whose
name begins it, else in a module called like its first part. -/
def placeholder (v : Viewpoint) (raws : List String) : NamedType :=
  let parts := raws.dropLast
  let ns := joinWith "." parts
  let owner := if ns.isEmpty then none else
    (longest (v.references.filter fun r => ns == r || startsWith (r ++ ".") ns)).or parts.head?
  .simple owner ns (raws.getLast?.getD "")

def lookup (v : Viewpoint) (followAlias : String → Option TypeRef) (scope : Scope) :
    List String → NamedType
  | [] => v.placeholder []
  | [raw] => (v.lookupSimple followAlias scope raw).getD (v.placeholder [raw])
  | first :: rest => (v.lookupQualified followAlias scope first rest).getD (v.placeholder (first :: rest))

def typeParam? (scope : Scope) {α : Type} : List (Segment α) → Option String
  | [⟨name, []⟩] => if scope.typeParams.contains name then some name else none
  | _ => none

mutual

/-- The type that a written type means in a scope; none where an initializer has to tell. -/
def resolveWith (v : Viewpoint) (followAlias : String → Option TypeRef) (scope : Scope) :
    WrittenType → Option TypeRef
  | .inferred => none
  | .keyword name => some (coreType name)
  | .array t => (resolveWith v followAlias scope t).map .array
  | .pointer t => (resolveWith v followAlias scope t).map .pointer
  | .byRef t => (resolveWith v followAlias scope t).map .byRef
  | .tuple elements => do
    let args ← resolveAll v followAlias scope elements
    let tuple : NamedType :=
      .simple (some coreLibrary) "System" ("ValueTuple\x60" ++ toString elements.length)
    return .named { tuple with args }
  | .named segments =>
    match typeParam? scope segments with
    | some name => some (.param name)
    | none => do
      let args ← resolveLast v followAlias scope segments
      return .named { v.lookup followAlias scope (segments.map (·.raw)) with args }

def resolveAll (v : Viewpoint) (followAlias : String → Option TypeRef) (scope : Scope) :
    List WrittenType → Option (List TypeRef)
  | [] => some []
  | t :: more => do
    let t ← resolveWith v followAlias scope t
    return t :: (← resolveAll v followAlias scope more)

/-- The arguments of the last segment; a name has at least one. -/
def resolveLast (v : Viewpoint) (followAlias : String → Option TypeRef) (scope : Scope) :
    List (Segment WrittenType) → Option (List TypeRef)
  | [] => none
  | [⟨_, args⟩] => resolveAll v followAlias scope args
  | _ :: more => resolveLast v followAlias scope more

end

/-- The type that an alias stands for; its text is read outside every scope. -/
def followAlias (v : Viewpoint) (owner : String) (target : String) : Option TypeRef :=
  (WrittenType.parse? target).bind (v.resolveWith (fun _ => none) (.outermost owner))

def resolveWritten (v : Viewpoint) (scope : Scope) (t : WrittenType) : Option TypeRef :=
  v.resolveWith (v.followAlias scope.owner) scope t

def resolve (v : Viewpoint) (scope : Scope) (text : String) : Option TypeRef :=
  (WrittenType.parse? text).bind (v.resolveWritten scope)

def resolveSource (v : Viewpoint) : TypeSource → Option TypeRef
  | .resolved t => some t
  | .written text scope => v.resolve scope text

/-- A type and its bases as far as they are defined, at most so many. -/
def basesUpTo (v : Viewpoint) : Nat → NamedType → List (NamedType × ExportedType)
  | 0, _ => []
  | more + 1, t =>
    match v.definition? t with
    | none => []
    | some definition =>
      (t, definition) ::
        match (definition.base.bind v.resolveSource).bind (·.asNamed?) with
        | some base => basesUpTo v more base
        | none => []

def maxBases : Nat := 16

def baseChain (v : Viewpoint) (t : NamedType) : List (NamedType × ExportedType) :=
  v.basesUpTo maxBases t

/-- Extension methods of a name in the namespaces that a scope sees without qualification. -/
def extensionMethods (v : Viewpoint) (scope : Scope) (name : String) :
    List (NamedType × ExportedMember) :=
  let namespaces := scope.namespaces ++ scope.usings
  let own := (v.own.extensionMethods namespaces name).map fun (t, m) => (v.mention v.own.owner t, m)
  let others := (v.index.extensionMethods v.own.owner namespaces name).filter (·.1 != v.own.owner)
  own ++ others.map fun (owner, t, m) => (v.mention owner t, m)

end Viewpoint

end CodeGraph.CSharp
