import CodeGraph.Dict
import CodeGraph.Metadata.MethodBody
import CodeGraph.Metadata.Pdb
import CodeGraph.Metadata.Row
import CodeGraph.Metadata.RowRange
import CodeGraph.Path
import CodeGraph.Symbol.Member

namespace CodeGraph.Metadata

open CodeGraph.Text

/-!
# Compiled modules

What is looked up over and over is gathered once when a module is opened: which type nests in which,
which type a member belongs to, which methods are accessors, and which rows carry one of two
attributes. A module is opened only if all of that can be read.
-/

/-- A property or event, by its token, that a method serves. -/
structure Accessor where
  owner : Token
  kind : MemberKind
  deriving Repr

/-- Attributes that change how a row is read. -/
inductive Marker where
  | generated
  | extension
  deriving DecidableEq, Repr

structure BinaryModule where
  path : String
  /-- The file and what was found beside it. -/
  files : List String
  image : Image
  name : String
  /-- The module that defines the types of keywords. -/
  coreLibrary : String
  references : List String
  /-- Nested types with the types around them, one for each nested type. -/
  nesting : List (Nat × Nat)
  interfaces : List (Nat × Token)
  typeMethods : Array RowRange
  typeFields : Array RowRange
  methodOwners : Array Nat
  fieldOwners : Array Nat
  /-- Types with their properties; a later entry replaces an earlier one. -/
  properties : List (Nat × RowRange)
  events : List (Nat × RowRange)
  /-- Methods that are accessors; a later entry replaces an earlier one. -/
  accessors : List (Nat × Accessor)
  /-- Rows that compilers made up. -/
  generated : List Token
  /-- Methods that may be called on a value of their first parameter. -/
  extensions : List Token
  pdb : Option Pdb
  docs : Option (Dict String)

/-- Modules that define the types of keywords, the first of which counts. -/
def coreLibraries : List String :=
  ["System.Runtime", "mscorlib", "netstandard", "System.Private.CoreLib"]

def compilerServices : String :=
  "System.Runtime.CompilerServices"

namespace BinaryModule

/-- The module is called like its assembly, else like its own file name without extension. -/
def moduleName? (i : Image) (path : String) : Option String :=
  if 0 < i.count TableId.assembly then i.assemblyName?
  else do
    let name ← if 0 < i.count TableId.module then i.moduleName? else some ""
    return ((Path.stem? name).or (Path.stem? path)).getD ""

def referenceNames? (i : Image) : Option (List String) := do
  let names ← (i.rows TableId.assemblyRef).mapM i.assemblyRef?
  return names.foldl (fun l n => if l.contains n then l else l ++ [n]) []

/-- For each nested type the type around it: what its first row says. A type does not nest in itself. -/
def nestingOf (rows : List (Nat × Nat)) : List (Nat × Nat) :=
  rows.foldl (fun l (nested, outer) =>
    if nested = 0 ∨ nested = outer ∨ l.any (·.1 == nested) then l else l ++ [(nested, outer)]) []

/-- Types with the rows of another table that a table between them gives. -/
def ownedRows? (i : Image) (map owned : Nat) : Option (List (Nat × RowRange)) := do
  let rows ← i.pairs? map
  return (rows.map (·.1)).zip (RowRange.ofColumn (i.count owned) (rows.map (·.2)))

def accessor? (i : Image) (row : Nat) : Option (Option (Nat × Accessor)) := do
  match ← i.row? TableId.methodSemantics row with
  | [_, method, association] =>
    let owner := Token.ofNat association
    if owner.table = TableId.property then some (some (method, ⟨owner, .property⟩))
    else if owner.table = TableId.event then some (some (method, ⟨owner, .event⟩))
    else some none
  | _ => none

/-- The attribute whose constructor a token names, if it is one of those that count. -/
def marker? (i : Image) (methodOwners : Array Nat) (constructor : Token) : Option Marker := do
  let owner ←
    if constructor.table = TableId.memberRef then (i.memberRef? constructor.row).map (·.owner)
    else if constructor.table = TableId.method ∧ 0 < constructor.row then
      (methodOwners[constructor.row - 1]?).map fun owner => (⟨TableId.typeDef, owner⟩ : Token)
    else none
  let (ns, name) ←
    if owner.table = TableId.typeRef then (i.typeRef? owner.row).map fun t => (t.ns, t.name)
    else if owner.table = TableId.typeDef then (i.type? owner.row).map fun t => (t.ns, t.name)
    else none
  if (← i.text? ns) ≠ compilerServices then failure
  match ← i.text? name with
  | "CompilerGeneratedAttribute" => some .generated
  | "ExtensionAttribute" => some .extension
  | _ => none

/-- Rows that carry an attribute, with the constructor of that attribute. -/
def attributes? (i : Image) : Option (List (Token × Token)) :=
  (i.rows TableId.customAttribute).mapM fun row => do
    match ← i.row? TableId.customAttribute row with
    | [owner, constructor, _] => some (.ofNat owner, .ofNat constructor)
    | _ => none

def ofBytes? (path : String) (data : Array UInt8) : Option BinaryModule := do
  let i ← Image.ofBytes? data
  let name ← moduleName? i path
  let references ← referenceNames? i
  let nested ← i.pairs? TableId.nestedClass
  let types ← (i.rows TableId.typeDef).mapM i.type?
  let typeMethods := RowRange.ofColumn (i.count TableId.method) (types.map (·.firstMethod))
  let typeFields := RowRange.ofColumn (i.count TableId.field) (types.map (·.firstField))
  let methodOwners := owners (i.count TableId.method) typeMethods
  let properties ← ownedRows? i TableId.propertyMap TableId.property
  let events ← ownedRows? i TableId.eventMap TableId.event
  let accessors ← (i.rows TableId.methodSemantics).mapM (accessor? i)
  let interfaces ← i.pairs? TableId.interfaceImpl
  let attributes ← attributes? i
  let marked := fun m => (attributes.filter fun (_, c) => marker? i methodOwners c == some m).map (·.1)
  return {
    path, files := [path], image := i, name, references
    coreLibrary := (references.find? coreLibraries.contains).getD name
    nesting := nestingOf nested
    interfaces := interfaces.map fun (type, i) => (type, .ofNat i)
    typeMethods := typeMethods.toArray
    typeFields := typeFields.toArray
    methodOwners
    fieldOwners := owners (i.count TableId.field) typeFields
    properties, events
    accessors := accessors.filterMap id
    generated := marked .generated
    extensions := marked .extension
    pdb := none
    docs := none }

/-! ## Lookups -/

def lastOf? {α : Type} (l : List (Nat × α)) (key : Nat) : Option α :=
  l.reverse.lookup key

def rangeOf (ranges : Array RowRange) (type : Nat) : List Nat :=
  if type = 0 then [] else ((ranges[type - 1]?).map (·.rows)).getD []

def methodsOf (m : BinaryModule) (type : Nat) : List Nat :=
  rangeOf m.typeMethods type

def fieldsOf (m : BinaryModule) (type : Nat) : List Nat :=
  rangeOf m.typeFields type

def propertiesOf (m : BinaryModule) (type : Nat) : List Nat :=
  ((lastOf? m.properties type).map (·.rows)).getD []

def eventsOf (m : BinaryModule) (type : Nat) : List Nat :=
  ((lastOf? m.events type).map (·.rows)).getD []

/-- The type that a row belongs to, unless it belongs to none. -/
def ownerOf? (owners : Array Nat) (row : Nat) : Option Nat :=
  if row = 0 then none else (owners[row - 1]?).filter (· != 0)

def mappedOwner? (ranges : List (Nat × RowRange)) (row : Nat) : Option Nat :=
  (ranges.reverse.find? fun (_, r) => r.contains row).map (·.1)

def enclosing? (m : BinaryModule) (type : Nat) : Option Nat :=
  m.nesting.lookup type

/-- The types that nest in a type, in the order of their rows. -/
def nestedTypes (m : BinaryModule) (type : Nat) : List Nat :=
  ((m.nesting.filter (·.2 == type)).map (·.1)).mergeSort

def accessorOf? (m : BinaryModule) (method : Nat) : Option Accessor :=
  lastOf? m.accessors method

def accessorRows (m : BinaryModule) (owner : Token) : List Nat :=
  (m.accessors.filter fun (_, a) => a.owner == owner).map (·.1)

/-! ## Types by name -/

def maxNesting : Nat := 64

/-- The namespace around a type and the names from the outermost type down to it. At most so many
types lie around it. -/
def chainUpTo (m : BinaryModule) : Nat → Nat → Option (String × List String)
  | more, row => do
    let t ← m.image.type? row
    let name ← m.image.text? t.name
    match m.enclosing? row, more with
    | none, _ => return (← m.image.text? t.ns, [name])
    | some _, 0 => none
    | some outer, more + 1 => do
      let (ns, names) ← chainUpTo m more outer
      return (ns, names ++ [name])

def chain? (m : BinaryModule) (type : Nat) : Option (String × List String) :=
  m.chainUpTo maxNesting type

/-- A type of the module where the module itself mentions it. -/
def localType? (m : BinaryModule) (type : Nat) : Option NamedType := do
  let (ns, nesting) ← m.chain? type
  return ⟨some m.name, ns, nesting, [], some type⟩

/-- A type that a row refers to, within so many types that the row names as being around it. -/
def referencedUpTo (m : BinaryModule) : Nat → Nat → Option NamedType
  | 0, _ => none
  | more + 1, row => do
    let t ← m.image.typeRef? row
    let name ← m.image.text? t.name
    let ns ← m.image.text? t.ns
    if t.scope.table = TableId.typeRef ∧ t.scope.row ≠ 0 then
      let outer ← referencedUpTo m more t.scope.row
      return { outer with nesting := outer.nesting ++ [name] }
    else if t.scope.table = TableId.assemblyRef ∧ t.scope.row ≠ 0 then
      return .simple (some (← m.image.assemblyRef? t.scope.row)) ns name
    else return .simple (some m.name) ns name

def unknownType : TypeRef :=
  .named (.simple none "" "?")

/-- The type of a token at some depth; the first argument bounds how often a type's own signature is
followed. -/
def resolveUpTo (m : BinaryModule) : Nat → Token → (depth : Nat) → TypeRef
  | 0, _, _ => unknownType
  | more + 1, t, depth =>
    if maxNesting < depth then unknownType
    else if t.table = TableId.typeDef then ((m.localType? t.row).map .named).getD unknownType
    else if t.table = TableId.typeRef then
      ((m.referencedUpTo (maxNesting + 1 - depth) t.row).map .named).getD unknownType
    else if t.table = TableId.typeSpec then
      let spec : Option TypeRef := do
        let row ← m.image.row? TableId.typeSpec t.row
        let blob ← m.image.blob? (← row.head?)
        SigType.specType? ⟨resolveUpTo m more, m.coreLibrary⟩ depth blob
      spec.getD unknownType
    else unknownType

def resolve (m : BinaryModule) (t : Token) (depth : Nat) : TypeRef :=
  m.resolveUpTo (maxNesting + 2) t depth

/-- What signatures of the module mean. -/
def naming (m : BinaryModule) : SigType.Naming :=
  ⟨m.resolve, m.coreLibrary⟩

/-- The type of a token, none for a token without row. -/
def typeOf? (m : BinaryModule) (t : Token) : Option TypeRef :=
  if t.row = 0 then none else some (m.resolve t 0)

end BinaryModule

end CodeGraph.Metadata
