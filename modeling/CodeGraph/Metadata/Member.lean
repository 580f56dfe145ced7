import CodeGraph.Doc.Ids
import CodeGraph.Metadata.Module
import CodeGraph.Symbol.Export

namespace CodeGraph.Metadata

open SigType

/-!
# Symbols of a compiled module

A type is known by its row and a member by its token. A symbol is described by the documentation file,
where its identifier stands, and placed by the file of sequence points.
-/

/-- What could not be read of a module is an error of its metadata. -/
def orMetadata {α : Type} : Option α → Except SymbolError α
  | some a => .ok a
  | none => .error .metadata

/-- The lowest three bits of a member's flags tell who may use it; the first three of these are private,
the others can be used from derived types or other modules. -/
def isPrivateAccess (flags : Nat) : Bool :=
  flags % 8 ≤ 2

def isConstructorName (name : String) : Bool :=
  name == ".ctor" || name == ".cctor"

def isStaticFlag (flags : Nat) : Bool :=
  flags / 0x10 % 2 = 1

/-- Flag of names that the runtime gives a meaning to. -/
def isRuntimeName (flags : Nat) : Bool :=
  flags / 0x400 % 2 = 1

def isInterfaceFlag (flags : Nat) : Bool :=
  flags / 0x20 % 2 = 1

def fieldToken (row : Nat) : Nat := (⟨TableId.field, row⟩ : Token).toNat

def methodToken (row : Nat) : Nat := (⟨TableId.method, row⟩ : Token).toNat

def propertyToken (row : Nat) : Nat := (⟨TableId.property, row⟩ : Token).toNat

def eventToken (row : Nat) : Nat := (⟨TableId.event, row⟩ : Token).toNat

/-- The first location of the lowest line. -/
def earliest? : List SourceLocation → Option SourceLocation
  | [] => none
  | l :: more =>
    match earliest? more with
    | some m => some (if m.line < l.line then m else l)
    | none => some l

namespace BinaryModule

variable (m : BinaryModule)

def description? (id : Option String) : Option String := do
  (← m.docs).get? (← id)

def docTypeId? (type : Nat) : Option String :=
  (m.chain? type).map fun (ns, nesting) => Doc.typeId ns nesting

def methodLocation? (row : Nat) : Option SourceLocation := do
  let (path, line) ← (← m.pdb).location? row
  return ⟨path, line⟩

/-- The rows are marked as made up by a compiler, or named so. -/
def isGenerated (token : Nat) (name : String) : Bool :=
  m.generated.contains (.ofNat token) || Name.isGenerated name

/-! ## Types -/

def typeSymbol (row : Nat) : Except SymbolError TypeSymbol := do
  let (ns, nesting) ← orMetadata (m.chain? row)
  let type ← orMetadata (m.image.type? row)
  return {
    id := row, ns, nesting
    declaring := m.enclosing? row
    base := m.typeOf? type.extends_
    interfaces := (m.interfaces.filter (·.1 == row)).map fun (_, t) => m.resolve t 0
    isGenerated := m.generated.contains ⟨TableId.typeDef, row⟩ || nesting.any Name.isGenerated
    description := m.description? (some ("T:" ++ Doc.typeId ns nesting))
    location := earliest? ((m.methodsOf row).filterMap m.methodLocation?) }

/-- The name of the module's own pseudo type, which holds what is in no type. -/
def moduleType : String := "<Module>"

def topLevel : List Nat :=
  (m.image.rows TableId.typeDef).filter fun row =>
    (m.enclosing? row).isNone && match (m.image.type? row).bind fun t => m.image.text? t.name with
      | some name => name != moduleType
      | none => false

/-! ## Members -/

/-- Fields, properties, events and the methods that serve none of them. -/
def members (type : Nat) : List Nat :=
  (m.fieldsOf type).map fieldToken ++ (m.propertiesOf type).map propertyToken ++
    (m.eventsOf type).map eventToken ++
    ((m.methodsOf type).filter fun row => (m.accessorOf? row).isNone).map methodToken

def methodTypesOf? (method : MethodRow) : Option MethodTypes :=
  (m.image.blob? method.signature).bind (methodTypes? m.naming)

/-- The method's body only calls the constructor of the base. -/
def hasTrivialBody (method : MethodRow) : Bool :=
  method.address != 0 && match m.image.body? method.address with
    | some body => Instruction.isTrivial body.code
    | none => false

/-- A constructor as compilers supply it where none is written. -/
def isImplicitCtor (method : MethodRow) (name : String) (params : List TypeRef) : Bool :=
  name == ".ctor" && params.isEmpty && m.hasTrivialBody method

/-- The owner of a row; a row without owner is no member. -/
def ownerOr (owners : Array Nat) (row token : Nat) : Except SymbolError Nat :=
  match ownerOf? owners row with
  | some owner => .ok owner
  | none => .error (.unknownHandle token)

def methodSymbol (row : Nat) : Except SymbolError MemberSymbol := do
  let id := methodToken row
  let owner ← ownerOr m.methodOwners row id
  let method ← orMetadata (m.image.method? row)
  let name ← orMetadata (m.image.text? method.name)
  let types ← orMetadata (m.methodTypesOf? method)
  let docId := (m.docTypeId? owner).map fun owner =>
    "M:" ++ Doc.memberId owner name types.genericCount types.parameters
  return {
    id, declaring := owner, name, kind := .method
    signature := types.parameters.map (·.display)
    parameters := types.parameters
    value := some types.result
    isConstructor := isConstructorName name
    isImplicitCtor := m.isImplicitCtor method name types.parameters
    isPrivate := isPrivateAccess method.flags
    isGenerated := m.isGenerated id name
    description := m.description? docId
    location := m.methodLocation? row }

def fieldTypeOf? (field : FieldRow) : Option TypeRef :=
  (m.image.blob? field.signature).bind (fieldType? m.naming)

def fieldSymbol (row : Nat) : Except SymbolError MemberSymbol := do
  let id := fieldToken row
  let owner ← ownerOr m.fieldOwners row id
  let field ← orMetadata (m.image.field? row)
  let name ← orMetadata (m.image.text? field.name)
  let type ← orMetadata (m.fieldTypeOf? field)
  return {
    id, declaring := owner, name, kind := .field
    signature := [], parameters := []
    value := some type
    isConstructor := false, isImplicitCtor := false
    isPrivate := isPrivateAccess field.flags
    isGenerated := m.isGenerated id name || isRuntimeName field.flags
    description := m.description? ((m.docTypeId? owner).map fun owner => "F:" ++ owner ++ "." ++ name)
    location := none }

/-- What all accessors keep private is private. -/
def accessorsPrivate (token : Nat) : Bool :=
  let rows := m.accessorRows (.ofNat token)
  !rows.isEmpty && rows.all fun row => (m.image.method? row).any fun a => isPrivateAccess a.flags

def accessorsLocation? (token : Nat) : Option SourceLocation :=
  earliest? ((m.accessorRows (.ofNat token)).filterMap m.methodLocation?)

def mappedOr (ranges : List (Nat × RowRange)) (row token : Nat) : Except SymbolError Nat :=
  match mappedOwner? ranges row with
  | some owner => .ok owner
  | none => .error (.unknownHandle token)

def propertyTypesOf? (property : PropertyRow) : Option (TypeRef × List TypeRef) :=
  (m.image.blob? property.signature).bind (propertyTypes? m.naming)

def propertySymbol (row : Nat) : Except SymbolError MemberSymbol := do
  let id := propertyToken row
  let owner ← mappedOr m.properties row id
  let property ← orMetadata (m.image.property? row)
  let name ← orMetadata (m.image.text? property.name)
  let (type, params) ← orMetadata (m.propertyTypesOf? property)
  let docId := (m.docTypeId? owner).map fun owner => "P:" ++ Doc.memberId owner name 0 params
  return {
    id, declaring := owner, name, kind := .property
    signature := params.map (·.display)
    parameters := params
    value := some type
    isConstructor := false, isImplicitCtor := false
    isPrivate := m.accessorsPrivate id
    isGenerated := m.isGenerated id name
    description := m.description? docId
    location := m.accessorsLocation? id }

def eventSymbol (row : Nat) : Except SymbolError MemberSymbol := do
  let id := eventToken row
  let owner ← mappedOr m.events row id
  let event ← orMetadata (m.image.event? row)
  let name ← orMetadata (m.image.text? event.name)
  return {
    id, declaring := owner, name, kind := .event
    signature := [], parameters := []
    value := m.typeOf? event.type
    isConstructor := false, isImplicitCtor := false
    isPrivate := m.accessorsPrivate id
    isGenerated := m.isGenerated id name
    description := m.description? ((m.docTypeId? owner).map fun owner => "E:" ++ owner ++ "." ++ name)
    location := m.accessorsLocation? id }

def memberSymbol (token : Nat) : Except SymbolError MemberSymbol :=
  let t := Token.ofNat token
  if t.table = TableId.method then m.methodSymbol t.row
  else if t.table = TableId.field then m.fieldSymbol t.row
  else if t.table = TableId.property then m.propertySymbol t.row
  else if t.table = TableId.event then m.eventSymbol t.row
  else .error (.unknownHandle token)

def findMethod? (type : Nat) (name : String) : Option Nat :=
  ((m.methodsOf type).find? fun row =>
    ((m.image.method? row).bind fun a => m.image.text? a.name) == some name).map methodToken

/-! ## What other modules see -/

/-- The methods of a type that serve no property or event; one whose signature cannot be read is not
offered. The flag tells whether some constructor without parameters does more than call the base's. -/
def exportedMethods? (type : Nat) : Option (List ExportedMember × Bool) := do
  let rows := (m.methodsOf type).filter fun row => (m.accessorOf? row).isNone
  let methods ← rows.mapM fun row => do
    let method ← m.image.method? row
    return (row, method, ← m.image.text? method.name)
  let typed := methods.filterMap fun (row, method, name) =>
    (m.methodTypesOf? method).map fun types => (row, method, name, types)
  return (typed.map fun (row, method, name, types) =>
      { id := methodToken row, name, kind := .method
        signature := types.parameters.map (·.display)
        value := some (.resolved types.result)
        isConstructor := isConstructorName name
        isStatic := isStaticFlag method.flags
        isExtension := m.extensions.contains ⟨TableId.method, row⟩ },
    typed.any fun (_, method, name, types) =>
      name == ".ctor" && types.parameters.isEmpty && !m.hasTrivialBody method)

def exportedValue (token : Nat) (name : String) (kind : MemberKind) (value : Option TypeRef)
    (isStatic : Bool) : ExportedMember :=
  { id := token, name, kind, signature := [], value := value.map .resolved
    isConstructor := false, isStatic, isExtension := false }

def exportedField? (row : Nat) : Option ExportedMember := do
  let field ← m.image.field? row
  let name ← m.image.text? field.name
  return exportedValue (fieldToken row) name .field (m.fieldTypeOf? field) (isStaticFlag field.flags)

def exportedProperty? (row : Nat) : Option ExportedMember := do
  let property ← m.image.property? row
  let name ← m.image.text? property.name
  return exportedValue (propertyToken row) name .property
    ((m.propertyTypesOf? property).map (·.1)) false

def exportedEvent? (row : Nat) : Option ExportedMember := do
  let event ← m.image.event? row
  let name ← m.image.text? event.name
  return exportedValue (eventToken row) name .event (m.typeOf? event.type) false

/-- A type as others see it, none when some row of it cannot be read. -/
def exportedType? (row : Nat) : Option ExportedType := do
  let (ns, nesting) ← m.chain? row
  let type ← m.image.type? row
  let (methods, hasDefaultCtor) ← m.exportedMethods? row
  let fields ← (m.fieldsOf row).mapM m.exportedField?
  let properties ← (m.propertiesOf row).mapM m.exportedProperty?
  let events ← (m.eventsOf row).mapM m.exportedEvent?
  return {
    id := row, ns, nesting
    base := (m.typeOf? type.extends_).map .resolved
    members := methods ++ fields ++ properties ++ events
    hasDefaultCtor
    isInterface := isInterfaceFlag type.flags }

def exports : Exports :=
  (((m.image.rows TableId.typeDef).filterMap m.exportedType?).filter
    (·.nesting.head? != some moduleType)).foldl
    (fun e t => e.insert (exportKey t.ns t.nesting) t) (.empty m.name)

end BinaryModule

end CodeGraph.Metadata
