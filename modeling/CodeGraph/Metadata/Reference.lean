import CodeGraph.Metadata.Member
import CodeGraph.Symbol.ModuleView

namespace CodeGraph.Metadata

open CodeGraph.Text SigType

/-!
# References in compiled bodies

A token in a body names a member of the module, a member of another one, or such a member with type
arguments. What lies in the module is referred to by its own definition; an accessor stands for its
property or event.
-/

/-- Prefixes of the names of accessors, and whether the property itself is certain where the type of
the accessor is not known. -/
def accessorPrefixes : List (String × Bool) :=
  [("get_", true), ("set_", true), ("add_", false), ("remove_", false)]

def accessed? (name : String) : Option (String × Bool) :=
  accessorPrefixes.findSome? fun (start, certain) =>
    if startsWith start name then some (.ofList (name.toList.drop start.length), certain) else none

/-- A method of another module as far as the exports tell about it: an accessor becomes its property or
event, and a constructor that nobody wrote is marked. -/
def classifyExternal (index : ExportIndex) (target : MemberRef) : MemberRef :=
  let known := target.declaring.owner.bind fun owner => index.typeIn? owner target.declaring.key
  if target.name = ".ctor" ∧ target.signature = [] then
    { target with isImplicitCtor := known.any (! ·.hasDefaultCtor) }
  else
    match accessed? target.name with
    | none => target
    | some (name, certain) =>
      let kind := match known with
        | some type => ((type.membersNamed name).find? fun m =>
            m.kind == .property || m.kind == .event).map (·.kind)
        | none => if certain then some .property else none
      match kind with
      | some kind => { target with name, kind, signature := [] }
      | none => target

namespace BinaryModule

variable (m : BinaryModule)

/-! ## Members by token -/

def accessorTarget? (a : Accessor) : Option MemberRef := do
  let (owner, name) ←
    if a.owner.table = TableId.property then do
      pure (← mappedOwner? m.properties a.owner.row, (← m.image.property? a.owner.row).name)
    else if a.owner.table = TableId.event then do
      pure (← mappedOwner? m.events a.owner.row, (← m.image.event? a.owner.row).name)
    else none
  let name ← m.image.text? name
  return { MemberRef.plain (← m.localType? owner) name a.kind with handle := some a.owner.toNat }

def methodTarget? (row : Nat) : Option MemberRef :=
  match m.accessorOf? row with
  | some a => m.accessorTarget? a
  | none => do
    let owner ← ownerOf? m.methodOwners row
    let method ← m.image.method? row
    let name ← m.image.text? method.name
    let types ← m.methodTypesOf? method
    return { MemberRef.plain (← m.localType? owner) name .method with
      signature := types.parameters.map (·.display)
      handle := some (methodToken row)
      isConstructor := isConstructorName name
      isImplicitCtor := m.isImplicitCtor method name types.parameters }

def fieldTarget? (row : Nat) : Option MemberRef := do
  let owner ← ownerOf? m.fieldOwners row
  let name ← m.image.text? (← m.image.field? row).name
  return { MemberRef.plain (← m.localType? owner) name .field with handle := some (fieldToken row) }

def localField? (type : Nat) (name : String) : Option Nat :=
  (m.fieldsOf type).find? fun row =>
    ((m.image.field? row).bind fun f => m.image.text? f.name) == some name

def localMethod? (type : Nat) (name : String) (signature : List String) : Option Nat :=
  (m.methodsOf type).find? fun row =>
    match m.image.method? row with
    | none => false
    | some method => m.image.text? method.name == some name &&
      match m.methodTypesOf? method with
      | some types => types.parameters.map (·.display) == signature
      | none => false

/-- A member by name and signature. A type of the module, also one with arguments, is searched for it. -/
def mentionedTarget? (index : ExportIndex) (declaring : NamedType) (name : String) (signature : Bytes) :
    Option MemberRef := do
  if isField signature then
    match declaring.handle.bind fun type => m.localField? type name with
    -- as far as the row fits a token
    | some row => m.fieldTarget? (Token.ofNat (fieldToken row)).row
    | none => some (.plain declaring name .field)
  else
    let types ← methodTypes? m.naming signature
    let displayed := types.parameters.map (·.display)
    match declaring.handle.bind fun type => m.localMethod? type name displayed with
    | some row => do
      let target ← m.methodTarget? (Token.ofNat (methodToken row)).row
      if target.kind = .method then
        return { target with declaring := { target.declaring with args := declaring.args } }
      else return target
    | none =>
      some (classifyExternal index { MemberRef.plain declaring name .method with
        signature := displayed
        isConstructor := isConstructorName name })

def memberRefTarget? (index : ExportIndex) (row : Nat) : Option MemberRef := do
  let r ← m.image.memberRef? row
  if r.owner.table = TableId.method then m.methodTarget? r.owner.row
  else if r.owner.table = TableId.typeDef ∨ r.owner.table = TableId.typeRef ∨
      r.owner.table = TableId.typeSpec then
    match m.resolve r.owner 0 with
    | .named declaring => do
      m.mentionedTarget? index declaring (← m.image.text? r.name) (← m.image.blob? r.signature)
    | _ => none
  else none

def methodSpecTarget? (index : ExportIndex) (row : Nat) : Option MemberRef := do
  match ← m.image.row? TableId.methodSpec row with
  | [method, arguments] =>
    let method := Token.ofNat method
    let target ←
      if method.table = TableId.method then m.methodTarget? method.row
      else if method.table = TableId.memberRef then m.memberRefTarget? index method.row
      else none
    return { target with args := ← methodArguments? m.naming (← m.image.blob? arguments) }
  | _ => none

def memberTarget? (index : ExportIndex) (t : Token) : Option MemberRef :=
  if t.table = TableId.method then m.methodTarget? t.row
  else if t.table = TableId.field then m.fieldTarget? t.row
  else if t.table = TableId.memberRef then m.memberRefTarget? index t.row
  else if t.table = TableId.methodSpec then m.methodSpecTarget? index t.row
  else none

/-! ## Bodies -/

/-- How a member is used: only methods are called. -/
def memberUsage (kind : MemberKind) : Instruction.Usage → MemberUsage
  | .creation => .creation
  | .call => if kind = .method then .call else .access
  | .access => .access

def localTypesOf? (locals : Token) : Option (List TypeRef) :=
  if locals.table = TableId.standAloneSig ∧ locals.row ≠ 0 then do
    let row ← m.image.row? TableId.standAloneSig locals.row
    localTypes? m.naming (← m.image.blob? (← row.head?))
  else some []

/-- What a method's body mentions: its locals, the exceptions it catches, then members in the order of
its instructions. A method without body mentions nothing. -/
def methodReferences? (index : ExportIndex) (row : Nat) : Option (List BodyRef) := do
  let method ← m.image.method? row
  if method.address = 0 then return []
  let body ← m.image.body? method.address
  let locals ← m.localTypesOf? body.locals
  let members := (body.code.filterMap (·.member?)).filterMap fun (t, usage) =>
    (m.memberTarget? index t).map fun target => .member target (memberUsage target.kind usage)
  return locals.map (.type · .local) ++ body.caught.map (fun t => .type (m.resolve t 0) .catch) ++ members

/-- The member has code, its own or that of an accessor. -/
def hasBody (token : Nat) : Bool :=
  let t := Token.ofNat token
  let hasCode := fun row => (m.image.method? row).any (·.address != 0)
  if t.table = TableId.method then hasCode t.row
  else if t.table = TableId.property ∨ t.table = TableId.event then (m.accessorRows t).any hasCode
  else false

/-- What a member's code mentions; an accessor whose code cannot be read does not hide the others. -/
def mentions (index : ExportIndex) (token : Nat) : Except SymbolError (List BodyRef) :=
  let t := Token.ofNat token
  if t.table = TableId.method then orMetadata (m.methodReferences? index t.row)
  else if t.table = TableId.property ∨ t.table = TableId.event then
    .ok ((m.accessorRows t).flatMap fun row => (m.methodReferences? index row).getD [])
  else .ok []

/-- Tokens have 32 bits. -/
def tokenCount : Nat := Nat.pow 2 32

def view : ModuleView :=
  { name := m.name
    references := m.references
    files := m.files
    exports := m.exports
    topLevel := m.topLevel
    nested := m.nestedTypes
    typeSymbol := fun _ => m.typeSymbol
    members := m.members
    memberSymbol := fun _ => m.memberSymbol
    hasBody := m.hasBody
    body := fun index token =>
      if token < tokenCount then m.mentions index token else .error (.unknownHandle token)
    findMethod := m.findMethod?
    -- rows count from 1
    typeCount := m.image.count TableId.typeDef + 1
    memberCount := tokenCount }

end BinaryModule

end CodeGraph.Metadata
