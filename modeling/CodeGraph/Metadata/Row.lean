import CodeGraph.Metadata.Image

namespace CodeGraph.Metadata

/-!
# Rows by meaning

The rows that symbols are read from. Names and signatures are offsets in their heaps. A column that
lists rows of another table holds the first of them; the rows go on up to the first row of the next
owner.
-/

namespace TableId

def module : Nat := 0x00
def typeRef : Nat := 0x01
def typeDef : Nat := 0x02
def field : Nat := 0x04
def method : Nat := 0x06
def interfaceImpl : Nat := 0x09
def memberRef : Nat := 0x0A
def customAttribute : Nat := 0x0C
def standAloneSig : Nat := 0x11
def eventMap : Nat := 0x12
def event : Nat := 0x14
def propertyMap : Nat := 0x15
def property : Nat := 0x17
def methodSemantics : Nat := 0x18
def typeSpec : Nat := 0x1B
def assembly : Nat := 0x20
def assemblyRef : Nat := 0x23
def nestedClass : Nat := 0x29
def methodSpec : Nat := 0x2B

end TableId

structure TypeRow where
  flags : Nat
  name : Nat
  ns : Nat
  extends_ : Token
  firstField : Nat
  firstMethod : Nat

structure MethodRow where
  /-- Address of the body, 0 for none. -/
  address : Nat
  flags : Nat
  name : Nat
  signature : Nat

structure FieldRow where
  flags : Nat
  name : Nat
  signature : Nat

structure PropertyRow where
  name : Nat
  signature : Nat

structure EventRow where
  name : Nat
  type : Token

structure TypeRefRow where
  scope : Token
  name : Nat
  ns : Nat

structure MemberRefRow where
  owner : Token
  name : Nat
  signature : Nat

namespace Image

def rows (i : Image) (table : Nat) : List Nat :=
  (List.range (i.count table)).map (· + 1)

def type? (i : Image) (row : Nat) : Option TypeRow := do
  match ← i.row? TableId.typeDef row with
  | [flags, name, ns, base, fields, methods] =>
    some ⟨flags, name, ns, .ofNat base, fields, methods⟩
  | _ => none

def method? (i : Image) (row : Nat) : Option MethodRow := do
  match ← i.row? TableId.method row with
  | [address, _, flags, name, signature, _] => some ⟨address, flags, name, signature⟩
  | _ => none

def field? (i : Image) (row : Nat) : Option FieldRow := do
  match ← i.row? TableId.field row with
  | [flags, name, signature] => some ⟨flags, name, signature⟩
  | _ => none

def property? (i : Image) (row : Nat) : Option PropertyRow := do
  match ← i.row? TableId.property row with
  | [_, name, signature] => some ⟨name, signature⟩
  | _ => none

def event? (i : Image) (row : Nat) : Option EventRow := do
  match ← i.row? TableId.event row with
  | [_, name, type] => some ⟨name, .ofNat type⟩
  | _ => none

def typeRef? (i : Image) (row : Nat) : Option TypeRefRow := do
  match ← i.row? TableId.typeRef row with
  | [scope, name, ns] => some ⟨.ofNat scope, name, ns⟩
  | _ => none

def memberRef? (i : Image) (row : Nat) : Option MemberRefRow := do
  match ← i.row? TableId.memberRef row with
  | [owner, name, signature] => some ⟨.ofNat owner, name, signature⟩
  | _ => none

def assemblyRef? (i : Image) (row : Nat) : Option String := do
  match ← i.row? TableId.assemblyRef row with
  | [_, _, _, _, _, _, name, _, _] => i.text? name
  | _ => none

def assemblyName? (i : Image) : Option String := do
  match ← i.row? TableId.assembly 1 with
  | [_, _, _, _, _, _, _, name, _] => i.text? name
  | _ => none

def moduleName? (i : Image) : Option String := do
  match ← i.row? TableId.module 1 with
  | _ :: name :: _ => i.text? name
  | _ => none

def pair? (i : Image) (table row : Nat) : Option (Nat × Nat) := do
  match ← i.row? table row with
  | [a, b] => some (a, b)
  | _ => none

def pairs? (i : Image) (table : Nat) : Option (List (Nat × Nat)) :=
  (i.rows table).mapM (i.pair? table)

end Image

end CodeGraph.Metadata
