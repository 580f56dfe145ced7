import CodeGraph.Metadata.Bytes
import CodeGraph.Symbol.TypeRef

namespace CodeGraph.Metadata

/-!
# Signatures

A signature is read into a tree of element types, and the tree is mapped to the types that members
and bodies mention. Modifiers of a type leave no trace; a pinned type is the type itself.
-/

structure Token where
  table : Nat
  row : Nat
  deriving DecidableEq, Repr

namespace Token

def ofNat (n : Nat) : Token :=
  ⟨n / 0x1000000, n % 0x1000000⟩

def toNat (t : Token) : Nat :=
  t.table * 0x1000000 + t.row

end Token

/-- The tables whose rows are types, by the lowest bits of a compressed token. -/
def typeTables : List Nat :=
  [0x02, 0x01, 0x1B]

inductive SigType where
  /-- A type of the core library. -/
  | core (name : String)
  | token (t : Token)
  | pointer (target : SigType)
  | byRef (target : SigType)
  | array (element : SigType)
  | pinned (type : SigType)
  | typeParam (index : Nat)
  | methodParam (index : Nat)
  | instance (generic : SigType) (arguments : List SigType)
  /-- An element type that no member is declared with. -/
  | other
  deriving Repr, Inhabited

/-- Element types that are whole by themselves, and their names in the core library. -/
def coreElements : List (Nat × String) :=
  [(0x00, "Void"), (0x01, "Void"), (0x02, "Boolean"), (0x03, "Char"), (0x04, "SByte"), (0x05, "Byte"),
    (0x06, "Int16"), (0x07, "UInt16"), (0x08, "Int32"), (0x09, "UInt32"), (0x0A, "Int64"),
    (0x0B, "UInt64"), (0x0C, "Single"), (0x0D, "Double"), (0x0E, "String"), (0x16, "TypedReference"),
    (0x18, "IntPtr"), (0x19, "UIntPtr"), (0x1C, "Object")]

/-- Element types that are read but mean no type. -/
def otherElements : List Nat :=
  [0x21, 0x22, 0x41]

namespace SigType

open ByteReader

def typeToken : ByteReader Token := do
  let n ← compressed
  match typeTables[n % 4]? with
  | some table => return ⟨table, n / 4⟩
  | none => failure

/-- Modifiers in front of a type, at most so many. -/
def modifiers : Nat → ByteReader Unit
  | 0 => return ()
  | more + 1 => do
    let s ← get
    match s with
    | b :: _ =>
      if b = 0x1F ∨ b = 0x20 then
        let _ ← byte
        let _ ← typeToken
        modifiers more
    | [] => return ()

def anyModifiers : ByteReader Unit := do
  modifiers (← get).length

/-- The shape of an array: its rank, the sizes that are given and the lower bounds that are given. -/
def arrayShape : ByteReader Unit := do
  let _ ← compressed
  let sizes ← compressed
  let _ ← times compressed sizes
  let bounds ← compressed
  let _ ← times compressed bounds

def parameterWith (type : ByteReader SigType) : ByteReader SigType := do
  anyModifiers
  if (← peek) = 0x10 then
    let _ ← byte
    return .byRef (← type)
  else type

/-- Parameters up to the mark behind which those of one call stand, which are left out. -/
def parametersWith (type : ByteReader SigType) : Nat → ByteReader (List SigType)
  | 0 => return []
  | n + 1 => do
    if (← peek) = 0x41 then
      let _ ← byte
      let _ ← untilEnd (parameterWith type) (← get).length
      return []
    else
      let p ← parameterWith type
      return p :: (← parametersWith type n)

structure Method where
  hasThis : Bool
  genericCount : Nat
  result : SigType
  parameters : List SigType

def methodWith (type : ByteReader SigType) : ByteReader Method := do
  let convention ← byte
  let genericCount ← if convention / 0x10 % 2 = 1 then compressed else pure 0
  let count ← compressed
  let result ← parameterWith type
  let parameters ← parametersWith type count
  return ⟨convention / 0x20 % 2 = 1, genericCount, result, parameters⟩

/-- A type of at most so much depth. -/
def readUpTo : Nat → ByteReader SigType
  | 0 => failure
  | depth + 1 => do
    let type := readUpTo depth
    let element ← byte
    match coreElements.lookup element with
    | some name => return .core name
    | none =>
      match element with
      | 0x0F => do
        anyModifiers
        return .pointer (← type)
      | 0x10 => return .byRef (← type)
      | 0x11 => return .token (← typeToken)
      | 0x12 => return .token (← typeToken)
      | 0x13 => return .typeParam (← compressed)
      | 0x14 => do
        let element ← type
        arrayShape
        return .array element
      | 0x15 => do
        let kind ← peek
        if kind = 0x11 ∨ kind = 0x12 then
          let generic ← type
          let count ← compressed
          return .instance generic (← times type count)
        else failure
      | 0x1B => do
        let _ ← methodWith type
        return .core "IntPtr"
      | 0x1D => do
        anyModifiers
        return .array (← type)
      | 0x1E => return .methodParam (← compressed)
      | 0x1F => do
        let _ ← typeToken
        return .other
      | 0x20 => do
        let _ ← typeToken
        return .other
      | 0x45 => return .pinned (← type)
      | e => if otherElements.contains e then return .other else failure

def read : ByteReader SigType := do
  readUpTo (← get).length

def readMethod : ByteReader Method :=
  methodWith read

/-- A signature begins with a byte whose low half tells its kind. -/
def head (kind : Nat) : ByteReader Unit := do
  if (← byte) % 0x10 = kind then return () else failure

def readField : ByteReader SigType := do
  head 0x06
  anyModifiers
  read

def readProperty : ByteReader (SigType × List SigType) := do
  head 0x08
  let count ← compressed
  anyModifiers
  let type ← read
  return (type, ← times (parameterWith read) count)

/-- Marks in front of a local's type, at most so many. -/
def localMarks : Nat → ByteReader Unit
  | 0 => return ()
  | more + 1 => do
    anyModifiers
    if (← peek) = 0x45 then
      let _ ← byte
      localMarks more

def readLocal : ByteReader SigType := do
  localMarks (← get).length
  parameterWith read

def readLocals : ByteReader (List SigType) := do
  head 0x07
  let count ← compressed
  times readLocal count

def readMethodArguments : ByteReader (List SigType) := do
  head 0x0A
  let count ← compressed
  times read count

def isField (blob : Bytes) : Bool :=
  blob.head?.any fun b => b.toNat % 0x10 == 0x06

/-! ## Mapping to types -/

def maxDepth : Nat := 64

/-- What tokens and core types mean. A token is followed at a depth. -/
structure Naming where
  resolve : Token → (depth : Nat) → TypeRef
  coreLibrary : String

mutual

/-- The type that a signature's type means; none when it nests too deep or is no type. -/
def toTypeRef (names : Naming) (depth : Nat) : SigType → Option TypeRef
  | .core name =>
    if maxDepth < depth then none
    else some (.named (.simple (some names.coreLibrary) "System" name))
  | .token t => if maxDepth < depth then none else some (names.resolve t (depth + 1))
  | .pointer t =>
    if maxDepth < depth then none else (toTypeRef names (depth + 1) t).map .pointer
  | .byRef t => if maxDepth < depth then none else (toTypeRef names (depth + 1) t).map .byRef
  | .array t => if maxDepth < depth then none else (toTypeRef names (depth + 1) t).map .array
  | .pinned t => if maxDepth < depth then none else toTypeRef names (depth + 1) t
  | .typeParam n => if maxDepth < depth then none else some (.param ("T" ++ toString n))
  | .methodParam n => if maxDepth < depth then none else some (.param ("M" ++ toString n))
  | .instance generic arguments =>
    if maxDepth < depth then none
    else
      match toTypeRef names (depth + 1) generic, allToTypeRef names (depth + 1) arguments with
      | some (.named t), some args => some (.named { t with args })
      | some t, some _ => some t
      | _, _ => none
  | .other => none

def allToTypeRef (names : Naming) (depth : Nat) : List SigType → Option (List TypeRef)
  | [] => some []
  | t :: rest =>
    match toTypeRef names depth t, allToTypeRef names depth rest with
    | some t, some rest => some (t :: rest)
    | _, _ => none

end

/-- The type of a parameter or a local; that it is passed by reference adds no depth. -/
def parameterType (names : Naming) : SigType → Option TypeRef
  | .byRef t => (toTypeRef names 0 t).map .byRef
  | t => toTypeRef names 0 t

structure MethodTypes where
  hasThis : Bool
  genericCount : Nat
  result : TypeRef
  parameters : List TypeRef

def methodTypes? (names : Naming) (blob : Bytes) : Option MethodTypes := do
  let (m, _) ← readMethod blob
  return ⟨m.hasThis, m.genericCount, ← parameterType names m.result, ← m.parameters.mapM (parameterType names)⟩

def fieldType? (names : Naming) (blob : Bytes) : Option TypeRef := do
  let (t, _) ← readField blob
  toTypeRef names 0 t

def propertyTypes? (names : Naming) (blob : Bytes) : Option (TypeRef × List TypeRef) := do
  let ((t, params), _) ← readProperty blob
  return (← toTypeRef names 0 t, ← params.mapM (parameterType names))

def localTypes? (names : Naming) (blob : Bytes) : Option (List TypeRef) := do
  let (l, _) ← readLocals blob
  l.mapM (parameterType names)

def methodArguments? (names : Naming) (blob : Bytes) : Option (List TypeRef) := do
  let (l, _) ← readMethodArguments blob
  allToTypeRef names 0 l

def specType? (names : Naming) (depth : Nat) (blob : Bytes) : Option TypeRef := do
  let (t, _) ← read blob
  toTypeRef names depth t

end SigType

end CodeGraph.Metadata
