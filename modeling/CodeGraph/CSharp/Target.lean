import CodeGraph.CSharp.Code
import CodeGraph.CSharp.Viewpoint

namespace CodeGraph.CSharp

open CodeGraph.Text

/-!
# What expressions denote

Expressions are typed only so far that calls and accesses find their members: through locals, through
the members of the type around them and of its bases, and through names of types.
-/

/-- The number of parameters that are exactly of the type of their argument. -/
def matchCount (signature : List String) (args : List (Option String)) : Nat :=
  (signature.zip args).countP fun (param, arg) => arg == some (trimEndMatches (· == '&') param)

def firstBest {α : Type} (score : α → Nat) : List α → Option α
  | [] => none
  | a :: rest =>
    match firstBest score rest with
    | some b => if score a < score b then some b else some a
    | none => some a

/-- The candidate that a call with such arguments means; an argument's type may be unknown. Of those
with as many parameters the first with the most matching ones is taken, else the first with more
parameters, else the first. -/
def chooseOverload {α : Type} (signature : α → List String) (candidates : List α)
    (args : List (Option String)) : Option α :=
  (firstBest (fun c => matchCount (signature c) args)
      (candidates.filter fun c => (signature c).length == args.length)).or
    ((candidates.find? fun c => args.length < (signature c).length).or candidates.head?)

inductive Target where
  | value (type : TypeRef)
  | static (type : NamedType)
  | unknown

namespace Target

def ofValue : Option TypeRef → Target
  | some t => .value t
  | none => .unknown

def value? : Target → Option TypeRef
  | .value t => some t
  | _ => none

/-- The type whose members may be named behind a dot. -/
def receiver? : Target → Option NamedType
  | .value (.named t) => some t
  | .static t => some t
  | _ => none

end Target

def isDottedName (text : String) : Bool :=
  (splitBy (· == '.') text).all fun part => !part.isEmpty && part.toList.all isWordChar
where
  isWordChar (c : Char) : Bool :=
    isAlphanumeric c || c == '_'

def elementType? : TypeRef → Option TypeRef
  | .array t => some t
  | .named ⟨_, _, _, [t], _⟩ => some t
  | _ => none

def awaitedType? (task : TypeRef) : Option TypeRef := do
  let t ← task.asNamed?
  if t.name = "Task\x601" ∨ t.name = "ValueTask\x601" then t.args.head? else none

/-- The place of a body, and what is known at some point of it. -/
structure BodyPlace where
  view : Viewpoint
  owner : NamedType
  scope : Scope
  /-- Functions declared somewhere in the body. -/
  functions : List String
  /-- Locals with their types as far as known, the latest first. -/
  locals : List (String × Option TypeRef)

namespace BodyPlace

def resolve (b : BodyPlace) (text : String) : Option TypeRef :=
  b.view.resolve b.scope text

def isLocal (b : BodyPlace) (name : String) : Bool :=
  b.locals.any (·.1 == name)

def declare (b : BodyPlace) (name : String) (type : Option TypeRef) : BodyPlace :=
  { b with locals := (name, type) :: b.locals }

/-! ## Members -/

def memberRef (declaring : NamedType) (m : ExportedMember) : MemberRef :=
  { MemberRef.plain declaring m.name m.kind with
    signature := m.signature
    isConstructor := m.isConstructor
    handle := declaring.handle.map fun _ => m.id }

/-- A call's arguments, or none for a name that is not called. -/
abbrev CallArgs :=
  Option (List (Option String))

/-- The member of a type or of its nearest base that has one of that name. -/
def findMember (b : BodyPlace) (owner : NamedType) (name : String) (kind : Option MemberKind)
    (args : CallArgs) : Option MemberRef :=
  (b.view.baseChain owner).findSome? fun (declaring, definition) =>
    let candidates := (definition.membersNamed name).filter fun m =>
      !m.isConstructor && kind.all (· == m.kind)
    let chosen := match args with
      | some args => chooseOverload ExportedMember.signature candidates args
      | none => candidates.head?
    chosen.map (memberRef declaring)

/-- The member that a name without receiver means: one of the type around it, of those that declare
that type, or of a type that is imported for its static members. -/
def implicitMember (b : BodyPlace) (name : String) (kind : Option MemberKind) (args : CallArgs) :
    Option MemberRef :=
  if b.isLocal name || b.functions.contains name then none
  else
    (b.findMember b.owner name kind args).or <|
      ((b.scope.enclosing.drop 1).findSome? fun key =>
        (b.view.find? key).bind fun outer => b.findMember outer name kind args).or <|
      b.scope.staticUsings.findSome? fun using_ =>
        match b.resolve using_ with
        | some (.named t) => b.findMember t name kind args
        | _ => none

/-- The extension method that a call on a value means; the value counts as its first argument. -/
def extensionCall (b : BodyPlace) (receiver : TypeRef) (name : String) (args : List (Option String)) :
    Option MemberRef :=
  (chooseOverload (fun (_, m) => m.signature) (b.view.extensionMethods b.scope name)
    (some receiver.display :: args)).map fun (declaring, m) => memberRef declaring m

/-- The type of a member's value, unless it is a generic parameter. -/
def memberValue (b : BodyPlace) (m : MemberRef) : Option TypeRef :=
  if m.isConstructor then some (.named m.declaring)
  else do
    let definition ← b.view.definition? m.declaring
    let exported ← (definition.membersNamed m.name).find? (·.signature == m.signature)
    match ← b.view.resolveSource (← exported.value) with
    | .param _ => none
    | t => some t

/-- A type's name where an expression stands; a placeholder without owner does not count. -/
def staticTarget (b : BodyPlace) (text : String) : Target :=
  match b.resolve text with
  | some (.named t) => if t.owner.isSome then .static t else .unknown
  | _ => .unknown

def baseOfOwner (b : BodyPlace) : Option NamedType :=
  ((b.view.baseChain b.owner)[1]?).map (·.1)

/-- The constructor that a creation with such arguments calls. A type without constructors has one
without parameters. -/
def constructor (b : BodyPlace) (created : NamedType) (args : List (Option String)) :
    Option MemberRef :=
  let plain := { MemberRef.plain created ".ctor" .method with isConstructor := true }
  match b.view.definition? created with
  | none => if created.owner.isSome then some plain else none
  | some definition =>
    match chooseOverload ExportedMember.signature (definition.constructors.filter (·.name == ".ctor")) args with
    | some ctor => some (memberRef created ctor)
    | none => if args.isEmpty then some { plain with isImplicitCtor := true } else none

/-! ## Expressions -/

/-- A member of what an expression denotes, when that is a type or a value of one. -/
def memberOf (b : BodyPlace) (receiver : Target) (name : String) : Option MemberRef :=
  receiver.receiver?.bind fun owner => b.findMember owner name none none

def methodOf (b : BodyPlace) (receiver : Target) (name : String) (args : List (Option String)) :
    Option MemberRef :=
  let own := receiver.receiver?.bind fun owner => b.findMember owner name (some .method) (some args)
  own.or (receiver.value?.bind fun t => b.extensionCall t name args)

mutual

def target (b : BodyPlace) : Code → Target
  | .name n =>
    match b.locals.lookup n with
    | some type => .ofValue type
    | none =>
      match b.implicitMember n none none with
      | some m => .ofValue (b.memberValue m)
      | none => b.staticTarget n
  | .genericName text _ _ => b.staticTarget text
  | .typeName text => b.staticTarget text
  | .literal type _ => .value (coreType type)
  | .parenthesized inner => target b inner
  | .member text receiver name _ =>
    match b.memberOf (target b receiver) name with
    | some m => .ofValue (b.memberValue m)
    | none => if isDottedName text then b.staticTarget text else .unknown
  | .call (.name n) args =>
    .ofValue ((b.implicitMember n (some .method) (some (argumentTypes b args))).bind b.memberValue)
  | .call (.genericName _ n _) args =>
    .ofValue ((b.implicitMember n (some .method) (some (argumentTypes b args))).bind b.memberValue)
  | .call (.member _ receiver n _) args =>
    .ofValue ((b.methodOf (target b receiver) n (argumentTypes b args)).bind b.memberValue)
  | .creation type _ _ => .ofValue (b.resolve type)
  | .conversion type _ => .ofValue (b.resolve type)
  | .awaited value => .ofValue ((target b value).value?.bind awaitedType?)
  | .element receiver _ =>
    match target b receiver with
    | .value (.array t) => .value t
    | _ => .unknown
  | _ => .unknown

def argumentTypes (b : BodyPlace) : List (List Code) → List (Option String)
  | [] => []
  | argument :: rest => (lastType b argument).map (·.display) :: argumentTypes b rest

/-- The type of the last part of an argument, which is its expression. -/
def lastType (b : BodyPlace) : List Code → Option TypeRef
  | [] => none
  | [value] => (target b value).value?
  | _ :: rest => lastType b rest

end

end BodyPlace

end CodeGraph.CSharp
