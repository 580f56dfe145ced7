import CodeGraph.CSharp.Declared
import CodeGraph.CSharp.Target

namespace CodeGraph.CSharp

/-!
# References of a body

A body is read from its beginning to its end. Locals come into being on the way and stay; what a name
means depends on those that were met before it.
-/

mutual

/-- The functions that are declared in some code, also where that is not read. -/
def Code.functions : Code → List String
  | .literal _ holes => functionsAll holes
  | .parenthesized inner => functions inner
  | .member _ receiver _ _ => functions receiver
  | .optionalMember receiver _ => functions receiver
  | .call function args => functions function ++ functionsEach args
  | .element receiver args => functions receiver ++ functionsEach args
  | .creation _ args initializer => functionsEach args ++ functionsAll initializer
  | .otherConstructor _ args => functionsEach args
  | .assignment left right => functions left ++ functions right
  | .conversion _ value => functions value
  | .awaited value => functions value
  | .lambda _ body => functions body
  | .anonymous _ body => functionsAll body
  | .localFunction n _ body => n :: functionsAll body
  | .declaration _ declared => functionsDeclared declared
  | .foreach _ _ collection body => functions collection ++ functions body
  | .parts codes => functionsAll codes
  | _ => []

def Code.functionsAll : List Code → List String
  | [] => []
  | c :: rest => functions c ++ functionsAll rest

def Code.functionsEach : List (List Code) → List String
  | [] => []
  | l :: rest => functionsAll l ++ functionsEach rest

def Code.functionsDeclared : List (String × Option Code) → List String
  | [] => []
  | (_, some c) :: rest => functions c ++ functionsDeclared rest
  | (_, none) :: rest => functionsDeclared rest

end

/-- The state of reading: the place reached and the references met, the latest first. -/
structure BodyReading where
  place : BodyPlace
  found : List BodyRef

namespace BodyReading

def mentionType (r : BodyReading) (type : Option TypeRef) (usage : TypeUsage) : BodyReading :=
  match type with
  | some t => { r with found := .type t usage :: r.found }
  | none => r

def mentionMember (r : BodyReading) (m : Option MemberRef) (usage : MemberUsage) : BodyReading :=
  match m with
  | some m => { r with found := .member m usage :: r.found }
  | none => r

def declare (r : BodyReading) (name : String) (type : Option TypeRef) : BodyReading :=
  { r with place := r.place.declare name type }

def declareWritten (r : BodyReading) (type : String) (name : Option String) (usage : TypeUsage) :
    BodyReading :=
  let type := r.place.resolve type
  let r := r.mentionType type usage
  match name with
  | some n => r.declare n type
  | none => r

def declareParameters (r : BodyReading) (p : Parameters) : BodyReading :=
  let r := p.ordinary.foldl (fun r q => r.declare q.name (q.type.bind r.place.resolve)) r
  match p.gathering with
  | some n => r.declare n none
  | none => r

/-- A local of a declaration; where no type is written its initializer gives one. -/
def declareLocal (type : Option TypeRef) (r : BodyReading) (declared : String × Option Code) :
    BodyReading :=
  let type := type.or (declared.2.bind fun e => (r.place.target e).value?)
  (r.mentionType type .local).declare declared.1 type

/-- The variable of a loop; where no type is written the collection gives one. -/
def declareElement (r : BodyReading) (type name : Option String) (collection : Code) : BodyReading :=
  let type := (type.bind r.place.resolve).or
    ((r.place.target collection).value?.bind elementType?)
  let r := r.mentionType type .foreach
  match name with
  | some n => r.declare n type
  | none => r

def calledName (r : BodyReading) (name : String) (typeArgs : List String)
    (args : List (List Code)) : Option MemberRef :=
  let b := r.place
  if b.functions.contains name then
    some { MemberRef.plain b.owner name .method with isLocalFunction := true }
  else if b.isLocal name then none
  else
    ((b.implicitMember name (some .method) (some (b.argumentTypes args))).or
      (b.implicitMember name none none)).map fun m =>
        { m with args := typeArgs.filterMap b.resolve }

def calledMember (r : BodyReading) (receiver : Code) (name : String) (typeArgs : List String)
    (args : List (List Code)) : Option MemberRef :=
  let b := r.place
  let receiver := b.target receiver
  let args := b.argumentTypes args
  let own := receiver.receiver?.bind fun owner =>
    (b.findMember owner name (some .method) (some args)).or (b.findMember owner name none none)
  (own.or (receiver.value?.bind fun t => b.extensionCall t name args)).map fun m =>
    { m with args := typeArgs.filterMap b.resolve }

/-- A call mentions what it means; a member that holds a function is only accessed. -/
def mentionCalled (r : BodyReading) (m : Option MemberRef) : BodyReading :=
  r.mentionMember m (if m.any (·.kind == .method) then .call else .access)

/-- The members of a created object that its initializer sets. -/
def mentionInitialized (created : NamedType) (r : BodyReading) : List Code → BodyReading
  | [] => r
  | .assignment (.name n) _ :: rest =>
    mentionInitialized created (r.mentionMember (r.place.findMember created n none none) .access) rest
  | _ :: rest => mentionInitialized created r rest

def created? (r : BodyReading) (type : String) : Option NamedType :=
  match r.place.resolve type with
  | some (.named t) => some t
  | _ => none

/-- The call of another constructor of the type or of one of its base. -/
def mentionOtherConstructor (r : BodyReading) (ofBase : Bool) (args : List (List Code)) : BodyReading :=
  let b := r.place
  let type := if ofBase then b.baseOfOwner else some b.owner
  r.mentionMember (type.bind fun t => b.constructor t (b.argumentTypes args)) .call

def mentionName (r : BodyReading) (name : String) : BodyReading :=
  r.mentionMember (r.place.implicitMember name none none) .access

def mentionAccess (r : BodyReading) (receiver : Code) (name : String) : BodyReading :=
  r.mentionMember (r.place.memberOf (r.place.target receiver) name) .access

/-- Access through a question mark: the receiver counts only as a value. -/
def mentionOptional (r : BodyReading) (receiver : Code) (name : String) : BodyReading :=
  let type := (r.place.target receiver).value?.bind (·.asNamed?)
  r.mentionMember (type.bind fun t => r.place.findMember t name none none) .access

mutual

def read : Code → BodyReading → BodyReading
  | .name n, r => r.mentionName n
  | .literal _ holes, r => readAll holes r
  | .parenthesized inner, r => read inner r
  | .member _ receiver n _, r => read receiver (r.mentionAccess receiver n)
  | .optionalMember receiver n, r => (read receiver r).mentionOptional receiver n
  | .call (.name n) args, r => readEach args (r.mentionCalled (r.calledName n [] args))
  | .call (.genericName _ n typeArgs) args, r =>
    readEach args (r.mentionCalled (r.calledName n typeArgs args))
  | .call (.member _ receiver n typeArgs) args, r =>
    readEach args (read receiver (r.mentionCalled (r.calledMember receiver n typeArgs args)))
  | .call function args, r => readEach args (read function r)
  | .element receiver args, r => readEach args (read receiver r)
  | .creation type args initializer, r =>
    match r.created? type with
    | none => readAll initializer (readEach args r)
    | some t =>
      let r := r.mentionMember (r.place.constructor t (r.place.argumentTypes args)) .creation
      readInitializer initializer (readEach args (mentionInitialized t r initializer))
  | .otherConstructor ofBase args, r => readEach args (r.mentionOtherConstructor ofBase args)
  | .assignment left right, r => read right (read left r)
  | .conversion _ value, r => read value r
  | .awaited value, r => read value r
  | .lambda params body, r => read body (r.declareParameters params)
  | .anonymous params _, r => r.declareParameters params
  | .localFunction _ params body, r => readAll body (r.declareParameters params)
  | .declaration type declared, r =>
    readDeclared declared (declared.foldl (declareLocal (r.place.resolve type)) r)
  | .designation type n, r => r.declareWritten type n .local
  | .foreach type n collection body, r =>
    read body (read collection (r.declareElement type n collection))
  | .caught type n, r => r.declareWritten type n .catch
  | .parts codes, r => readAll codes r
  | _, r => r

def readAll : List Code → BodyReading → BodyReading
  | [], r => r
  | c :: rest, r => readAll rest (read c r)

def readEach : List (List Code) → BodyReading → BodyReading
  | [], r => r
  | l :: rest, r => readEach rest (readAll l r)

def readDeclared : List (String × Option Code) → BodyReading → BodyReading
  | [], r => r
  | (_, some c) :: rest, r => readDeclared rest (read c r)
  | (_, none) :: rest, r => readDeclared rest r

/-- An object's initializer, in which names before an assignment are members of the object. -/
def readInitializer : List Code → BodyReading → BodyReading
  | [], r => r
  | .assignment (.name _) right :: rest, r => readInitializer rest (read right r)
  | c :: rest, r => readInitializer rest (read c r)

end

end BodyReading

def DeclaredMember.references (m : DeclaredMember) (view : Viewpoint) (owner : NamedType) :
    List BodyRef :=
  let locals := if m.kind = .property ∨ m.kind = .event then
      [("value", m.value.bind (view.resolve m.scope))]
    else []
  let start : BodyReading := ⟨⟨view, owner, m.scope, Code.functionsAll m.body, locals⟩, []⟩
  (BodyReading.readAll m.body (start.declareParameters m.parameters)).found.reverse

end CodeGraph.CSharp
