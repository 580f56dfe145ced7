import CodeGraph.CSharp.Outline
import CodeGraph.CSharp.WrittenType
import CodeGraph.Dict
import CodeGraph.Doc.Summary
import CodeGraph.Symbol.Member

namespace CodeGraph.CSharp

open CodeGraph.Text

/-!
# The types and members of a module

The outlines of all files are gathered into one table of types and one of members, which refer to each
other by position. Partial declarations of one type share an entry; each part is read in the scope of
its own file.
-/

structure DeclaredType where
  ns : String
  /-- Raw names from the outermost declaring type down to this one. -/
  nesting : List String
  declaring : Option Nat
  form : TypeForm
  /-- What the type is declared to extend, with the scope of the part that says so. -/
  bases : List (String × Scope)
  scope : Scope
  nested : List Nat
  members : List Nat
  isStatic : Bool
  description : Option String
  location : Option SourceLocation

def DeclaredType.key (t : DeclaredType) : String :=
  exportKey t.ns t.nesting

structure DeclaredMember where
  declaring : Nat
  /-- Raw name: constructors, operators and indexers have names of their own. -/
  name : String
  kind : MemberKind
  /-- Parameter types as written; a reference has `ref` before its type. -/
  params : List String
  value : Option String
  scope : Scope
  isConstructor : Bool
  isStatic : Bool
  isExtension : Bool
  isPrivate : Bool
  parameters : Parameters
  body : List Code
  description : Option String
  location : Option SourceLocation

/-- The body says something, were it only that it is there. -/
def DeclaredMember.hasBody (m : DeclaredMember) : Bool :=
  !m.body.isEmpty

structure Declarations where
  types : Array DeclaredType
  members : Array DeclaredMember
  topLevel : List Nat
  /-- Where the type of a key stands. -/
  byKey : Dict Nat

namespace Declarations

def empty : Declarations :=
  ⟨#[], #[], [], .empty⟩

def find? (d : Declarations) (key : String) : Option Nat :=
  d.byKey.get? key

/-- A member becomes the last of its type. -/
def addMember (d : Declarations) (m : DeclaredMember) : Declarations :=
  { d with
    types := d.types.modify m.declaring fun t => { t with members := t.members ++ [d.members.size] }
    members := d.members.push m }

/-- A type becomes the last of its declaring type or of the top level. -/
def addType (d : Declarations) (t : DeclaredType) : Declarations :=
  let d := { d with byKey := d.byKey.insert t.key d.types.size }
  match t.declaring with
  | some outer =>
    { d with
      types := (d.types.modify outer fun o => { o with nested := o.nested ++ [d.types.size] }).push t }
  | none => { d with types := d.types.push t, topLevel := d.topLevel ++ [d.types.size] }

end Declarations

/-- Bases that another part adds; each text counts once. -/
def mergeBases (bases more : List (String × Scope)) : List (String × Scope) :=
  more.foldl (fun bases b => if bases.any (·.1 == b.1) then bases else bases ++ [b]) bases

def DeclaredType.merge (t part : DeclaredType) : DeclaredType :=
  { t with
    bases := mergeBases t.bases part.bases
    description := t.description.or part.description
    location := t.location.or part.location
    isStatic := t.isStatic || part.isStatic }

def arityName (name : String) (params : List String) : String :=
  if params.isEmpty then name else name ++ "\x60" ++ toString params.length

/-- The description in the comments above a declaration, of which the nearest is first. -/
def describe (above : List String) : Option String :=
  match above.takeWhile fun l => startsWith "///" (trimStart l) with
  | [] => none
  | lines => Doc.summarize (Doc.stripMarkers lines.reverse)

/-- Parameter types as written; one that is passed by reference has `ref` before its type. -/
def paramTexts (p : Parameters) : List String :=
  p.ordinary.filterMap fun q => q.type.map fun t =>
    if q.modifiers.any fun m => m == "ref" || m == "out" || m == "in" then "ref " ++ t else t

structure FilePlace where
  path : String
  withLocations : Bool

def FilePlace.location (f : FilePlace) (row : Nat) : Option SourceLocation :=
  if f.withLocations then some ⟨f.path, row + 1⟩ else none

/-- A member of a type that has only what its own declaration says about itself. -/
def DeclaredMember.plain (name : String) (kind : MemberKind) (scope : Scope) (declaring : Nat) :
    DeclaredMember :=
  { declaring, name, kind, params := [], value := none, scope, isConstructor := false
    isStatic := false, isExtension := false, isPrivate := false, parameters := .none, body := []
    description := none, location := none }

/-- Private is what says so, what implements an interface by name, and what stands in a class, a struct
or a record without a word about access. -/
def isPrivateMember (modifiers : List String) (owner : TypeForm) (byInterface : Bool) : Bool :=
  byInterface || modifiers.contains "private" ||
    (!(modifiers.any fun m => m == "public" || m == "protected" || m == "internal") &&
      (owner == .classType || owner == .structType || owner == .record))

/-- The declared kind and raw name of a member, none when its operator has no name. -/
def OutlineMember.rawName? (m : OutlineMember) : Option (MemberKind × String) :=
  let qualified := fun name => match m.interface with
    | some i => i ++ "." ++ name
    | none => name
  match m.form with
  | .field | .enumMember => some (.field, m.name)
  | .eventField => some (.event, m.name)
  | .event => some (.event, qualified m.name)
  | .property => some (.property, qualified m.name)
  | .indexer => some (.property, qualified "Item")
  | .method => some (.method, qualified m.name)
  | .constructor => some (.method, if isStatic then ".cctor" else ".ctor")
  | .destructor => some (.method, "Finalize")
  | .conversion implicit => some (.method, if implicit then "op_Implicit" else "op_Explicit")
  | .operator symbol =>
    (Name.operatorMethodName symbol (paramTexts m.parameters).length).map (.method, ·)
where
  isStatic : Bool := m.modifiers.contains "static" || m.modifiers.contains "const"

def declaredMember? (f : FilePlace) (m : OutlineMember) (scope : Scope) (owner : Nat) (t : DeclaredType) :
    Option DeclaredMember := do
  let (kind, name) ← m.rawName?
  let isStatic := m.modifiers.contains "static" || m.modifiers.contains "const"
  let isPrivate := isPrivateMember m.modifiers t.form m.interface.isSome
  let base := { DeclaredMember.plain name kind scope owner with
    params := paramTexts m.parameters
    value := m.type
    parameters := m.parameters
    body := m.body
    description := describe m.above
    location := f.location m.row }
  match m.form with
  | .enumMember => return { base with isStatic := true }
  | .destructor => return base
  | .operator _ | .conversion _ => return { base with isStatic := true }
  | .constructor => return { base with isConstructor := true, isPrivate, isStatic }
  | .method =>
    let onFirst := m.parameters.ordinary.head?.any (·.modifiers.contains "this")
    return { base with
      scope := if m.typeParams.isEmpty then scope else scope.withTypeParams m.typeParams
      isPrivate, isStatic
      isExtension := isStatic && t.isStatic && t.declaring.isNone && onFirst }
  | _ => return { base with isPrivate, isStatic }

/-- The constructor that a type's own parameters make; a record also has a property for each. -/
def primaryMembers (f : FilePlace) (t : OutlineType) (params : Parameters) (scope : Scope) (owner : Nat) :
    List DeclaredMember :=
  let properties := if t.form = .record then
      params.ordinary.map fun p =>
        { DeclaredMember.plain p.name .property scope owner with
          value := p.type, location := f.location p.row }
    else []
  properties ++
    [{ DeclaredMember.plain ".ctor" .method scope owner with
       params := paramTexts params, isConstructor := true, location := f.location t.row }]

/-- The namespace and the nesting around a declaration. -/
def Declarations.around (d : Declarations) (scope : Scope) (declaring : Option Nat) : String × List String :=
  match declaring.bind (d.types[·]?) with
  | some outer => (outer.ns, outer.nesting)
  | none => (scope.ns, [])

/-- What one declaration says about its type. -/
def declaredType (f : FilePlace) (t : OutlineType) (scope : Scope) (declaring : Option Nat)
    (d : Declarations) : DeclaredType :=
  let (ns, outer) := d.around scope declaring
  let nesting := outer ++ [arityName t.name t.typeParams]
  let inner := scope.inType (exportKey ns nesting) t.typeParams
  { ns, nesting, declaring, form := t.form
    bases := if t.form = .enum then [] else t.bases.map (·, inner)
    scope := inner, nested := [], members := []
    isStatic := t.modifiers.contains "static"
    description := describe t.above
    location := f.location t.row }

/-- A part joins the type of its key or becomes a type of its own. -/
def Declarations.enter (d : Declarations) (part : DeclaredType) : Declarations × Nat :=
  match d.find? part.key with
  | some id => ({ d with types := d.types.modify id (·.merge part) }, id)
  | none => (d.addType part, d.types.size)

/-- The constructor and the properties that a declaration makes by its own parameters. -/
def primaryMembersOf (f : FilePlace) (t : OutlineType) (scope : Scope) (owner : Nat) :
    List DeclaredMember :=
  match t.parameters with
  | some params => primaryMembers f t params scope owner
  | none => []

/-- A type's declaration is entered; its position and the scope inside it come back. -/
def declareType (f : FilePlace) (t : OutlineType) (scope : Scope) (declaring : Option Nat)
    (d : Declarations) : Declarations × Nat × Scope :=
  let part := declaredType f t scope declaring d
  let (d, id) := d.enter part
  ((primaryMembersOf f t part.scope id).foldl .addMember d, id, part.scope)

def declareMember (f : FilePlace) (m : OutlineMember) (scope : Scope) (owner : Nat) (d : Declarations) :
    Declarations :=
  match (d.types[owner]?).bind (declaredMember? f m scope owner) with
  | some m => d.addMember m
  | none => d

/-- Items that are still to be read, the scope around them and the type that holds them. -/
structure PendingItems where
  items : List OutlineItem
  scope : Scope
  declaring : Option Nat

/-- The declarations of a list of items, without what namespaces and types among them contain: that
comes back, the last first. -/
def survey (f : FilePlace) (declaring : Option Nat) :
    List OutlineItem → Scope → Declarations → List PendingItems → Declarations × List PendingItems
  | [], _, d, pending => (d, pending)
  | .using u :: rest, scope, d, pending =>
    survey f declaring rest (if u.isGlobal then scope else u.apply scope) d pending
  | .fileNamespace name :: rest, scope, d, pending =>
    survey f declaring rest (scope.inNamespace name) d pending
  | .namespacePart name items :: rest, scope, d, pending =>
    survey f declaring rest scope d (⟨items, scope.inNamespace name, none⟩ :: pending)
  | .type t items :: rest, scope, d, pending =>
    let (d, id, inner) := declareType f t scope declaring d
    survey f declaring rest scope d (⟨items, inner, some id⟩ :: pending)
  | .member m :: rest, scope, d, pending =>
    let d := match declaring with
      | some owner => declareMember f m scope owner d
      | none => d
    survey f declaring rest scope d pending

def pendingWeight : List PendingItems → Nat
  | [] => 0
  | p :: rest => 1 + OutlineItem.weightAll p.items + pendingWeight rest

theorem pendingWeight_survey (f : FilePlace) (declaring : Option Nat) (items : List OutlineItem)
    (scope : Scope) (d : Declarations) (pending : List PendingItems) :
    pendingWeight (survey f declaring items scope d pending).2 ≤
      OutlineItem.weightAll items + pendingWeight pending := by
  induction items generalizing scope d pending with
  | nil => simp [survey, OutlineItem.weightAll]
  | cons i rest ih =>
    cases i with
    | namespacePart name items =>
      simp only [survey, OutlineItem.weightAll, OutlineItem.weight]
      have := ih scope d (⟨items, scope.inNamespace name, none⟩ :: pending)
      simp only [pendingWeight] at this
      omega
    | type t items =>
      simp only [survey, OutlineItem.weightAll, OutlineItem.weight]
      refine Nat.le_trans (ih ..) ?_
      simp only [pendingWeight]
      omega
    | _ =>
      simp only [survey, OutlineItem.weightAll, OutlineItem.weight]
      refine Nat.le_trans (ih ..) ?_
      omega

/-- All pending items with all that they contain, the first first. -/
def readPending (f : FilePlace) : List PendingItems → Declarations → Declarations
  | [], d => d
  | p :: rest, d =>
    let next := survey f p.declaring p.items p.scope d rest
    have : pendingWeight next.2 < pendingWeight (p :: rest) := by
      have := pendingWeight_survey f p.declaring p.items p.scope d rest
      simp only [pendingWeight, next]
      omega
    readPending f next.2 next.1
termination_by pending => pendingWeight pending

/-- The scope in which every file begins: global usings hold in all of them. -/
def globalScope (owner : String) (files : List SourceFile) : Scope :=
  (files.flatMap (·.items)).foldl
    (fun scope item => match item with
      | .using u => if u.isGlobal then u.apply scope else scope
      | _ => scope)
    (.outermost owner)

def Declarations.collect (owner : String) (files : List SourceFile) (withLocations : Bool) : Declarations :=
  let scope := globalScope owner files
  files.foldl (fun d file => readPending ⟨file.path, withLocations⟩ [⟨file.items, scope, none⟩] d) .empty

end CodeGraph.CSharp
