import CodeGraph.CSharp.Body
import CodeGraph.CSharp.Grammar.Declarations
import CodeGraph.Symbol.ModuleView

namespace CodeGraph.CSharp

open CodeGraph.Text

/-!
# Modules read from source files
-/

structure SourceModule where
  name : String
  references : List String
  files : List String
  declarations : Declarations

namespace SourceModule

def ofOutlines (name : String) (references : List String) (files : List SourceFile)
    (withLocations : Bool) : SourceModule :=
  ⟨name, references, files.map (·.path), .collect name files withLocations⟩

def ofTexts (name : String) (references : List String) (texts : List (String × String))
    (withLocations : Bool) : SourceModule :=
  ofOutlines name references (texts.map fun (path, text) => .read path text) withLocations

def signature (m : DeclaredMember) : List String :=
  m.params.map displayText

def exportedMember (id : Nat) (m : DeclaredMember) : ExportedMember :=
  { id, name := m.name, kind := m.kind, signature := signature m
    value := m.value.map fun text => .written text m.scope
    isConstructor := m.isConstructor, isStatic := m.isStatic, isExtension := m.isExtension }

def exportedType (d : Declarations) (id : Nat) (t : DeclaredType) : ExportedType :=
  let members := t.members.filterMap fun m => (d.members[m]?).map (exportedMember m)
  { id, ns := t.ns, nesting := t.nesting
    base := t.bases.head?.map fun (text, scope) => .written text scope
    members
    hasDefaultCtor := members.any fun m => m.name == ".ctor" && m.signature.isEmpty
    isInterface := t.form == .interface }

def exports (s : SourceModule) : Exports :=
  s.declarations.types.toList.zipIdx.foldl
    (fun e (t, id) => e.insert t.key (exportedType s.declarations id t)) (.empty s.name)

/-- Interfaces are named with a capital after an I; this tells them where a base is not known. -/
def looksLikeInterface (name : String) : Bool :=
  match name.toList with
  | 'I' :: c :: _ => isUppercase c
  | _ => false

/-- The bases of a type as far as they can be resolved: the base class, if any, and the interfaces.
Only the first base can be a class. -/
def resolvedBases (v : Viewpoint) (t : DeclaredType) : Option TypeRef × List TypeRef :=
  let resolved := t.bases.zipIdx.filterMap fun ((text, scope), i) =>
    (v.resolve scope text).map (·, i)
  let isInterface := fun (b : TypeRef) => match b.asNamed? with
    | some n => match v.definition? n with
      | some definition => definition.isInterface
      | none => looksLikeInterface n.name
    | none => true
  let isBase := fun (b : TypeRef × Nat) =>
    b.2 == 0 && (t.form == .classType || t.form == .record) && !isInterface b.1
  ((resolved.find? isBase).map (·.1), (resolved.filter (! isBase ·)).map (·.1))

def typeSymbol (v : Viewpoint) (id : Nat) (t : DeclaredType) : TypeSymbol :=
  let (base, interfaces) := resolvedBases v t
  { id, ns := t.ns, nesting := t.nesting, declaring := t.declaring, base, interfaces
    isGenerated := false, description := t.description, location := t.location }

def memberSymbol (v : Viewpoint) (id : Nat) (m : DeclaredMember) : MemberSymbol :=
  { id, declaring := m.declaring, name := m.name, kind := m.kind, signature := signature m
    parameters := m.params.filterMap (v.resolve m.scope)
    value := m.value.bind (v.resolve m.scope)
    isConstructor := m.isConstructor, isImplicitCtor := false, isPrivate := m.isPrivate
    isGenerated := false, description := m.description, location := m.location }

/-- A type of the module where its own bodies mention it. -/
def ownType (s : SourceModule) (id : Nat) (t : DeclaredType) : NamedType :=
  ⟨some s.name, t.ns, t.nesting, [], some id⟩

def body (s : SourceModule) (v : Viewpoint) (id : Nat) : Except SymbolError (List BodyRef) :=
  match s.declarations.members[id]? with
  | none => .error (.unknownHandle id)
  | some m =>
    match s.declarations.types[m.declaring]? with
    | none => .error (.unknownHandle m.declaring)
    | some t => .ok (m.references v (s.ownType m.declaring t))

def view (s : SourceModule) : ModuleView :=
  let d := s.declarations
  let exports := s.exports
  let viewpoint := fun index => (⟨index, exports, s.references⟩ : Viewpoint)
  { name := s.name
    references := s.references
    files := s.files
    exports
    topLevel := d.topLevel
    nested := fun t => ((d.types[t]?).map (·.nested)).getD []
    typeSymbol := fun index id =>
      match d.types[id]? with
      | some t => .ok (typeSymbol (viewpoint index) id t)
      | none => .error (.unknownHandle id)
    members := fun t => ((d.types[t]?).map (·.members)).getD []
    memberSymbol := fun index id =>
      match d.members[id]? with
      | some m => .ok (memberSymbol (viewpoint index) id m)
      | none => .error (.unknownHandle id)
    hasBody := fun m => (d.members[m]?).any (·.hasBody)
    body := fun index id => s.body (viewpoint index) id
    findMethod := fun t name => ((d.types[t]?).map (·.members)).getD [] |>.find? fun m =>
      (d.members[m]?).any fun m => m.kind == .method && m.name == name
    typeCount := d.types.size
    memberCount := d.members.size }

end SourceModule

end CodeGraph.CSharp
