import CodeGraph.Json
import CodeGraph.Name.Display

namespace CodeGraph

/-!
# Nodes, links and the items that carry them
-/

inductive NodeKind where
  | solution
  | solutionFolder
  | module
  | namespacePart
  | type
  | member
  | privateMember
  /-- A module outside the input, or the group of such modules. -/
  | external
  deriving DecidableEq, Repr

namespace NodeKind

def all : List NodeKind :=
  [solution, solutionFolder, module, namespacePart, type, member, privateMember, external]

def name : NodeKind → String
  | solution => "solution"
  | solutionFolder => "solution_folder"
  | module => "module"
  | namespacePart => "namespace"
  | type => "type"
  | member => "member"
  | privateMember => "private"
  | external => "external"

def ofName? (s : String) : Option NodeKind :=
  all.find? (·.name == s)

end NodeKind

inductive MemberKind where
  | method
  | field
  | property
  | event
  deriving DecidableEq, Repr, Inhabited

namespace MemberKind

def name : MemberKind → String
  | method => "method"
  | field => "field"
  | property => "property"
  | event => "event"

def ofName? (s : String) : Option MemberKind :=
  [method, field, property, event].find? (·.name == s)

end MemberKind

inductive LinkKind where
  | baseType
  | interface
  | returnType
  | parameterType
  | variableType
  | genericArgument
  | call
  | memberAccess
  | reference
  deriving DecidableEq, Repr

namespace LinkKind

def all : List LinkKind :=
  [baseType, interface, returnType, parameterType, variableType, genericArgument, call, memberAccess,
    reference]

def name : LinkKind → String
  | baseType => "base_type"
  | interface => "interface"
  | returnType => "return_type"
  | parameterType => "parameter_type"
  | variableType => "variable_type"
  | genericArgument => "generic_argument"
  | call => "call"
  | memberAccess => "member_access"
  | reference => "reference"

def ofName? (s : String) : Option LinkKind :=
  all.find? (·.name == s)

end LinkKind

/-- A file and a line in it, the first being line 1. -/
structure SourceLocation where
  path : String
  line : Nat
  deriving DecidableEq, Repr, Inhabited

structure Node where
  /-- Canonical name, unique within one parse. -/
  name : String
  /-- Canonical name of the parent, empty for the root. -/
  parent : String
  kind : NodeKind
  memberKind : Option MemberKind
  description : Option String
  location : Option SourceLocation
  deriving DecidableEq, Repr

namespace Node

def plain (name parent : String) (kind : NodeKind) : Node :=
  ⟨name, parent, kind, none, none, none⟩

def ofMember (name parent : String) (kind : MemberKind) (isPrivate : Bool) : Node :=
  { plain name parent (if isPrivate then .privateMember else .member) with memberKind := some kind }

/-- An empty description is none. -/
def describedAs (n : Node) (description : Option String) : Node :=
  { n with description := description.filter (! ·.isEmpty) }

def locatedAt (n : Node) (location : Option SourceLocation) : Node :=
  { n with location }

def display (n : Node) : String :=
  Name.display (Name.lastSegment n.name)

end Node

structure Link where
  source : String
  target : String
  /-- The kind that the target has, or would have if it were walked. -/
  targetKind : NodeKind
  kind : LinkKind
  deriving DecidableEq, Repr

inductive Item where
  | node (node : Node)
  | link (link : Link)
  deriving DecidableEq, Repr

namespace Item

def node? : Item → Option Node
  | node n => some n
  | link _ => none

def link? : Item → Option Link
  | link l => some l
  | node _ => none

end Item

/-! ## Items as JSON

The fields stand in the order of the structures, and an absent optional field is left out.
-/

def SourceLocation.toJson (l : SourceLocation) : Json :=
  .obj [("path", .str l.path), ("line", .nat l.line)]

namespace Node

def fields (n : Node) : List (String × Json) :=
  [("name", .str n.name), ("parent", .str n.parent), ("kind", .str n.kind.name)] ++
    (n.memberKind.toList.map fun k => ("member_kind", .str k.name)) ++
    (n.description.toList.map fun d => ("description", .str d)) ++
    (n.location.toList.map fun l => ("location", l.toJson))

def toJson (n : Node) : Json :=
  .obj n.fields

end Node

namespace Link

def fields (l : Link) : List (String × Json) :=
  [("source", .str l.source), ("target", .str l.target), ("target_kind", .str l.targetKind.name),
    ("kind", .str l.kind.name)]

def toJson (l : Link) : Json :=
  .obj l.fields

end Link

def Item.toJson : Item → Json
  | .node n => .obj (("item", .str "node") :: n.fields)
  | .link l => .obj (("item", .str "link") :: l.fields)

/-! ## Items from JSON

A record may also be written as the list of its fields in order. Unknown fields are passed over, and
null stands for an absent optional field.
-/

namespace Json

/-- The fields of a record by position and key: `names` are all its keys, of which the first
`needed` may not be left out at the end of a list. -/
def record? (names : List String) (needed : Nat) : Json → Option (String → Option Json)
  | .obj fields => some fun key => fields.lookup key
  | .arr values =>
    if needed ≤ values.length ∧ values.length ≤ names.length then
      some fun key => (names.zip values).lookup key
    else none
  | _ => none

def optional? {α : Type} (read : Json → Option α) : Option Json → Option (Option α)
  | none => some none
  | some .null => some none
  | some v => (read v).map some

def choice? {α : Type} (ofName? : String → Option α) : Json → Option α
  | .str s => ofName? s
  | .obj [(s, .null)] => ofName? s
  | _ => none

end Json

def SourceLocation.ofJson? (j : Json) : Option SourceLocation := do
  let get ← j.record? ["path", "line"] 2
  return ⟨← (← get "path").text?, ← (← get "line").word?⟩

def Node.ofJson? (j : Json) : Option Node := do
  let get ← j.record? ["name", "parent", "kind", "member_kind", "description", "location"] 3
  return {
    name := ← (← get "name").text?
    parent := ← (← get "parent").text?
    kind := ← (← get "kind").choice? NodeKind.ofName?
    memberKind := ← Json.optional? (Json.choice? MemberKind.ofName?) (get "member_kind")
    description := ← Json.optional? Json.text? (get "description")
    location := ← Json.optional? SourceLocation.ofJson? (get "location") }

def Link.ofJson? (j : Json) : Option Link := do
  let get ← j.record? ["source", "target", "target_kind", "kind"] 4
  return {
    source := ← (← get "source").text?
    target := ← (← get "target").text?
    targetKind := ← (← get "target_kind").choice? NodeKind.ofName?
    kind := ← (← get "kind").choice? LinkKind.ofName? }

def Json.tagged? : Json → Option (String × Json)
  | .obj fields => do
    let tag ← (← fields.lookup "item").text?
    return (tag, .obj (fields.filter (·.1 != "item")))
  | .arr (tag :: rest) => do return (← tag.text?, .arr rest)
  | _ => none

def Item.ofJson? (j : Json) : Option Item := do
  match ← j.tagged? with
  | ("node", rest) => return .node (← Node.ofJson? rest)
  | ("link", rest) => return .link (← Link.ofJson? rest)
  | _ => none

end CodeGraph
