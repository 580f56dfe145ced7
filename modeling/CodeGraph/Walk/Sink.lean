import CodeGraph.Graph.Dedup
import CodeGraph.Symbol.Member
import CodeGraph.Walk.Modules

namespace CodeGraph

/-!
# Sent items and nodes on demand

A parse sends items one after the other. Targets in modules that were never opened get their nodes
when the first link needs them; each of their names is sent once in a parse, parents first.
-/

/-- The items sent so far, and the names of the nodes sent on demand. -/
structure Sink where
  items : Array Item
  onDemand : List String
  deriving Repr

namespace Sink

def empty : Sink :=
  ⟨#[], []⟩

def node (s : Sink) (n : Node) : Sink :=
  { s with items := s.items.push (.node n) }

def link (s : Sink) (l : Link) : Sink :=
  { s with items := s.items.push (.link l) }

def link? (s : Sink) : Option Link → Sink
  | some l => s.link l
  | none => s

/-- A node on demand; a name that was sent so is not sent again. -/
def demand (s : Sink) (n : Node) : Sink :=
  if s.onDemand.contains n.name then s
  else { s.node n with onDemand := n.name :: s.onDemand }

def demandGroup (s : Sink) (m : Modules) : Sink :=
  s.demand (.plain m.externalsRoot (Name.parent m.externalsRoot) .external)

def demandModule (s : Sink) (m : Modules) (name : String) : Sink :=
  (s.demandGroup m).demand (.plain (m.rootOf name) m.externalsRoot .external)

def demandChain (s : Sink) (parent : String) (kind : NodeKind) : List String → Sink × String
  | [] => (s, parent)
  | segment :: more =>
    let name := Name.join parent segment
    (s.demand (.plain name parent kind)).demandChain name kind more

def namespaceParts (ns : String) : List String :=
  (Text.splitBy (· == '.') ns).filter (! ·.isEmpty)

/-- A type with its module, its namespace and the types around it. -/
def demandType (s : Sink) (m : Modules) (t : NamedType) : Sink :=
  match t.owner with
  | none => s
  | some owner =>
    let (s, ns) := (s.demandModule m owner).demandChain (m.rootOf owner) .namespacePart (namespaceParts t.ns)
    (s.demandChain ns .type (t.nesting.map Name.typeSegment)).1

def demandMember (s : Sink) (m : Modules) (declaring : NamedType) (name : String) (kind : MemberKind) :
    Sink :=
  (s.demandType m declaring).demand (.ofMember name (Name.parent name) kind false)

end Sink

/-- The links of a module to the modules it mentions, as far as these are opened. -/
def Sink.references (s : Sink) (m : Modules) (root : String) (references : List String) : Nat × Sink :=
  let step := fun ((sent, dedup, s) : Nat × LinkDedup × Sink) reference =>
    match m.get? reference with
    | none => (sent, dedup, s)
    | some entry =>
      if entry.root = root then (sent, dedup, s)
      else
        let (link, dedup) := dedup.link entry.root (if entry.internal then .module else .external) .reference
        (sent + link.toList.length, dedup, s.link? link)
  let (sent, _, s) := references.foldl step (0, .new root, s)
  (sent, s)

end CodeGraph
