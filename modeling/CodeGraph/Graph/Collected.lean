import CodeGraph.Dict
import CodeGraph.Graph.Item

namespace CodeGraph

/-!
# The collected graph

A graph holds the first node of each name, in the order of arrival. A link both of whose ends are
known when it comes is an edge between their positions; every other link dangles. Two indexes lead
from a name to the position of its node, and from a parent to the positions of the nodes below it.
-/

/-- A link between the nodes at two positions. -/
structure Edge where
  source : Nat
  target : Nat
  link : Link
  deriving Repr

structure Graph where
  nodes : List Node
  edges : List Edge
  dangling : List Link
  /-- The position of the node of each name. -/
  positions : Dict Nat
  /-- The positions of the nodes below each parent. -/
  below : Dict (List Nat)
  deriving Repr

namespace Graph

def empty : Graph :=
  ⟨[], [], [], .empty, .empty⟩

def index? (g : Graph) (name : String) : Option Nat :=
  g.positions.get? name

def node? (g : Graph) (name : String) : Option Node :=
  (g.index? name).bind (g.nodes[·]?)

def contains (g : Graph) (name : String) : Bool :=
  g.positions.contains name

/-- A node whose name is taken is left out. A node without parent is below none. -/
def addNode (g : Graph) (n : Node) : Graph :=
  if g.contains n.name then g
  else
    let i := g.nodes.length
    { g with
      nodes := g.nodes ++ [n]
      positions := g.positions.insert n.name i
      below := if n.parent.isEmpty then g.below
        else g.below.insert n.parent ((g.below.get? n.parent).getD [] ++ [i]) }

def addLink (g : Graph) (l : Link) : Graph :=
  match g.index? l.source, g.index? l.target with
  | some i, some j => { g with edges := g.edges ++ [⟨i, j, l⟩] }
  | _, _ => { g with dangling := g.dangling ++ [l] }

/-- The graph of a whole stream, in which links may come before their ends. -/
def ofItems (items : List Item) : Graph :=
  (items.filterMap Item.link?).foldl addLink ((items.filterMap Item.node?).foldl addNode empty)

def children (g : Graph) (name : String) : List Node :=
  ((g.below.get? name).getD []).filterMap (g.nodes[·]?)

/-- The edges that have one of their ends at a name, the last one before the others. -/
def edgesAt (g : Graph) (ofEdge : Edge → Nat) (name : String) : List Link :=
  match g.index? name with
  | some i => (g.edges.reverse.filter (ofEdge · == i)).map (·.link)
  | none => []

/-- The links that leave a name, edges before those that dangle. -/
def linksFrom (g : Graph) (name : String) : List Link :=
  g.edgesAt Edge.source name ++ g.dangling.filter (·.source == name)

def linksTo (g : Graph) (name : String) : List Link :=
  g.edgesAt Edge.target name

/-- Nodes whose parent never came. -/
def orphans (g : Graph) : List Node :=
  g.nodes.filter fun n => !n.parent.isEmpty && !g.contains n.parent

structure Stats where
  nodes : Nat
  links : Nat
  unresolved : Nat
  orphans : Nat
  nodesByKind : List (String × Nat)
  linksByKind : List (String × Nat)
  deriving DecidableEq, Repr

def tally (names : List String) : List (String × Nat) :=
  ((Text.sort names).splitBy (· == ·)).filterMap fun run => run.head?.map (·, run.length)

def stats (g : Graph) : Stats where
  nodes := g.nodes.length
  links := g.edges.length + g.dangling.length
  unresolved := g.dangling.length
  orphans := g.orphans.length
  nodesByKind := tally (g.nodes.map (·.kind.name))
  linksByKind := tally ((g.edges.map (·.link) ++ g.dangling).map (·.kind.name))

namespace Stats

def toJson (s : Stats) : Json :=
  let counts := fun (l : List (String × Nat)) => Json.obj (l.map fun (k, n) => (k, .nat n))
  .obj [("links_by_kind", counts s.linksByKind), ("nodes_by_kind", counts s.nodesByKind),
    ("orphans", .nat s.orphans), ("total_links", .nat s.links), ("total_nodes", .nat s.nodes),
    ("unresolved_links", .nat s.unresolved)]

def report (s : Stats) : String :=
  let counts := fun (l : List (String × Nat)) =>
    String.join (l.map fun (k, n) => "  " ++ k ++ ": " ++ toString n ++ "\n")
  "Nodes: " ++ toString s.nodes ++ "\n" ++ counts s.nodesByKind ++
    "Links: " ++ toString s.links ++ " (" ++ toString s.unresolved ++ " unresolved)\n" ++
    counts s.linksByKind ++
    if s.orphans > 0 then "Orphans: " ++ toString s.orphans ++ "\n" else ""

end Stats

end Graph

end CodeGraph
