import CodeGraph.Walk.Context

namespace CodeGraph

/-!
# What a sink holds

A sink is seen as the nodes and the links that were sent, each in their order. Nodes on demand never
add a link, and the name that a target gets does not depend on what was sent before.
-/

namespace Sink

def nodes (s : Sink) : List Node :=
  s.items.toList.filterMap Item.node?

def links (s : Sink) : List Link :=
  s.items.toList.filterMap Item.link?

def names (s : Sink) : List String :=
  s.nodes.map (·.name)

@[simp] theorem nodes_node (s : Sink) (n : Node) : (s.node n).nodes = s.nodes ++ [n] := by
  simp [nodes, node, Item.node?]

@[simp] theorem links_node (s : Sink) (n : Node) : (s.node n).links = s.links := by
  simp [links, node, Item.link?]

@[simp] theorem onDemand_node (s : Sink) (n : Node) : (s.node n).onDemand = s.onDemand := rfl

@[simp] theorem nodes_link (s : Sink) (l : Link) : (s.link l).nodes = s.nodes := by
  simp [nodes, link, Item.node?]

@[simp] theorem links_link (s : Sink) (l : Link) : (s.link l).links = s.links ++ [l] := by
  simp [links, link, Item.link?]

@[simp] theorem onDemand_link (s : Sink) (l : Link) : (s.link l).onDemand = s.onDemand := rfl

@[simp] theorem nodes_link? (s : Sink) (l : Option Link) : (s.link? l).nodes = s.nodes := by
  cases l <;> simp [link?]

@[simp] theorem links_link? (s : Sink) (l : Option Link) :
    (s.link? l).links = s.links ++ l.toList := by
  cases l <;> simp [link?]

@[simp] theorem onDemand_link? (s : Sink) (l : Option Link) :
    (s.link? l).onDemand = s.onDemand := by
  cases l <;> simp [link?]

theorem demand_of_mem {s : Sink} {n : Node} (h : n.name ∈ s.onDemand) : s.demand n = s := by
  simp [demand, h]

theorem demand_of_notMem {s : Sink} {n : Node} (h : n.name ∉ s.onDemand) :
    s.demand n = { s.node n with onDemand := n.name :: s.onDemand } := by
  simp [demand, h]

theorem links_withOnDemand (s : Sink) (l : List String) :
    links { s with onDemand := l } = s.links :=
  rfl

@[simp] theorem links_demand (s : Sink) (n : Node) : (s.demand n).links = s.links := by
  by_cases h : n.name ∈ s.onDemand
  · rw [demand_of_mem h]
  · rw [demand_of_notMem h, links_withOnDemand, links_node]

@[simp] theorem links_demandModule (s : Sink) (m : Modules) (name : String) :
    (s.demandModule m name).links = s.links := by
  simp [demandModule, demandGroup]

@[simp] theorem links_demandChain (s : Sink) (parent : String) (kind : NodeKind)
    (segments : List String) :
    (s.demandChain parent kind segments).1.links = s.links := by
  induction segments generalizing s parent with
  | nil => rfl
  | cons segment more ih => rw [demandChain, ih, links_demand]

theorem demandChain_snd (s : Sink) (parent : String) (kind : NodeKind) (segments : List String) :
    (s.demandChain parent kind segments).2 = segments.foldl Name.join parent := by
  induction segments generalizing s parent with
  | nil => rfl
  | cons segment more ih => rw [demandChain, ih, List.foldl_cons]

@[simp] theorem links_demandType (s : Sink) (m : Modules) (t : NamedType) :
    (s.demandType m t).links = s.links := by
  cases h : t.owner <;> simp [demandType, h]

@[simp] theorem links_demandMember (s : Sink) (m : Modules) (declaring : NamedType) (name : String)
    (kind : MemberKind) : (s.demandMember m declaring name kind).links = s.links := by
  simp [demandMember]

end Sink

namespace WalkContext

variable (ctx : WalkContext)

/-- The name that a mention of a type links to, none when it is not linked to. -/
def typeLinkName (t : NamedType) : Option String :=
  if t.isGenerated then none else ctx.modules.typeName t

def memberLinkName (target : MemberRef) : Option String :=
  (ctx.modules.typeName target.declaring).map (Name.join · target.segment)

theorem links_demandFor (t : NamedType) {demand : Sink → Sink} (s : Sink)
    (h : ∀ s, (demand s).links = s.links) : (ctx.demandFor t demand s).links = s.links := by
  unfold demandFor
  split
  · exact h s
  · rfl

@[simp] theorem typeTarget_fst (t : NamedType) (s : Sink) :
    (ctx.typeTarget t s).1 = ctx.typeLinkName t := by
  unfold typeTarget typeLinkName
  by_cases hg : t.isGenerated
  · simp [hg]
  · cases hn : ctx.modules.typeName t <;> simp [hg]

@[simp] theorem links_typeTarget (t : NamedType) (s : Sink) :
    (ctx.typeTarget t s).2.links = s.links := by
  unfold typeTarget
  by_cases hg : t.isGenerated
  · simp [hg]
  · cases hn : ctx.modules.typeName t with
    | none => simp [hg]
    | some name =>
        simpa [hg] using ctx.links_demandFor t s fun s => s.links_demandType ctx.modules t

@[simp] theorem memberTarget_fst (target : MemberRef) (s : Sink) :
    (ctx.memberTarget target.declaring target.segment target.kind s).1 =
      ctx.memberLinkName target := by
  unfold memberTarget memberLinkName
  cases hn : ctx.modules.typeName target.declaring <;> simp

@[simp] theorem links_memberTarget (declaring : NamedType) (segment : String) (kind : MemberKind)
    (s : Sink) : (ctx.memberTarget declaring segment kind s).2.links = s.links := by
  unfold memberTarget
  cases hn : ctx.modules.typeName declaring with
  | none => simp
  | some typeName =>
      exact ctx.links_demandFor declaring s fun s =>
        s.links_demandMember ctx.modules declaring _ kind

end WalkContext

end CodeGraph
