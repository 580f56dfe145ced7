import CodeGraph.Proofs.Graph.InStep
import CodeGraph.Proofs.Graph.Tally
import Mathlib.Data.List.Dedup
import Mathlib.Data.List.Perm.Basic

namespace CodeGraph.Graph

/-!
# What a graph holds

Nodes and links are added one by one, in any order. The graph then holds the first node of each name,
and every link once: as an edge when both of its ends had come before it, and as a dangling link
otherwise. The answers of the graph and its statistics are those of the nodes and links that were added.
-/

/-! ## Runs -/

def add (g : Graph) : Item → Graph
  | .node n => g.addNode n
  | .link l => g.addLink l

/-- The graph behind a run of additions. -/
def collect (calls : List Item) : Graph :=
  calls.foldl add empty

def addedNodes (calls : List Item) : List Node :=
  calls.filterMap Item.node?

def addedLinks (calls : List Item) : List Link :=
  calls.filterMap Item.link?

def nodeNames (nodes : List Node) : List String :=
  nodes.map (·.name)

@[simp] theorem addedNodes_node (n : Node) (calls : List Item) :
    addedNodes (.node n :: calls) = n :: addedNodes calls := rfl

@[simp] theorem addedNodes_link (l : Link) (calls : List Item) :
    addedNodes (.link l :: calls) = addedNodes calls := rfl

@[simp] theorem addedLinks_node (n : Node) (calls : List Item) :
    addedLinks (.node n :: calls) = addedLinks calls := rfl

@[simp] theorem addedLinks_link (l : Link) (calls : List Item) :
    addedLinks (.link l :: calls) = l :: addedLinks calls := rfl

theorem collect_concat (calls : List Item) (c : Item) :
    collect (calls ++ [c]) = (collect calls).add c := by
  rw [collect, List.foldl_append]
  rfl

theorem InStep.add {g : Graph} (h : InStep g) (c : Item) : InStep (g.add c) := by
  cases c with
  | node n => exact h.addNode n
  | link l => exact h.addLink l

theorem inStep_collect (calls : List Item) : InStep (collect calls) := by
  induction calls using List.reverseRecOn with
  | nil => exact inStep_empty
  | append_singleton calls c ih =>
      rw [collect_concat]
      exact ih.add c

/-! ## Nodes -/

/-- The nodes that are the first of their name. -/
def firstOfNames : List Node → List Node
  | [] => []
  | n :: more => n :: (firstOfNames more).filter (·.name ≠ n.name)

theorem mem_firstOfNames_names {nodes : List Node} {name : String} :
    name ∈ nodeNames (firstOfNames nodes) ↔ name ∈ nodeNames nodes := by
  induction nodes with
  | nil => rfl
  | cons n nodes ih =>
      rw [nodeNames, List.mem_map] at ih
      by_cases hname : name = n.name
      · simp [firstOfNames, nodeNames, hname]
      · simp only [firstOfNames, nodeNames, List.map_cons, List.mem_cons, hname, false_or, List.mem_map,
          List.mem_filter, decide_eq_true_eq]
        rw [nodeNames, List.mem_map] at ih
        rw [← ih]
        refine exists_congr fun m => ⟨fun h => ⟨h.1.1, h.2⟩, fun h => ⟨⟨h.1, ?_⟩, h.2⟩⟩
        exact fun heq => hname (h.2 ▸ heq)

theorem firstOfNames_names_nodup (nodes : List Node) : (nodeNames (firstOfNames nodes)).Nodup := by
  induction nodes with
  | nil => exact List.nodup_nil
  | cons n nodes ih =>
      rw [firstOfNames, nodeNames, List.map_cons, List.nodup_cons]
      refine ⟨?_, ih.sublist (List.filter_sublist.map _)⟩
      simp

theorem firstOfNames_concat (nodes : List Node) (n : Node) :
    firstOfNames (nodes ++ [n]) =
      if n.name ∈ nodeNames nodes then firstOfNames nodes else firstOfNames nodes ++ [n] := by
  induction nodes with
  | nil => simp [firstOfNames, nodeNames]
  | cons m nodes ih =>
      rw [List.cons_append, firstOfNames, firstOfNames, ih]
      have hcons : n.name ∈ nodeNames (m :: nodes) ↔ n.name = m.name ∨ n.name ∈ nodeNames nodes :=
        List.mem_cons
      by_cases hmem : n.name ∈ nodeNames nodes
      · rw [if_pos hmem, if_pos (hcons.mpr (.inr hmem))]
      · rw [if_neg hmem, List.filter_append]
        by_cases hname : n.name = m.name
        · rw [if_pos (hcons.mpr (.inl hname))]
          simp [hname]
        · rw [if_neg fun h => (hcons.mp h).elim hname hmem]
          simp [hname]

theorem addedNodes_concat (calls : List Item) (c : Item) :
    addedNodes (calls ++ [c]) = addedNodes calls ++ c.node?.toList := by
  rw [addedNodes, List.filterMap_append]
  cases c <;> rfl

theorem nodes_collect (calls : List Item) :
    (collect calls).nodes = firstOfNames (addedNodes calls) := by
  induction calls using List.reverseRecOn with
  | nil => rfl
  | append_singleton calls c ih =>
      have h := inStep_collect calls
      rw [collect_concat, addedNodes_concat]
      cases c with
      | node n =>
          have hknown : n.name ∈ nodeNames (collect calls).nodes ↔ n.name ∈ nodeNames (addedNodes calls) := by
            rw [ih, mem_firstOfNames_names]
          rw [Item.node?, Option.toList_some, firstOfNames_concat, ← ih]
          by_cases hn : n.name ∈ nodeNames (collect calls).nodes
          · rw [if_pos (hknown.mp hn), add, addNode_of_mem h hn]
          · rw [if_neg (hn ∘ hknown.mpr), add, nodes_addNode h hn]
      | link l =>
          rw [Item.node?, Option.toList_none, List.append_nil, ← ih]
          rcases addLink_eq h l with ⟨-, -, i, j, -, -, heq⟩ | ⟨-, heq⟩ <;> rw [add, heq]

theorem mem_names_collect {calls : List Item} {name : String} :
    name ∈ nodeNames (collect calls).nodes ↔ name ∈ nodeNames (addedNodes calls) := by
  rw [nodes_collect, mem_firstOfNames_names]

/-! ## Links -/

/-- The links of a run, each with the names that were known when it came. -/
def arrivals (known : List String) : List Item → List (Link × List String)
  | [] => []
  | .node n :: more => arrivals (known ++ [n.name]) more
  | .link l :: more => (l, known) :: arrivals known more

/-- Both ends of a link were known when it came. -/
def Resolves (arrival : Link × List String) : Prop :=
  arrival.1.source ∈ arrival.2 ∧ arrival.1.target ∈ arrival.2

instance : DecidablePred Resolves :=
  fun _ => inferInstanceAs (Decidable (_ ∧ _))

def resolvedLinks (calls : List Item) : List Link :=
  ((arrivals [] calls).filter (Resolves ·)).map (·.1)

def unresolvedLinks (calls : List Item) : List Link :=
  ((arrivals [] calls).filter (¬ Resolves ·)).map (·.1)

theorem arrivals_concat (known : List String) (calls : List Item) (c : Item) :
    arrivals known (calls ++ [c]) =
      arrivals known calls ++ c.link?.toList.map (·, known ++ nodeNames (addedNodes calls)) := by
  induction calls generalizing known with
  | nil => cases c <;> simp [arrivals, Item.link?, addedNodes, nodeNames]
  | cons d calls ih =>
      cases d with
      | node n => simp [arrivals, ih, nodeNames]
      | link l => simp [arrivals, ih]

theorem map_fst_arrivals (known : List String) (calls : List Item) :
    (arrivals known calls).map (·.1) = addedLinks calls := by
  induction calls generalizing known with
  | nil => rfl
  | cons c calls ih =>
      cases c with
      | node n => exact ih (known ++ [n.name])
      | link l => rw [arrivals, List.map_cons, ih, addedLinks_link]

/-- The edges and the dangling links of a run are told by what was known when they came. -/
theorem links_collect (calls : List Item) :
    (collect calls).edges.map (·.link) = resolvedLinks calls ∧
      (collect calls).dangling = unresolvedLinks calls := by
  induction calls using List.reverseRecOn with
  | nil => exact ⟨rfl, rfl⟩
  | append_singleton calls c ih =>
      obtain ⟨hedges, hdangling⟩ := ih
      rw [collect_concat, resolvedLinks, unresolvedLinks, arrivals_concat, List.filter_append,
        List.filter_append, List.map_append, List.map_append, ← resolvedLinks, ← unresolvedLinks,
        ← hedges, ← hdangling]
      cases c with
      | node n => simp [add, edges_addNode, dangling_addNode, Item.link?]
      | link l =>
          rcases addLink_eq (inStep_collect calls) l with ⟨hs, ht, i, j, -, -, heq⟩ | ⟨hnot, heq⟩
          · have hresolves : Resolves (l, nodeNames (addedNodes calls)) :=
              ⟨mem_names_collect.mp hs, mem_names_collect.mp ht⟩
            rw [add, heq]
            simp [Item.link?, List.filter, hresolves]
          · have hresolves : ¬ Resolves (l, nodeNames (addedNodes calls)) :=
              fun hr => hnot ⟨mem_names_collect.mpr hr.1, mem_names_collect.mpr hr.2⟩
            rw [add, heq]
            simp [Item.link?, List.filter, hresolves]

/-- Every link that was added is held once. -/
theorem links_collect_perm (calls : List Item) :
    ((collect calls).edges.map (·.link) ++ (collect calls).dangling).Perm (addedLinks calls) := by
  obtain ⟨hedges, hdangling⟩ := links_collect calls
  rw [hedges, hdangling, resolvedLinks, unresolvedLinks, ← List.map_append, ← map_fst_arrivals []]
  refine List.Perm.map _ ?_
  simpa using List.filter_append_perm (fun a => decide (Resolves a)) (arrivals [] calls)

/-! ## Conservation -/

/-- What a graph holds behind a run of additions, said by the additions. -/
structure Conserves (calls : List Item) (g : Graph) : Prop where
  nodes : g.nodes = firstOfNames (addedNodes calls)
  children : ∀ parent, parent ≠ "" → g.children parent = g.nodes.filter (·.parent = parent)
  orphans : g.orphans = g.nodes.filter fun n => n.parent ≠ "" ∧ n.parent ∉ nodeNames g.nodes
  edges : g.edges.map (·.link) = resolvedLinks calls
  dangling : g.dangling = unresolvedLinks calls
  once : (g.edges.map (·.link) ++ g.dangling).Perm (addedLinks calls)
  linksFrom : ∀ name, (g.linksFrom name).Perm ((addedLinks calls).filter (·.source = name))
  linksTo : ∀ name, (g.linksTo name).Perm ((g.edges.map (·.link)).filter (·.target = name))
  nodeCount : g.stats.nodes = (nodeNames (addedNodes calls)).dedup.length
  nodeKinds : (g.stats.nodesByKind.map (·.2)).sum = g.stats.nodes
  nodesOfKind : ∀ kind count, (kind, count) ∈ g.stats.nodesByKind ↔
    count = g.nodes.countP (·.kind.name == kind) ∧ 0 < count
  linkCount : g.stats.links = (addedLinks calls).length
  linkKinds : (g.stats.linksByKind.map (·.2)).sum = g.stats.links
  linksOfKind : ∀ kind count, (kind, count) ∈ g.stats.linksByKind ↔
    count = (addedLinks calls).countP (·.kind.name == kind) ∧ 0 < count
  unresolved : g.stats.unresolved = g.dangling.length

theorem InStep.orphans_eq {g : Graph} (h : InStep g) :
    g.orphans = g.nodes.filter fun n => n.parent ≠ "" ∧ n.parent ∉ nodeNames g.nodes := by
  refine List.filter_congr fun n _ => ?_
  rw [Bool.eq_iff_iff, decide_eq_true_eq, Bool.and_eq_true, Bool.not_eq_true', Bool.not_eq_true',
    ← Bool.not_eq_true, ← Bool.not_eq_true, h.contains_iff]
  simp [nodeNames]

theorem InStep.linksFrom_perm {g : Graph} (h : InStep g) (name : String) :
    (g.linksFrom name).Perm ((g.edges.map (·.link) ++ g.dangling).filter (·.source == name)) := by
  rw [h.linksFrom_eq, List.filter_append]
  exact ((List.reverse_perm _).filter _).append_right _

theorem InStep.linksTo_perm {g : Graph} (h : InStep g) (name : String) :
    (g.linksTo name).Perm ((g.edges.map (·.link)).filter (·.target == name)) := by
  rw [h.linksTo_eq]
  exact (List.reverse_perm _).filter _

/-- Nothing that is added is lost or doubled, in whatever order it comes. -/
theorem collect_conserves (calls : List Item) : Conserves calls (collect calls) := by
  have h := inStep_collect calls
  have honce := links_collect_perm calls
  have hcount : (collect calls).nodes.length = (nodeNames (addedNodes calls)).dedup.length := by
    have hperm : (nodeNames (collect calls).nodes).Perm (nodeNames (addedNodes calls)).dedup := by
      rw [nodes_collect]
      refine (List.perm_ext_iff_of_nodup (firstOfNames_names_nodup _) (List.nodup_dedup _)).mpr ?_
      exact fun name => mem_firstOfNames_names.trans List.mem_dedup.symm
    rw [← hperm.length_eq, nodeNames, List.length_map]
  exact {
    nodes := nodes_collect calls
    children := by
      intro parent hparent
      simp [h.children, hparent]
    orphans := h.orphans_eq
    edges := (links_collect calls).1
    dangling := (links_collect calls).2
    once := honce
    linksFrom := fun name => (h.linksFrom_perm name).trans (honce.filter _)
    linksTo := h.linksTo_perm
    nodeCount := hcount
    nodeKinds := by simp [stats, sum_tally]
    nodesOfKind := by
      intro kind count
      rw [stats, mem_tally_iff, List.count, List.countP_map]
      rfl
    linkCount := by simpa [stats] using honce.length_eq
    linkKinds := by simp [stats, sum_tally]
    linksOfKind := by
      intro kind count
      rw [stats, mem_tally_iff, List.count, List.countP_map, honce.countP_eq]
      rfl
    unresolved := rfl }

end CodeGraph.Graph
