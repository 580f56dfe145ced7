import CodeGraph.Proofs.Graph.Conserved

namespace CodeGraph.Graph

/-!
# Streams in another order

The graph of a stream takes in the nodes before the links, so that a link is an edge when the stream has
both of its ends, wherever they stand. What the graph answers then depends on the order of the stream only
through the order of the nodes of one name, of which the first is kept.
-/

/-- Two graphs answer alike, except for the order of what they list. -/
structure AnswersAlike (g g' : Graph) : Prop where
  node? : ∀ name, g.node? name = g'.node? name
  children : ∀ name, (g.children name).Perm (g'.children name)
  orphans : g.orphans.Perm g'.orphans
  linksFrom : ∀ name, (g.linksFrom name).Perm (g'.linksFrom name)
  linksTo : ∀ name, (g.linksTo name).Perm (g'.linksTo name)
  dangling : g.dangling.Perm g'.dangling
  stats : g.stats = g'.stats

/-! ## Nodes -/

theorem mem_firstOfNames_iff {nodes : List Node} {n : Node} :
    n ∈ firstOfNames nodes ↔ (nodes.filter (·.name = n.name)).head? = some n := by
  induction nodes with
  | nil => simp [firstOfNames]
  | cons m nodes ih =>
      rw [firstOfNames, List.mem_cons, List.mem_filter, ih]
      by_cases hname : m.name = n.name
      · simp [hname, eq_comm]
      · have hne : n ≠ m := by
          rintro rfl
          exact hname rfl
        simp [hname, Ne.symm hname, hne]

/-- Only the order of the nodes of one name decides which nodes are kept. -/
theorem firstOfNames_perm {nodes nodes' : List Node}
    (h : ∀ name, nodes.filter (·.name = name) = nodes'.filter (·.name = name)) :
    (firstOfNames nodes).Perm (firstOfNames nodes') := by
  have hnodup : ∀ l : List Node, (firstOfNames l).Nodup :=
    fun l => List.Nodup.of_map _ (firstOfNames_names_nodup l)
  refine (List.perm_ext_iff_of_nodup (hnodup nodes) (hnodup nodes')).mpr fun n => ?_
  rw [mem_firstOfNames_iff, mem_firstOfNames_iff, h]

/-- Where no name comes twice, each name has its nodes in one order. -/
theorem filter_name_eq_of_nodup {nodes nodes' : List Node} (h : nodes.Perm nodes')
    (hnodup : (nodeNames nodes).Nodup) (name : String) :
    nodes.filter (·.name = name) = nodes'.filter (·.name = name) := by
  have hperm := h.filter (·.name = name)
  cases hkept : nodes.filter (·.name = name) with
  | nil =>
      rw [hkept] at hperm
      exact hperm.nil_eq
  | cons n more =>
      rw [hkept] at hperm
      have hmore : more = [] := by
        have hsub : (nodeNames (nodes.filter (·.name = name))).Nodup :=
          hnodup.sublist (List.filter_sublist.map _)
        have hall : ∀ m ∈ n :: more, m.name = name := by
          intro m hm
          rw [← hkept] at hm
          simpa using (List.mem_filter.mp hm).2
        rw [hkept, nodeNames, List.map_cons, List.nodup_cons] at hsub
        refine List.eq_nil_iff_forall_not_mem.mpr fun m hm => hsub.1 ?_
        rw [hall n List.mem_cons_self, ← hall m (List.mem_cons_of_mem n hm)]
        exact List.mem_map_of_mem hm
      subst hmore
      exact (List.perm_singleton.mp hperm.symm).symm

/-! ## Links -/

/-- Both ends of a link are among some names. -/
def Joins (names : List String) (l : Link) : Prop :=
  l.source ∈ names ∧ l.target ∈ names

instance (names : List String) : DecidablePred (Joins names) :=
  fun _ => inferInstanceAs (Decidable (_ ∧ _))

theorem joins_congr {names names' : List String} (h : ∀ name, name ∈ names ↔ name ∈ names') (l : Link) :
    Joins names l ↔ Joins names' l :=
  and_congr (h _) (h _)

/-- The nodes of a stream, then its links. -/
def nodesFirst (items : List Item) : List Item :=
  (addedNodes items).map .node ++ (addedLinks items).map .link

theorem ofItems_eq_collect (items : List Item) : ofItems items = collect (nodesFirst items) := by
  rw [collect, nodesFirst, List.foldl_append, List.foldl_map, List.foldl_map]
  rfl

theorem addedNodes_nodesFirst (items : List Item) : addedNodes (nodesFirst items) = addedNodes items := by
  have hnodes : ∀ nodes : List Node, (nodes.map Item.node).filterMap Item.node? = nodes := by
    intro nodes
    simp [List.filterMap_map, Function.comp_def, Item.node?]
  have hlinks : ∀ links : List Link, (links.map Item.link).filterMap Item.node? = [] := by
    intro links
    simp [Item.node?]
  rw [addedNodes, nodesFirst, List.filterMap_append, hnodes, hlinks, List.append_nil]

theorem arrivals_nodesFirst (items : List Item) :
    arrivals [] (nodesFirst items) = (addedLinks items).map (·, nodeNames (addedNodes items)) := by
  have hlinks : ∀ (known : List String) (links : List Link),
      arrivals known (links.map .link) = links.map (·, known) := by
    intro known links
    induction links with
    | nil => rfl
    | cons l links ih => rw [List.map_cons, List.map_cons, arrivals, ih]
  have hnodes : ∀ (known : List String) (nodes : List Node) (more : List Item),
      arrivals known (nodes.map .node ++ more) = arrivals (known ++ nodeNames nodes) more := by
    intro known nodes more
    induction nodes generalizing known with
    | nil => simp [nodeNames]
    | cons n nodes ih => simp [arrivals, ih, nodeNames]
  rw [nodesFirst, hnodes, hlinks, List.nil_append]

/-- Tests that agree keep the same of a list, in whatever order it comes. -/
theorem filter_perm_of_iff {α : Type} {p q : α → Prop} [DecidablePred p] [DecidablePred q]
    {l l' : List α} (h : l.Perm l') (hpq : ∀ a, p a ↔ q a) : (l.filter (p ·)).Perm (l'.filter (q ·)) := by
  have hkept : l'.filter (p ·) = l'.filter (q ·) :=
    List.filter_congr fun a _ => decide_eq_decide.mpr (hpq a)
  rw [← hkept]
  exact h.filter _

/-! ## Graphs of streams -/

theorem inStep_ofItems (items : List Item) : InStep (ofItems items) :=
  ofItems_eq_collect items ▸ inStep_collect _

theorem nodes_ofItems (items : List Item) :
    (ofItems items).nodes = firstOfNames (addedNodes items) := by
  rw [ofItems_eq_collect, nodes_collect, addedNodes_nodesFirst]

/-- The edges are the links between names of the stream. -/
theorem edges_ofItems (items : List Item) :
    (ofItems items).edges.map (·.link) =
      (addedLinks items).filter (Joins (nodeNames (addedNodes items)) ·) := by
  rw [ofItems_eq_collect, (links_collect _).1, resolvedLinks, arrivals_nodesFirst, List.filter_map,
    List.map_map]
  exact List.map_id _

theorem dangling_ofItems (items : List Item) :
    (ofItems items).dangling =
      (addedLinks items).filter (¬ Joins (nodeNames (addedNodes items)) ·) := by
  rw [ofItems_eq_collect, (links_collect _).2, unresolvedLinks, arrivals_nodesFirst, List.filter_map,
    List.map_map]
  exact List.map_id _

section

variable {items items' : List Item}

/-- The graph of a stream answers alike for every order of the stream, as long as the nodes of one name
come in one order. -/
theorem ofItems_answersAlike (h : items.Perm items')
    (hnames : (nodeNames (addedNodes items)).Nodup ∨
      ∀ name, (addedNodes items).filter (·.name = name) = (addedNodes items').filter (·.name = name)) :
    AnswersAlike (ofItems items) (ofItems items') := by
  have hstep := inStep_ofItems items
  have hstep' := inStep_ofItems items'
  have hadded : (addedNodes items).Perm (addedNodes items') := h.filterMap _
  have horder : ∀ name, (addedNodes items).filter (·.name = name) =
      (addedNodes items').filter (·.name = name) :=
    hnames.elim (filter_name_eq_of_nodup hadded) id
  have hnodes : (ofItems items).nodes.Perm (ofItems items').nodes := by
    rw [nodes_ofItems, nodes_ofItems]
    exact firstOfNames_perm horder
  have hlinks : (addedLinks items).Perm (addedLinks items') := h.filterMap _
  have hjoins := joins_congr fun name => (hadded.map (·.name)).mem_iff (a := name)
  have hedges : ((ofItems items).edges.map (·.link)).Perm ((ofItems items').edges.map (·.link)) := by
    rw [edges_ofItems, edges_ofItems]
    exact filter_perm_of_iff hlinks hjoins
  have hdangling : (ofItems items).dangling.Perm (ofItems items').dangling := by
    rw [dangling_ofItems, dangling_ofItems]
    exact filter_perm_of_iff hlinks fun l => not_congr (hjoins l)
  have horphans : (ofItems items).orphans.Perm (ofItems items').orphans := by
    rw [hstep.orphans_eq, hstep'.orphans_eq]
    exact filter_perm_of_iff hnodes fun n => and_congr_right' (not_congr (hnodes.map _).mem_iff)
  exact {
    node? := by
      intro name
      refine Option.ext fun n => ?_
      rw [hstep.node?_eq_some_iff, hstep'.node?_eq_some_iff, hnodes.mem_iff]
    children := by
      intro name
      rw [hstep.children, hstep'.children]
      exact hnodes.filter _
    orphans := horphans
    linksFrom := fun name =>
      (hstep.linksFrom_perm name).trans
        (((hedges.append hdangling).filter _).trans (hstep'.linksFrom_perm name).symm)
    linksTo := fun name =>
      (hstep.linksTo_perm name).trans ((hedges.filter _).trans (hstep'.linksTo_perm name).symm)
    dangling := hdangling
    stats := by
      have hedgeCount := hedges.length_eq
      rw [List.length_map, List.length_map] at hedgeCount
      rw [stats, stats, hnodes.length_eq, hedgeCount, hdangling.length_eq, horphans.length_eq,
        tally_eq_of_perm (hnodes.map _), tally_eq_of_perm ((hedges.append hdangling).map _)] }

end

/-- A stream with two nodes of one name, and links before their ends. -/
def sampleStream : List Item :=
  [.link ⟨"m.A", "m.B", .type, .baseType⟩, .node (.plain "m.A" "m" .type), .node (.plain "m.B" "m.A" .type),
    .link ⟨"m.B", "m.C", .type, .interface⟩, .node (.plain "m.A" "" .namespacePart)]

def sampleReordered : List Item :=
  [.node (.plain "m.B" "m.A" .type), .node (.plain "m.A" "m" .type), .link ⟨"m.B", "m.C", .type, .interface⟩,
    .node (.plain "m.A" "" .namespacePart), .link ⟨"m.A", "m.B", .type, .baseType⟩]

theorem ofItems_answersAlike_sample :
    sampleStream.Perm sampleReordered ∧ ¬ (nodeNames (addedNodes sampleStream)).Nodup ∧
      AnswersAlike (ofItems sampleStream) (ofItems sampleReordered) := by
  have hperm : sampleStream.Perm sampleReordered := by decide
  have horder : ∀ name, (addedNodes sampleStream).filter (·.name = name) =
      (addedNodes sampleReordered).filter (·.name = name) := by
    intro name
    by_cases hA : name = "m.A"
    · subst hA
      decide
    · by_cases hB : name = "m.B"
      · subst hB
        decide
      · simp [sampleStream, sampleReordered, Node.plain, Ne.symm hA, Ne.symm hB]
  exact ⟨hperm, by decide, ofItems_answersAlike hperm (.inr horder)⟩

end CodeGraph.Graph
