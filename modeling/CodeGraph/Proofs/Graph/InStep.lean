import CodeGraph.Graph.Collected
import Mathlib.Data.List.Basic

namespace CodeGraph.Graph

/-!
# The indexes of a graph

A graph finds its nodes by position: through an index of names, through one of parents, and from the
ends of its edges. However nodes and links come in, all of these stay in step with the list of nodes.
-/

/-- The name of the node at a position. -/
def nameAt? (g : Graph) (i : Nat) : Option String :=
  (g.nodes[i]?).map (·.name)

/-- The indexes and the ends of edges agree with the nodes. -/
structure InStep (g : Graph) : Prop where
  position : ∀ name i, g.index? name = some i ↔ g.nameAt? i = some name
  below_lt : ∀ parent, ∀ i ∈ (g.below.get? parent).getD [], i < g.nodes.length
  children : ∀ parent, g.children parent = g.nodes.filter fun n => n.parent = parent ∧ parent ≠ ""
  source : ∀ e ∈ g.edges, g.nameAt? e.source = some e.link.source
  target : ∀ e ∈ g.edges, g.nameAt? e.target = some e.link.target

theorem inStep_empty : InStep empty where
  position := by simp [index?, nameAt?, empty, Dict.get?_empty]
  below_lt := by simp [empty, Dict.get?_empty]
  children := by simp [Graph.children, empty, Dict.get?_empty]
  source := by simp [empty]
  target := by simp [empty]

theorem exists_nameAt?_iff {g : Graph} {name : String} :
    (∃ i, g.nameAt? i = some name) ↔ name ∈ g.nodes.map (·.name) := by
  constructor
  · rintro ⟨i, hi⟩
    obtain ⟨n, hn, rfl⟩ := Option.map_eq_some_iff.mp hi
    exact List.mem_map_of_mem (List.mem_of_getElem? hn)
  · intro h
    obtain ⟨n, hn, rfl⟩ := List.mem_map.mp h
    obtain ⟨i, hi⟩ := List.mem_iff_getElem?.mp hn
    exact ⟨i, by rw [nameAt?, hi, Option.map_some]⟩

/-! ## Questions -/

section

variable {g : Graph}

theorem InStep.contains_iff (h : InStep g) {name : String} :
    g.contains name = true ↔ name ∈ g.nodes.map (·.name) := by
  rw [contains, ← Dict.isSome_get?, Option.isSome_iff_exists, ← exists_nameAt?_iff]
  exact exists_congr fun i => h.position name i

theorem InStep.index?_eq_none_iff (h : InStep g) {name : String} :
    g.index? name = none ↔ name ∉ g.nodes.map (·.name) := by
  rw [← h.contains_iff, contains, ← Dict.isSome_get?, index?]
  simp

/-- A node is found by its name. -/
theorem InStep.node?_eq_some_iff (h : InStep g) {name : String} {n : Node} :
    g.node? name = some n ↔ n ∈ g.nodes ∧ n.name = name := by
  rw [node?, Option.bind_eq_some_iff]
  constructor
  · rintro ⟨i, hi, hn⟩
    have hname := (h.position name i).mp hi
    rw [nameAt?, hn, Option.map_some] at hname
    exact ⟨List.mem_of_getElem? hn, Option.some.inj hname⟩
  · rintro ⟨hn, rfl⟩
    obtain ⟨i, hi⟩ := List.mem_iff_getElem?.mp hn
    exact ⟨i, (h.position n.name i).mpr (by rw [nameAt?, hi, Option.map_some]), hi⟩

/-- The position of an end tells its name. -/
theorem InStep.edgesAt_eq (h : InStep g) {ofEdge : Edge → Nat} {ofLink : Link → String}
    (hends : ∀ e ∈ g.edges, g.nameAt? (ofEdge e) = some (ofLink e.link)) (name : String) :
    g.edgesAt ofEdge name = (g.edges.map (·.link)).reverse.filter (ofLink · == name) := by
  rw [← List.map_reverse, List.filter_map, edgesAt]
  cases hi : g.index? name with
  | none =>
      have hnone : g.edges.reverse.filter ((ofLink · == name) ∘ (·.link)) = [] := by
        refine List.filter_eq_nil_iff.mpr fun e he => ?_
        have hname : ofLink e.link ∈ g.nodes.map (·.name) :=
          exists_nameAt?_iff.mp ⟨_, hends e (List.mem_reverse.mp he)⟩
        have hne : ofLink e.link ≠ name := fun heq => h.index?_eq_none_iff.mp hi (heq ▸ hname)
        simpa using hne
      rw [hnone, List.map_nil]
  | some i =>
      refine congrArg _ (List.filter_congr fun e he => ?_)
      have hend := hends e (List.mem_reverse.mp he)
      have hname := (h.position name i).mp hi
      have hiff : ofEdge e = i ↔ ofLink e.link = name := by
        constructor
        · rintro rfl
          exact Option.some.inj (hend.symm.trans hname)
        · rintro rfl
          exact Option.some.inj (((h.position _ _).mpr hend).symm.trans hi)
      rw [Function.comp_apply, Bool.eq_iff_iff, beq_iff_eq, beq_iff_eq]
      exact hiff

theorem InStep.linksFrom_eq (h : InStep g) (name : String) :
    g.linksFrom name = (g.edges.map (·.link)).reverse.filter (·.source == name) ++
      g.dangling.filter (·.source == name) := by
  rw [linksFrom, h.edgesAt_eq h.source]

theorem InStep.linksTo_eq (h : InStep g) (name : String) :
    g.linksTo name = (g.edges.map (·.link)).reverse.filter (·.target == name) :=
  h.edgesAt_eq h.target name

end

/-! ## Changes -/

section

variable {g : Graph}

theorem addNode_of_mem (h : InStep g) {n : Node} (hn : n.name ∈ g.nodes.map (·.name)) :
    g.addNode n = g := by
  rw [addNode, if_pos (h.contains_iff.mpr hn)]

theorem nodes_addNode (h : InStep g) {n : Node} (hn : n.name ∉ g.nodes.map (·.name)) :
    (g.addNode n).nodes = g.nodes ++ [n] := by
  rw [addNode, if_neg fun hc => hn (h.contains_iff.mp hc)]

theorem edges_addNode (g : Graph) (n : Node) : (g.addNode n).edges = g.edges := by
  rw [addNode]
  split <;> rfl

theorem dangling_addNode (g : Graph) (n : Node) : (g.addNode n).dangling = g.dangling := by
  rw [addNode]
  split <;> rfl

theorem nameAt?_of_nodes_eq {g' : Graph} {n : Node} (hnodes : g'.nodes = g.nodes ++ [n]) (i : Nat) :
    g'.nameAt? i = if i = g.nodes.length then some n.name else g.nameAt? i := by
  rw [nameAt?, nameAt?, hnodes, List.getElem?_append]
  rcases Nat.lt_trichotomy i g.nodes.length with hi | rfl | hi
  · rw [if_pos hi, if_neg (by omega)]
  · simp
  · have hsub : i - g.nodes.length ≠ 0 := by omega
    rw [if_neg (by omega), if_neg (by omega), List.getElem?_eq_none (by simp; omega),
      List.getElem?_eq_none (by omega)]

theorem nameAt?_length (g : Graph) : g.nameAt? g.nodes.length = none := by
  rw [nameAt?, List.getElem?_eq_none (Nat.le_refl _), Option.map_none]

/-- The positions below a parent, behind a new node. -/
theorem below_addNode (h : InStep g) {n : Node} (hn : n.name ∉ g.nodes.map (·.name)) (parent : String) :
    ((g.addNode n).below.get? parent).getD [] = (g.below.get? parent).getD [] ++
      if n.parent = parent ∧ parent ≠ "" then [g.nodes.length] else [] := by
  rw [addNode, if_neg fun hc => hn (h.contains_iff.mp hc)]
  by_cases hroot : n.parent = ""
  · simp [hroot]
  · by_cases heq : n.parent = parent
    · subst heq
      simp [hroot, Dict.get?_insert]
    · simp [hroot, Dict.get?_insert, heq, Ne.symm heq]

/-- Positions of earlier nodes lead to the same nodes. -/
theorem filterMap_positions_append {positions : List Nat} {nodes : List Node}
    (h : ∀ i ∈ positions, i < nodes.length) (n : Node) :
    positions.filterMap ((nodes ++ [n])[·]?) = positions.filterMap (nodes[·]?) := by
  refine List.filterMap_congr fun i hi => ?_
  rw [List.getElem?_append_left (h i hi)]

theorem InStep.addNode (h : InStep g) (n : Node) : InStep (g.addNode n) := by
  by_cases hn : n.name ∈ g.nodes.map (·.name)
  · rwa [addNode_of_mem h hn]
  have hnodes := nodes_addNode h hn
  have hname := nameAt?_of_nodes_eq hnodes
  have hindex : ∀ name, (g.addNode n).index? name =
      if name = n.name then some g.nodes.length else g.index? name := by
    intro name
    rw [Graph.addNode, if_neg fun hc => hn (h.contains_iff.mp hc), index?, Dict.get?_insert]
    rfl
  have hends : ∀ {i name}, g.nameAt? i = some name → (g.addNode n).nameAt? i = some name := by
    intro i name hi
    have hne : i ≠ g.nodes.length := by
      rintro rfl
      rw [nameAt?_length] at hi
      cases hi
    rw [hname, if_neg hne, hi]
  exact {
    position := by
      intro name i
      rw [hindex, hname]
      by_cases hi : i = g.nodes.length
      · by_cases hnew : name = n.name
        · simp [hi, hnew]
        · have hold : g.index? name ≠ some g.nodes.length := by
            intro hsome
            rw [h.position, nameAt?_length] at hsome
            cases hsome
          simpa [hi, hnew, Ne.symm hnew] using hold
      · by_cases hnew : name = n.name
        · have hold : g.nameAt? i ≠ some n.name := fun hsome => hn (exists_nameAt?_iff.mp ⟨i, hsome⟩)
          simpa [hi, hnew, Ne.symm hi] using hold
        · rw [if_neg hnew, if_neg hi]
          exact h.position name i
    below_lt := by
      intro parent i hi
      rw [below_addNode h hn] at hi
      rw [hnodes, List.length_append, List.length_singleton]
      rcases List.mem_append.mp hi with hi | hi
      · exact Nat.lt_succ_of_lt (h.below_lt parent i hi)
      · split at hi
        · rw [List.mem_singleton.mp hi]
          exact Nat.lt_succ_self _
        · cases hi
    children := by
      intro parent
      rw [Graph.children, hnodes, below_addNode h hn, List.filterMap_append,
        filterMap_positions_append (h.below_lt parent), List.filter_append]
      refine congrArg₂ _ (h.children parent) ?_
      by_cases hbelow : n.parent = parent ∧ parent ≠ ""
      · simp [hbelow]
      · rw [if_neg hbelow, List.filter_singleton, decide_eq_false hbelow]
        rfl
    source := by
      intro e he
      rw [edges_addNode] at he
      exact hends (h.source e he)
    target := by
      intro e he
      rw [edges_addNode] at he
      exact hends (h.target e he) }

/-- A link is an edge when both of its ends are there, and dangles otherwise. -/
theorem addLink_eq (h : InStep g) (l : Link) :
    (l.source ∈ g.nodes.map (·.name) ∧ l.target ∈ g.nodes.map (·.name) ∧
      ∃ i j, g.nameAt? i = some l.source ∧ g.nameAt? j = some l.target ∧
        g.addLink l = { g with edges := g.edges ++ [⟨i, j, l⟩] }) ∨
    (¬ (l.source ∈ g.nodes.map (·.name) ∧ l.target ∈ g.nodes.map (·.name)) ∧
      g.addLink l = { g with dangling := g.dangling ++ [l] }) := by
  cases hi : g.index? l.source with
  | none =>
      have hsource := h.index?_eq_none_iff.mp hi
      exact .inr ⟨fun hboth => hsource hboth.1, by rw [addLink, hi]⟩
  | some i =>
      cases hj : g.index? l.target with
      | none =>
          have htarget := h.index?_eq_none_iff.mp hj
          exact .inr ⟨fun hboth => htarget hboth.2, by rw [addLink, hi, hj]⟩
      | some j =>
          have hsource := (h.position _ _).mp hi
          have htarget := (h.position _ _).mp hj
          exact .inl ⟨exists_nameAt?_iff.mp ⟨i, hsource⟩, exists_nameAt?_iff.mp ⟨j, htarget⟩, i, j,
            hsource, htarget, by rw [addLink, hi, hj]⟩

theorem InStep.addLink (h : InStep g) (l : Link) : InStep (g.addLink l) := by
  rcases addLink_eq h l with ⟨-, -, i, j, hi, hj, heq⟩ | ⟨-, heq⟩
  · rw [heq]
    refine ⟨h.position, h.below_lt, h.children, ?_, ?_⟩
    · intro e he
      rcases List.mem_append.mp he with he | he
      · exact h.source e he
      · obtain rfl := List.mem_singleton.mp he
        exact hi
    · intro e he
      rcases List.mem_append.mp he with he | he
      · exact h.target e he
      · obtain rfl := List.mem_singleton.mp he
        exact hj
  · rw [heq]
    exact ⟨h.position, h.below_lt, h.children, h.source, h.target⟩

end

end CodeGraph.Graph
