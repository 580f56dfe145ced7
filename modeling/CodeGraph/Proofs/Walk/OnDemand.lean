import CodeGraph.Proofs.Walk.Hierarchy

namespace CodeGraph

/-!
# Accounts of the nodes

A walk sends nodes of its own, for the types, namespaces and members of the module, and nodes on
demand. The latter are those that a type or a member in a module outside needs, from the group of all
such modules downward, and each of them is sent with the first target that needs it.
-/

namespace Modules

def chainNodes (kind : NodeKind) (parent : String) : List String → List Node
  | [] => []
  | segment :: more =>
    .plain (Name.join parent segment) parent kind :: chainNodes kind (Name.join parent segment) more

/-- The nodes that a type of a module outside needs, its own the last. -/
def neededNodes (m : Modules) (owner : String) (t : NamedType) : List Node :=
  [.plain m.externalsRoot (Name.parent m.externalsRoot) .external,
    .plain (m.rootOf owner) m.externalsRoot .external] ++
  chainNodes .namespacePart (m.rootOf owner) (Sink.namespaceParts t.ns) ++
  chainNodes .type ((Sink.namespaceParts t.ns).foldl Name.join (m.rootOf owner))
    (t.nesting.map Name.typeSegment)

/-- The module was never opened, and links may lead to it. -/
structure IsOutside (m : Modules) (owner : String) : Prop where
  notOpened : m.isOpened owner = false
  notCovered : m.ignored.covers owner = false

theorem foldl_join_mem_chainNodes (kind : NodeKind) (parent : String) (segments : List String) :
    segments.foldl Name.join parent = parent ∨
      segments.foldl Name.join parent ∈ (chainNodes kind parent segments).map (·.name) := by
  induction segments generalizing parent with
  | nil => exact Or.inl rfl
  | cons segment more ih =>
      rcases ih (Name.join parent segment) with h | h
      · rw [List.foldl_cons, h]
        exact Or.inr List.mem_cons_self
      · exact Or.inr (List.mem_cons_of_mem _ h)

/-- Whether parts are left out of the namespace or not, the path to the type ends in its own node. -/
theorem path_mem_neededNodes (m : Modules) (owner : String) (t : NamedType) :
    (t.nesting.map Name.typeSegment).foldl Name.join
        ((Sink.namespaceParts t.ns).foldl Name.join (m.rootOf owner)) ∈
      (m.neededNodes owner t).map (·.name) := by
  simp only [neededNodes, List.map_append, List.mem_append]
  rcases foldl_join_mem_chainNodes .type ((Sink.namespaceParts t.ns).foldl Name.join (m.rootOf owner))
    (t.nesting.map Name.typeSegment) with h | h
  · rw [h]
    rcases foldl_join_mem_chainNodes .namespacePart (m.rootOf owner) (Sink.namespaceParts t.ns)
      with h | h
    · rw [h]
      exact Or.inl (Or.inl (by simp [Node.plain]))
    · exact Or.inl (Or.inr h)
  · exact Or.inr h

end Modules

namespace Sink

theorem demandChain_fst (s : Sink) (parent : String) (kind : NodeKind) (segments : List String) :
    (s.demandChain parent kind segments).1 =
      (Modules.chainNodes kind parent segments).foldl demand s := by
  induction segments generalizing s parent with
  | nil => rfl
  | cons segment more ih => rw [demandChain, ih, Modules.chainNodes, List.foldl_cons]

theorem demandType_eq (s : Sink) (m : Modules) {t : NamedType} {owner : String}
    (howner : t.owner = some owner) :
    s.demandType m t = (m.neededNodes owner t).foldl demand s := by
  simp only [demandType, howner, demandChain_fst, demandChain_snd, Modules.neededNodes,
    List.foldl_append]
  rfl

end Sink

namespace WalkContext

variable (ctx : WalkContext)

/-- The node is one that a type outside, or a member of such a type, needs. -/
inductive Demanded : Node → Prop
  | type {t : NamedType} {owner : String} {n : Node} (h : ctx.Refers (.type t))
      (howner : t.owner = some owner) (hout : ctx.modules.IsOutside owner)
      (hn : n ∈ ctx.modules.neededNodes owner t) : Demanded n
  | member {target : MemberRef} {owner : String} (h : ctx.Refers (.member target))
      (howner : target.declaring.owner = some owner) (hout : ctx.modules.IsOutside owner) {name : String}
      (hname : ctx.memberLinkName target = some name) :
      Demanded (.ofMember name (Name.parent name) target.kind false)

/-- From one sink to another the walk sent nodes of its own and nodes on demand. -/
structure Sends (own demanded : List Node) (s s' : Sink) : Prop where
  items : s.items.toList <+: s'.items.toList
  nodes : s'.nodes.Perm (s.nodes ++ own ++ demanded)
  onDemand : s'.onDemand = (demanded.map (·.name)).reverse ++ s.onDemand
  nodup : s.onDemand.Nodup → s'.onDemand.Nodup
  demanded : ∀ n ∈ demanded, ctx.Demanded n

variable {ctx} {own own' demanded demanded' : List Node} {s s' s'' : Sink}

namespace Sends

theorem refl (s : Sink) : ctx.Sends [] [] s s :=
  ⟨List.prefix_rfl, by simp, by simp, fun h => h, by simp⟩

theorem trans (h : ctx.Sends own demanded s s') (h' : ctx.Sends own' demanded' s' s'') :
    ctx.Sends (own ++ own') (demanded ++ demanded') s s'' := by
  refine ⟨h.items.trans h'.items, ?_, ?_, fun hnodup => h'.nodup (h.nodup hnodup), ?_⟩
  · have hswap : (demanded ++ own').Perm (own' ++ demanded) := List.perm_append_comm
    have hmiddle : (s.nodes ++ own ++ demanded ++ own' ++ demanded').Perm
        (s.nodes ++ (own ++ own') ++ (demanded ++ demanded')) := by
      simpa [List.append_assoc] using
        ((hswap.append_right demanded').append_left own).append_left s.nodes
    exact (h'.nodes.trans ((h.nodes.append_right own').append_right demanded')).trans hmiddle
  · rw [h'.onDemand, h.onDemand, List.map_append, List.reverse_append, List.append_assoc]
  · intro n hn
    exact (List.mem_append.mp hn).elim (h.demanded n) (h'.demanded n)

theorem node (s : Sink) (n : Node) : ctx.Sends [n] [] s (s.node n) :=
  ⟨by simp [Sink.node], by simp, by simp, fun h => h, by simp⟩

theorem link? (s : Sink) (l : Option Link) : ctx.Sends [] [] s (s.link? l) := by
  refine ⟨?_, by simp, by simp, by simp, by simp⟩
  cases l <;> simp [Sink.link?, Sink.link]

/-- Behind what was sent before stand exactly the new nodes, and links. -/
theorem exists_sent (h : ctx.Sends own demanded s s') :
    ∃ sent, s'.items.toList = s.items.toList ++ sent ∧
      (sent.filterMap Item.node?).Perm (own ++ demanded) := by
  obtain ⟨sent, hsent⟩ := h.items
  have hnodes := h.nodes
  rw [Sink.nodes, ← hsent, List.filterMap_append, List.append_assoc] at hnodes
  exact ⟨sent, hsent.symm, (List.perm_append_left_iff _).mp hnodes⟩

theorem foldl_node (ns : List Node) (s : Sink) : ctx.Sends ns [] s (ns.foldl Sink.node s) := by
  induction ns generalizing s with
  | nil => exact .refl s
  | cons n ns ih => exact (Sends.node s n).trans (ih (s.node n))

theorem onDemand_subset_names (h : ctx.Sends own demanded s s') (hs : s.onDemand ⊆ s.names) :
    s'.onDemand ⊆ s'.names := by
  have hnames : s'.names.Perm (s.names ++ own.map (·.name) ++ demanded.map (·.name)) := by
    simpa [Sink.names] using h.nodes.map (·.name)
  intro name hname
  rw [hnames.mem_iff, List.append_assoc]
  rw [h.onDemand] at hname
  rcases List.mem_append.mp hname with hname | hname
  · exact List.mem_append_right _ (List.mem_append_right _ (List.mem_reverse.mp hname))
  · exact List.mem_append_left _ (hs hname)

/-- Of the nodes that are needed those are sent that were not sent on demand before. -/
theorem foldl_demand {ns : List Node} (hns : ∀ n ∈ ns, ctx.Demanded n) (s : Sink) :
    (∃ demanded, ctx.Sends [] demanded s (ns.foldl Sink.demand s)) ∧
      ∀ n ∈ ns, n.name ∈ (ns.foldl Sink.demand s).onDemand := by
  induction ns generalizing s with
  | nil => exact ⟨⟨[], .refl s⟩, by simp⟩
  | cons n ns ih =>
      obtain ⟨⟨more, hmore⟩, hmem⟩ := ih (fun k hk => hns k (List.mem_cons_of_mem n hk)) (s.demand n)
      have hfirst : (∃ first, ctx.Sends [] first s (s.demand n)) ∧ n.name ∈ (s.demand n).onDemand := by
        by_cases h : n.name ∈ s.onDemand
        · rw [Sink.demand_of_mem h]
          exact ⟨⟨[], .refl s⟩, h⟩
        · rw [Sink.demand_of_notMem h]
          have hnode : ctx.Sends [n] [] s (s.node n) := .node s n
          refine ⟨⟨[n], hnode.items, ?_, rfl, fun hnodup => List.nodup_cons.mpr ⟨h, hnodup⟩, ?_⟩,
            List.mem_cons_self⟩
          · rw [List.append_nil, ← Sink.nodes_node]
            rfl
          · exact fun k hk => List.mem_singleton.mp hk ▸ hns n List.mem_cons_self
      obtain ⟨⟨first, hfirst⟩, hself⟩ := hfirst
      refine ⟨⟨first ++ more, hfirst.trans hmore⟩, ?_⟩
      rintro k (_ | ⟨_, hk⟩)
      · rw [List.foldl_cons, hmore.onDemand]
        exact List.mem_append_right _ hself
      · exact hmem k hk

end Sends

/-! ## Targets -/

/-- A module for which nodes are sent is outside. -/
theorem isOutside_of_typeName {t : NamedType} {name : String}
    (hname : ctx.modules.typeName t = some name) {owner : String} (howner : t.owner = some owner)
    (hopened : ctx.modules.isOpened owner = false) : ctx.modules.IsOutside owner := by
  have hentry : ctx.modules.get? owner = none := Dict.get?_eq_none hopened
  have hignored : ctx.modules.isIgnored owner = false := by
    simp only [Modules.typeName, howner, Option.ite_none_left_eq_some] at hname
    simpa using hname.1
  refine ⟨hopened, ?_⟩
  simpa [Modules.isIgnored, Modules.isInternal, hentry] using hignored

/-- What a target needs is sent when its module is outside, and nothing otherwise. -/
theorem demandFor_sends {t : NamedType} {name : String} (hname : ctx.modules.typeName t = some name)
    {demand : Sink → Sink} {needed : String → List Node}
    (hdemand : ∀ s owner, t.owner = some owner → demand s = (needed owner).foldl Sink.demand s)
    (hneeded : ∀ owner, t.owner = some owner → ctx.modules.IsOutside owner →
      ∀ n ∈ needed owner, ctx.Demanded n) (s : Sink) :
    (∃ demanded, ctx.Sends [] demanded s (ctx.demandFor t demand s)) ∧
      ∀ owner, t.owner = some owner → ctx.modules.isOpened owner = false →
        ∀ n ∈ needed owner, n.name ∈ (ctx.demandFor t demand s).onDemand := by
  unfold demandFor
  split
  · next hany =>
      obtain ⟨owner, howner, hopened⟩ := (Option.any_eq_true _ _).mp hany
      have hout := isOutside_of_typeName hname howner (by simpa using hopened)
      obtain ⟨hsends, hmem⟩ := Sends.foldl_demand (hneeded owner howner hout) s
      rw [hdemand s owner howner]
      refine ⟨hsends, fun other hother _ => ?_⟩
      obtain rfl := Option.some.inj (howner.symm.trans hother)
      exact hmem
  · next hany =>
      refine ⟨⟨[], .refl s⟩, fun owner howner hopened => ?_⟩
      exact absurd (by simp [howner, hopened]) hany

theorem typeTarget_sends {t : NamedType} (hrefers : ctx.Refers (.type t)) (s : Sink) :
    (∃ demanded, ctx.Sends [] demanded s (ctx.typeTarget t s).2) ∧
      ∀ name owner, ctx.typeLinkName t = some name → t.owner = some owner →
        ctx.modules.isOpened owner = false →
        ∀ n ∈ ctx.modules.neededNodes owner t, n.name ∈ (ctx.typeTarget t s).2.onDemand := by
  unfold typeTarget typeLinkName
  split
  · exact ⟨⟨[], .refl s⟩, by simp⟩
  · cases hname : ctx.modules.typeName t with
    | none => exact ⟨⟨[], .refl s⟩, by simp⟩
    | some name =>
        obtain ⟨hsends, hmem⟩ := demandFor_sends hname
          (fun s owner howner => s.demandType_eq ctx.modules howner)
          (fun owner howner hout n hn => Demanded.type hrefers howner hout hn) s
        exact ⟨hsends, fun _ owner _ howner hopened => hmem owner howner hopened⟩

theorem memberTarget_sends {target : MemberRef} (hrefers : ctx.Refers (.member target)) (s : Sink) :
    (∃ demanded, ctx.Sends [] demanded s
        (ctx.memberTarget target.declaring target.segment target.kind s).2) ∧
      ∀ name owner, ctx.memberLinkName target = some name → target.declaring.owner = some owner →
        ctx.modules.isOpened owner = false →
        name ∈ (ctx.memberTarget target.declaring target.segment target.kind s).2.onDemand := by
  unfold memberTarget
  cases hname : ctx.modules.typeName target.declaring with
  | none =>
      have hlink : ctx.memberLinkName target = none := by simp [memberLinkName, hname]
      exact ⟨⟨[], .refl s⟩, by simp [hlink]⟩
  | some typeName =>
      let name := Name.join typeName target.segment
      have hlink : ctx.memberLinkName target = some name := by simp [memberLinkName, hname, name]
      have hdemand : ∀ s owner, target.declaring.owner = some owner →
          s.demandMember ctx.modules target.declaring name target.kind =
            (ctx.modules.neededNodes owner target.declaring ++
              [Node.ofMember name (Name.parent name) target.kind false]).foldl Sink.demand s := by
        intro s owner howner
        rw [Sink.demandMember, Sink.demandType_eq s ctx.modules howner, List.foldl_append]
        rfl
      have hneeded : ∀ owner, target.declaring.owner = some owner → ctx.modules.IsOutside owner →
          ∀ n ∈ ctx.modules.neededNodes owner target.declaring ++
            [Node.ofMember name (Name.parent name) target.kind false], ctx.Demanded n := by
        intro owner howner hout n hn
        rcases List.mem_append.mp hn with hn | hn
        · exact .type hrefers.declaring howner hout hn
        · obtain rfl := List.mem_singleton.mp hn
          exact .member hrefers howner hout hlink
      obtain ⟨hsends, hmem⟩ := demandFor_sends hname hdemand hneeded s
      refine ⟨hsends, fun other owner hother howner hopened => ?_⟩
      obtain rfl := Option.some.inj (hlink.symm.trans hother)
      exact hmem owner howner hopened _ (List.mem_append_right _ List.mem_cons_self)

theorem keeps_sends : ctx.Keeps fun s s' => ∃ demanded, ctx.Sends [] demanded s s' where
  refl s := ⟨[], .refl s⟩
  trans := fun ⟨_, h⟩ ⟨_, h'⟩ => ⟨_, h.trans h'⟩
  link? s l := ⟨[], .link? s l⟩
  type _ s hrefers := (typeTarget_sends hrefers s).1
  member _ s hrefers := (memberTarget_sends hrefers s).1

/-! ## Runs -/

/-- What the walk over the types of a module comes to before the namespaces are sent. -/
def typesMet (ctx : WalkContext) (s : Sink) : TypeWalkState :=
  ctx.walkNested (ctx.view.typeCount + 1) ⟨.empty, .empty, s⟩ (ctx.view.topLevel.map (·, none))

/-- The nodes of namespaces in the order of their names. -/
def namespaceNodes (namespaces : Namespaces) : List Node :=
  (namespaces.entries.mergeSort fun a b => !(b.1 < a.1)).map namespaceNode

theorem sendNamespaces_eq (namespaces : Namespaces) (s : Sink) :
    sendNamespaces namespaces s = (namespaceNodes namespaces).foldl Sink.node s := by
  rw [namespaceNodes, List.foldl_map]
  rfl

theorem sendType_sends (state : TypeWalkState) (declaring : Option String) {id : Nat}
    {symbol : TypeSymbol} (hsymbol : ctx.view.typeSymbol ctx.index id = .ok symbol) :
    ∃ demanded, ctx.Sends [ctx.typeNode (declaring.getD (Name.join ctx.root symbol.ns)) symbol]
      demanded state.sink (ctx.sendType state declaring symbol).sink := by
  obtain ⟨demanded, hlinks⟩ := keeps_sends.links.sendTypeLinks hsymbol
    (ctx.ownTypeName symbol.ns symbol.nesting)
    (state.sink.node (ctx.typeNode (declaring.getD (Name.join ctx.root symbol.ns)) symbol))
  exact ⟨demanded, (Sends.node _ _).trans hlinks⟩

theorem typesMet_sends (s : Sink) :
    ∃ own demanded, ctx.Sends own demanded s (ctx.typesMet s).sink ∧
      own.map (·.name) = (ctx.typesMet s).walk.named.map (·.1) := by
  let P : TypeWalkState → List (Nat × Option String) → Prop := fun state _ =>
    ∃ own demanded, ctx.Sends own demanded s state.sink ∧
      own.map (·.name) = state.walk.named.map (·.1)
  have step : ∀ state id declaring pending result, ctx.TypeMet state id declaring result →
      P state ((id, declaring) :: pending) → P result.1 (result.2 ++ pending) := by
    intro state id declaring pending result hmet h
    cases hmet with
    | unread | madeUp | globalDoc | doc => exact h
    | async symbol => simpa only [P, rememberAsync, named_push_async] using h
    | sent symbol hsymbol =>
        obtain ⟨own, demanded, hsends, hown⟩ := h
        obtain ⟨more, hmore⟩ := sendType_sends state declaring hsymbol
        refine ⟨_, _, hsends.trans hmore, ?_⟩
        simp only [sendType, named_push_sent, List.map_append, hown]
        rfl
  have start : P ⟨.empty, .empty, s⟩ (ctx.view.topLevel.map (·, none)) :=
    ⟨[], [], .refl s, rfl⟩
  obtain ⟨left, h, -⟩ :=
    ctx.walkNested_invariant step (fun _ _ _ h => h) (ctx.view.typeCount + 1) _ _ [] start
  exact h

theorem foldl_sendMember_sends (walk : TypeWalk) {members : List WalkedMember}
    (hmembers : ∀ m ∈ members, ctx.view.memberSymbol ctx.index m.id = .ok m.symbol) (s : Sink) :
    ∃ demanded, ctx.Sends (members.map WalkedMember.node) demanded s
      (members.foldl (fun s m => ctx.sendMember walk m s) s) := by
  induction members generalizing s with
  | nil => exact ⟨[], .refl s⟩
  | cons m members ih =>
      obtain ⟨first, hfirst⟩ := keeps_sends.links.sendMember walk (hmembers m List.mem_cons_self) s
      obtain ⟨more, hmore⟩ :=
        ih (fun k hk => hmembers k (List.mem_cons_of_mem m hk)) (ctx.sendMember walk m s)
      exact ⟨_, ((Sends.node s m.node).trans hfirst).trans hmore⟩

/-- The nodes of one walk: its types, its namespaces, its members, and what targets outside need. -/
theorem walk_sends (s : Sink) :
    ∃ types demanded,
      ctx.Sends (types ++ namespaceNodes (ctx.typesMet s).namespaces ++
        (ctx.walkedMembers (ctx.walkTypes s).1).map WalkedMember.node) demanded s (ctx.walk s) ∧
      types.map (·.name) = (ctx.walkTypes s).1.named.map (·.1) := by
  obtain ⟨types, demanded, htypes, hnames⟩ := ctx.typesMet_sends s
  have hnamespaces : ctx.Sends (namespaceNodes (ctx.typesMet s).namespaces) [] (ctx.typesMet s).sink
      (ctx.walkTypes s).2 := by
    have hsent : ctx.Sends (namespaceNodes (ctx.typesMet s).namespaces) [] (ctx.typesMet s).sink
        ((namespaceNodes (ctx.typesMet s).namespaces).foldl Sink.node (ctx.typesMet s).sink) :=
      .foldl_node _ _
    rwa [← sendNamespaces_eq] at hsent
  have hsymbols : ∀ m ∈ ctx.walkedMembers (ctx.walkTypes s).1,
      ctx.view.memberSymbol ctx.index m.id = .ok m.symbol :=
    fun m hm => ((ctx.mem_walkedMembers_iff _).mp hm).2.1
  obtain ⟨more, hmembers⟩ := foldl_sendMember_sends (ctx.walkTypes s).1 hsymbols (ctx.walkTypes s).2
  rw [← walkMembers_eq] at hmembers
  exact ⟨types, _, (htypes.trans hnamespaces).trans hmembers, hnames⟩

end WalkContext

end CodeGraph
