import CodeGraph.Proofs.Walk.Hierarchy
import CodeGraph.Proofs.Walk.Scopes

namespace CodeGraph

/-!
# Targets inside the walked module

Names of definitions and names at the places that mention them are built apart from each other. In a
module whose references agree with its definitions both come to the same name, and what a definition
site leaves out is left out at every reference, so that a link into the module always finds its node.
-/

/-! ## Nodes are never taken back -/

namespace Sink

theorem nodes_subset_demand (s : Sink) (n : Node) : s.nodes ⊆ (s.demand n).nodes := by
  by_cases h : n.name ∈ s.onDemand
  · rw [demand_of_mem h]
    exact List.Subset.refl _
  · have hnode : s.nodes ⊆ (s.node n).nodes := by simp
    rw [demand_of_notMem h]
    exact hnode

theorem nodes_subset_demandChain (s : Sink) (parent : String) (kind : NodeKind)
    (segments : List String) :
    s.nodes ⊆ (s.demandChain parent kind segments).1.nodes := by
  induction segments generalizing s parent with
  | nil => exact List.Subset.refl _
  | cons segment more ih => exact List.Subset.trans (s.nodes_subset_demand _) (ih _ _)

theorem nodes_subset_demandType (s : Sink) (m : Modules) (t : NamedType) :
    s.nodes ⊆ (s.demandType m t).nodes := by
  unfold demandType
  cases t.owner with
  | none => exact List.Subset.refl _
  | some owner =>
      have hmodule : s.nodes ⊆ (s.demandModule m owner).nodes :=
        List.Subset.trans (s.nodes_subset_demand _) (nodes_subset_demand _ _)
      have hns := nodes_subset_demandChain (s.demandModule m owner) (m.rootOf owner) .namespacePart
          (namespaceParts t.ns)
      exact List.Subset.trans (List.Subset.trans hmodule hns) (nodes_subset_demandChain _ _ _ _)

end Sink

namespace WalkContext

variable {ctx : WalkContext}

theorem nodes_subset_demandFor (t : NamedType) {demand : Sink → Sink} (s : Sink)
    (h : s.nodes ⊆ (demand s).nodes) : s.nodes ⊆ (ctx.demandFor t demand s).nodes := by
  unfold demandFor
  split
  · exact h
  · exact List.Subset.refl _

theorem keeps_nodes : ctx.Keeps fun s s' => s.nodes ⊆ s'.nodes where
  refl _ := List.Subset.refl _
  trans := List.Subset.trans
  link? s l := by simp
  type t s _ := by
    unfold typeTarget
    split
    · exact List.Subset.refl _
    · split
      · exact List.Subset.refl _
      · have hdemand : s.nodes ⊆ (ctx.demandFor t (·.demandType ctx.modules t) s).nodes :=
          nodes_subset_demandFor t s (s.nodes_subset_demandType ctx.modules t)
        exact hdemand
  member target s _ := by
    unfold memberTarget
    split
    · exact List.Subset.refl _
    · next typeName _ =>
        have hmember : s.nodes ⊆ (s.demandMember ctx.modules target.declaring
            (Name.join typeName target.segment)
            target.kind).nodes :=
          List.Subset.trans (s.nodes_subset_demandType ctx.modules _) (Sink.nodes_subset_demand _ _)
        exact nodes_subset_demandFor target.declaring s hmember

/-! ## Every listed type is met -/

/-- When the type can be read and is neither made up nor the comment of a namespace, it has a node. -/
def Settled (ctx : WalkContext) (walk : TypeWalk) (id : Nat) : Prop :=
  ∀ symbol, ctx.view.typeSymbol ctx.index id = .ok symbol → symbol.isMadeUp = false →
    ¬ symbol.IsNamespaceDoc →
    (ctx.ownTypeName symbol.ns symbol.nesting, symbol) ∈ walk.named

/-- What is listed at the top level or in a type with a node is settled or waits. -/
structure Covered (ctx : WalkContext) (state : TypeWalkState)
    (pending : List (Nat × Option String)) : Prop where
  topLevel : ∀ id ∈ ctx.view.topLevel, ctx.Settled state.walk id ∨ id ∈ pending.map (·.1)
  nested : ∀ type ∈ state.walk.named, ∀ id ∈ ctx.view.nested type.2.id,
    ctx.Settled state.walk id ∨ id ∈ pending.map (·.1)
  readable : ∀ type ∈ state.walk.named, ∃ id, ctx.view.typeSymbol ctx.index id = .ok type.2
  sent : ∀ type ∈ state.walk.named, ∃ n ∈ state.sink.nodes, n.name = type.1 ∧ n.kind = .type

theorem Settled.mono {walk walk' : TypeWalk} {id : Nat} (h : ctx.Settled walk id)
    (hsub : walk.named ⊆ walk'.named) : ctx.Settled walk' id :=
  fun symbol hsymbol hm hd => hsub (h symbol hsymbol hm hd)

/-- A type that is met without being sent is one that needs no node. -/
theorem TypeMet.passed_or_sent {state : TypeWalkState} {id : Nat} {declaring : Option String}
    {result : TypeWalkState × List (Nat × Option String)}
    (hmet : ctx.TypeMet state id declaring result) :
    (result.1.walk.named = state.walk.named ∧ result.1.sink = state.sink ∧
      ctx.Settled state.walk id) ∨
      ∃ symbol, ctx.view.typeSymbol ctx.index id = .ok symbol ∧
        result = (ctx.sendType state declaring symbol,
          (ctx.view.nested id).map (·, some (ctx.ownTypeName symbol.ns symbol.nesting))) := by
  have hsettled : ∀ symbol, ctx.view.typeSymbol ctx.index id = .ok symbol →
      symbol.isMadeUp = true ∨ symbol.IsNamespaceDoc → ctx.Settled state.walk id := by
    intro symbol h hneedless symbol' h' hm hd
    obtain rfl := Except.ok.inj (h.symm.trans h')
    rcases hneedless with hneedless | hneedless
    · rw [hneedless] at hm
      cases hm
    · exact absurd hneedless hd
  cases hmet with
  | unread e h => exact Or.inl ⟨rfl, rfl, fun symbol hsymbol => by rw [h] at hsymbol; cases hsymbol⟩
  | madeUp symbol h hm => exact Or.inl ⟨rfl, rfl, hsettled symbol h (Or.inl hm)⟩
  | async symbol h hm => exact Or.inl ⟨named_push_async _ _ _, rfl, hsettled symbol h (Or.inl hm)⟩
  | globalDoc symbol h _ hd | doc symbol h _ hd =>
      exact Or.inl ⟨rfl, rfl, hsettled symbol h (Or.inr hd)⟩
  | sent symbol h => exact Or.inr ⟨symbol, h, rfl⟩

theorem sendType_kept (state : TypeWalkState) (declaring : Option String) {id : Nat}
    {symbol : TypeSymbol}
    (hsymbol : ctx.view.typeSymbol ctx.index id = .ok symbol) :
    state.sink.nodes ⊆ (ctx.sendType state declaring symbol).sink.nodes ∧
      ∃ n ∈ (ctx.sendType state declaring symbol).sink.nodes,
        n.name = ctx.ownTypeName symbol.ns symbol.nesting ∧ n.kind = .type := by
  have hlinks := keeps_nodes.links.sendTypeLinks hsymbol (ctx.ownTypeName symbol.ns symbol.nesting)
    (state.sink.node (ctx.typeNode (declaring.getD (Name.join ctx.root symbol.ns)) symbol))
  rw [Sink.nodes_node] at hlinks
  refine ⟨List.Subset.trans (List.subset_append_left _ _) hlinks,
    ctx.typeNode (declaring.getD (Name.join ctx.root symbol.ns)) symbol, hlinks ?_, rfl, rfl⟩
  exact List.mem_append_right _ List.mem_cons_self

theorem Covered.step {state : TypeWalkState} {id : Nat} {declaring : Option String}
    {pending : List (Nat × Option String)} {result : TypeWalkState × List (Nat × Option String)}
    (hids : ∀ id symbol, ctx.view.typeSymbol ctx.index id = .ok symbol → symbol.id = id)
    (hmet : ctx.TypeMet state id declaring result)
    (h : ctx.Covered state ((id, declaring) :: pending)) :
    ctx.Covered result.1 (result.2 ++ pending) := by
  have hnext : ∀ other, state.walk.named ⊆ result.1.walk.named → ctx.Settled result.1.walk id →
      ctx.Settled state.walk other ∨ other ∈ ((id, declaring) :: pending).map (·.1) →
      ctx.Settled result.1.walk other ∨ other ∈ (result.2 ++ pending).map (·.1) := by
    intro other hsub hid hother
    rcases hother with hother | hother
    · exact Or.inl (hother.mono hsub)
    · rcases List.mem_cons.mp hother with rfl | hother
      · exact Or.inl hid
      · rw [List.map_append]
        exact Or.inr (List.mem_append_right _ hother)
  rcases hmet.passed_or_sent with ⟨hnamed, hsink, hsettled⟩ | ⟨symbol, hsymbol, rfl⟩
  · have hsub : state.walk.named ⊆ result.1.walk.named := by rw [hnamed]; exact List.Subset.refl _
    refine ⟨fun other hother => hnext other hsub (hsettled.mono hsub) (h.topLevel other hother), ?_,
      ?_, ?_⟩
    · rw [hnamed]
      exact fun type htype other hother => hnext other hsub (hsettled.mono hsub)
        (h.nested type htype other hother)
    · rw [hnamed]
      exact h.readable
    · rw [hnamed, hsink]
      exact h.sent
  · have hnamed : (ctx.sendType state declaring symbol).walk.named =
        state.walk.named ++ [(ctx.ownTypeName symbol.ns symbol.nesting, symbol)] := by
      simp only [sendType, named_push_sent]
    have hsub : state.walk.named ⊆ (ctx.sendType state declaring symbol).walk.named := by
      rw [hnamed]
      exact List.subset_append_left _ _
    have hsettled : ctx.Settled (ctx.sendType state declaring symbol).walk id := by
      intro symbol' hsymbol' _ _
      obtain rfl := Except.ok.inj (hsymbol.symm.trans hsymbol')
      simp [hnamed]
    obtain ⟨hnodes, hnode⟩ := ctx.sendType_kept state declaring hsymbol
    refine ⟨fun other hother => hnext other hsub hsettled (h.topLevel other hother), ?_, ?_, ?_⟩
    · intro type htype other hother
      rw [hnamed] at htype
      rcases List.mem_append.mp htype with htype | htype
      · exact hnext other hsub hsettled (h.nested type htype other hother)
      · obtain rfl := List.mem_singleton.mp htype
        rw [hids id symbol hsymbol] at hother
        exact Or.inr (by simp [hother])
    · intro type htype
      rw [hnamed] at htype
      rcases List.mem_append.mp htype with htype | htype
      · exact h.readable type htype
      · obtain rfl := List.mem_singleton.mp htype
        exact ⟨id, hsymbol⟩
    · intro type htype
      rw [hnamed] at htype
      rcases List.mem_append.mp htype with htype | htype
      · obtain ⟨n, hn, heq⟩ := h.sent type htype
        exact ⟨n, hnodes hn, heq⟩
      · obtain rfl := List.mem_singleton.mp htype
        exact hnode

structure TypesCovered (ctx : WalkContext) (walk : TypeWalk) (s : Sink) : Prop where
  topLevel : ∀ id ∈ ctx.view.topLevel, ctx.Settled walk id
  nested : ∀ type ∈ walk.named, ∀ id ∈ ctx.view.nested type.2.id, ctx.Settled walk id
  readable : ∀ type ∈ walk.named, ∃ id, ctx.view.typeSymbol ctx.index id = .ok type.2
  sent : ∀ type ∈ walk.named, ∃ n ∈ s.nodes, n.name = type.1 ∧ n.kind = .type

theorem Covered.rotate {state : TypeWalkState} {types rest : List (Nat × Option String)}
    (h : ctx.Covered state (types ++ rest)) : ctx.Covered state (rest ++ types) := by
  have hswap : ∀ id, id ∈ (types ++ rest).map (·.1) → id ∈ (rest ++ types).map (·.1) := by
    intro id hid
    rw [List.map_append, List.mem_append] at hid ⊢
    exact hid.symm
  exact ⟨fun id hid => (h.topLevel id hid).imp_right (hswap id),
    fun type htype id hid => (h.nested type htype id hid).imp_right (hswap id), h.readable, h.sent⟩

theorem walkTypes_covered (hnumbered : ctx.view.Numbered) (hextends : ctx.ExtendsNesting)
    (s : Sink) :
    ctx.TypesCovered (ctx.walkTypes s).1 (ctx.walkTypes s).2 := by
  have start : ctx.Covered ⟨.empty, .empty, s⟩ (ctx.view.topLevel.map (·, none) ++ []) := by
    refine ⟨fun id hid => Or.inr ?_, ?_, ?_, ?_⟩
    · simpa using hid
    all_goals simp [TypeWalk.named, TypeWalk.empty]
  obtain ⟨left, h, hnil⟩ := ctx.walkNested_invariant (P := ctx.Covered)
    (fun _ _ _ _ _ hmet h => h.step (hnumbered.type_id ctx.index) hmet) (fun _ _ _ h => h.rotate)
    (ctx.view.typeCount + 1) _ _ [] start
  have htop := ctx.nestWithin_topLevel hnumbered hextends
  obtain rfl := hnil (by simpa [Function.comp_def] using htop)
  have hsettled : ∀ {walk id},
      ctx.Settled walk id ∨ id ∈ ([] : List (Nat × Option String)).map (·.1) →
      ctx.Settled walk id := by
    intro walk id h
    simpa using h
  refine ⟨fun id hid => hsettled (h.topLevel id hid),
    fun type htype id hid => hsettled (h.nested type htype id hid),
    h.readable, fun type htype => ?_⟩
  obtain ⟨n, hn, heq⟩ := h.sent type htype
  exact ⟨n, ((sendNamespaces_sent _ _).1 n).mpr (Or.inl hn), heq⟩

theorem walkMembers_sent (walk : TypeWalk) (s : Sink) :
    s.nodes ⊆ (ctx.walkMembers walk s).2.nodes ∧
      ∀ m ∈ ctx.walkedMembers walk, m.node ∈ (ctx.walkMembers walk s).2.nodes := by
  rw [walkMembers_eq]
  have hsymbols : ∀ m ∈ ctx.walkedMembers walk, ctx.view.memberSymbol ctx.index m.id =
      .ok m.symbol :=
    fun m hm => ((ctx.mem_walkedMembers_iff walk).mp hm).2.1
  generalize ctx.walkedMembers walk = members at hsymbols
  induction members generalizing s with
  | nil => exact ⟨List.Subset.refl _, by simp⟩
  | cons m members ih =>
      have hfirst := keeps_nodes.links.sendMember walk (hsymbols m List.mem_cons_self) s
      rw [Sink.nodes_node] at hfirst
      obtain ⟨hkept, hmore⟩ :=
        ih (ctx.sendMember walk m s) fun k hk => hsymbols k (List.mem_cons_of_mem m hk)
      have hkeptFirst := List.Subset.trans (List.subset_append_left _ _) hfirst
      refine ⟨List.Subset.trans hkeptFirst hkept, ?_⟩
      intro k hk
      rcases List.mem_cons.mp hk with rfl | hk
      · exact hkept (hfirst (List.mem_append_right _ List.mem_cons_self))
      · exact hmore k hk

/-! ## Every link is computed from a reference -/

/-- What a fresh dedup lets pass is computed from the references that were asked about. -/
theorem computed_of_passed {source : String} {references : List Reference} {asked : List Link}
    (hasked : ∀ l ∈ asked, ctx.LeadsTo source references l) {l : Link}
    (hl : l ∈ (LinkDedup.new source).passed asked) :
    ∃ r ∈ references, ctx.linkTarget? r = some l.key := by
  have hscope :=
      LinkDedup.isScope_passed_new fun l hl => ⟨(hasked l hl).source_eq, (hasked l hl).target_ne⟩
  obtain ⟨before, after, heq, -⟩ := hscope.first l hl
  exact (hasked l (by simp [heq])).computed

theorem typeLinks_computed {walk : TypeWalk}
    (hread : ∀ type ∈ walk.named, ∃ id, ctx.view.typeSymbol ctx.index id = .ok type.2) {l : Link}
    (hl : l ∈ ctx.typeLinks walk.named) : ∃ r, ctx.Refers r ∧ ctx.linkTarget? r = some l.key := by
  obtain ⟨type, htype, hl⟩ := List.mem_flatMap.mp hl
  obtain ⟨id, hsymbol⟩ := hread type htype
  obtain ⟨r, hr, hkey⟩ := computed_of_passed (fun _ => leadsTo_of_askedByBases) hl
  exact ⟨r, Or.inl ⟨id, type.2, hsymbol, hr⟩, hkey⟩

theorem memberLinks_computed {walk : TypeWalk} {m : WalkedMember} (hm : m ∈ ctx.walkedMembers walk)
    {l : Link}
    (hl : l ∈ ctx.memberLinks walk m) : ∃ r, ctx.Refers r ∧ ctx.linkTarget? r = some l.key := by
  obtain ⟨-, hsymbol, -⟩ := (ctx.mem_walkedMembers_iff walk).mp hm
  obtain ⟨r, hr, hkey⟩ := computed_of_passed (fun _ => ctx.leadsTo_of_askedByWalked walk) hl
  refine ⟨r, Or.inr ?_, hkey⟩
  rcases List.mem_append.mp hr with hr | hr
  · exact Or.inl ⟨m.id, m.symbol, hsymbol, hr⟩
  · obtain ⟨b, -, hr⟩ := List.mem_flatMap.mp hr
    obtain ⟨mention, hmention, hr⟩ := List.mem_flatMap.mp hr
    exact Or.inr ⟨b, mention, hmention, hr⟩

/-! ## Consistent modules -/

/-- The type only carries the comment of its namespace, or lies in one that does. -/
inductive InNamespaceDoc (ctx : WalkContext) : Nat → Prop
  | doc {id : Nat} {symbol : TypeSymbol} (h : ctx.view.typeSymbol ctx.index id = .ok symbol)
      (hd : symbol.IsNamespaceDoc) : InNamespaceDoc ctx id
  | inner {id outer : Nat} {symbol : TypeSymbol} (h : ctx.view.typeSymbol ctx.index id = .ok symbol)
      (houter : symbol.declaring = some outer) (hin : InNamespaceDoc ctx outer) :
      InNamespaceDoc ctx id

/-- The type is listed in its declaring type. -/
def IsListedInside (ctx : WalkContext) (id : Nat) (symbol : TypeSymbol) : Prop :=
  ∃ outer around, symbol.declaring = some outer ∧ ctx.view.typeSymbol ctx.index outer = .ok around ∧
    id ∈ ctx.view.nested outer

/-- References into the module agree with what the module defines. -/
structure Consistent (ctx : WalkContext) : Prop where
  internal : ctx.modules.get? ctx.view.name = some ⟨ctx.root, true⟩
  nested : ctx.ExtendsNesting
  listed : ∀ id symbol, ctx.view.typeSymbol ctx.index id = .ok symbol →
    id ∈ ctx.view.topLevel ∨ ctx.IsListedInside id symbol
  typeGenerated : ∀ id symbol, ctx.view.typeSymbol ctx.index id = .ok symbol →
    symbol.isGenerated = true →
    ∃ raw ∈ symbol.nesting, Name.isGenerated raw = true
  memberGenerated : ∀ id symbol, ctx.view.memberSymbol ctx.index id = .ok symbol →
    symbol.isGenerated = true →
    Name.isGenerated symbol.name = true
  typeRef : ∀ target id, ctx.Refers (.type target) → target.handle = some id →
    target.owner = some ctx.view.name ∧ ¬ ctx.InNamespaceDoc id ∧
      ∃ symbol, ctx.view.typeSymbol ctx.index id = .ok symbol ∧ symbol.ns = target.ns ∧
        symbol.nesting = target.nesting
  memberRef : ∀ target id, ctx.Refers (.member target) → target.handle = some id →
    ∃ symbol type, ctx.view.memberSymbol ctx.index id = .ok symbol ∧ symbol.name = target.name ∧
      symbol.kind = target.kind ∧ symbol.signature = target.signature ∧
      symbol.isImplicitCtor = target.isImplicitCtor ∧ target.declaring.handle = some type ∧
      id ∈ ctx.view.members type

section References

variable (hnumbered : ctx.view.Numbered) (hc : ctx.Consistent) {walk : TypeWalk} {s : Sink}
  (h : ctx.TypesCovered walk s)

include hc

theorem isMadeUp_eq_false {id : Nat} {symbol : TypeSymbol}
    (hsymbol : ctx.view.typeSymbol ctx.index id = .ok symbol)
    (hplain : ∀ raw ∈ symbol.nesting, Name.isGenerated raw = false) : symbol.isMadeUp = false := by
  have hname : Name.isGenerated symbol.name = false := by
    unfold TypeSymbol.name
    cases hlast : symbol.nesting.getLast? with
    | none => decide +kernel
    | some raw => exact hplain raw (List.mem_of_getLast? hlast)
  have hflag : symbol.isGenerated = false := by
    by_contra hgenerated
    obtain ⟨raw, hraw, hmade⟩ := hc.typeGenerated id symbol hsymbol (by simpa using hgenerated)
    rw [hplain raw hraw] at hmade
    cases hmade
  simp [TypeSymbol.isMadeUp, hflag, hname]

include hnumbered h

/-- A type has a node when no generated name surrounds it and no namespace comment. -/
theorem mem_named_of_plain {id : Nat} {symbol : TypeSymbol}
    (hsymbol : ctx.view.typeSymbol ctx.index id = .ok symbol)
    (hplain : ∀ raw ∈ symbol.nesting, Name.isGenerated raw = false)
    (hdoc : ¬ ctx.InNamespaceDoc id) :
    (ctx.ownTypeName symbol.ns symbol.nesting, symbol) ∈ walk.named := by
  induction hlength : symbol.nesting.length using Nat.strongRecOn generalizing id symbol with
  | _ length ih =>
      have hmadeUp := isMadeUp_eq_false hc hsymbol hplain
      have hself : ¬ symbol.IsNamespaceDoc := fun hd => hdoc (.doc hsymbol hd)
      rcases hc.listed id symbol hsymbol with htop | ⟨outer, around, houter, haround, hmem⟩
      · exact h.topLevel id htop symbol hsymbol hmadeUp hself
      · obtain ⟨-, raw, hnesting⟩ := hc.nested outer around haround id hmem symbol hsymbol
        have hshorter : around.nesting.length < length := by
          rw [← hlength, hnesting]
          simp
        have haroundPlain : ∀ r ∈ around.nesting, Name.isGenerated r = false := by
          intro r hr
          exact hplain r (by rw [hnesting]; exact List.mem_append_left _ hr)
        have hnamed :=
            ih _ hshorter haround haroundPlain (fun hin => hdoc (.inner hsymbol houter hin)) rfl
        refine h.nested _ hnamed id ?_ symbol hsymbol hmadeUp hself
        rw [hnumbered.type_id ctx.index outer around haround]
        exact hmem

theorem typeRef_named {target : NamedType} (hrefers : ctx.Refers (.type target)) {id : Nat}
    (hhandle : target.handle = some id) (hplain : target.isGenerated = false) :
    ctx.modules.typeName target = some (ctx.ownTypeName target.ns target.nesting) ∧
      ∃ symbol, symbol.id = id ∧
        (ctx.ownTypeName target.ns target.nesting, symbol) ∈ walk.named := by
  obtain ⟨howner, hdoc, symbol, hsymbol, hns, hnesting⟩ := hc.typeRef target id hrefers hhandle
  constructor
  · have hignored : ctx.modules.isIgnored ctx.view.name = false := by
      simp [Modules.isIgnored, Modules.isInternal, hc.internal]
    simp [Modules.typeName, howner, hignored, Modules.rootOf, hc.internal, ownTypeName]
  · refine ⟨symbol, hnumbered.type_id ctx.index id symbol hsymbol, ?_⟩
    rw [← hns, ← hnesting]
    refine mem_named_of_plain hnumbered hc h hsymbol ?_ hdoc
    intro raw hraw
    rw [hnesting] at hraw
    by_contra hgenerated
    have hany : target.isGenerated = true :=
        List.any_eq_true.mpr ⟨raw, hraw, by simpa using hgenerated⟩
    rw [hany] at hplain
    cases hplain

theorem typeRef_sent {target : NamedType} (hrefers : ctx.Refers (.type target))
    (hlocal : target.handle.isSome)
    {key : String × NodeKind} (hkey : ctx.linkTarget? (.type target) = some key) :
    ∃ n ∈ s.nodes, n.name = key.1 ∧ n.kind = key.2 := by
  obtain ⟨id, hhandle⟩ := Option.isSome_iff_exists.mp hlocal
  simp only [linkTarget?, typeLinkName, Option.map_eq_some_iff,
    Option.ite_none_left_eq_some] at hkey
  obtain ⟨name, ⟨hplain, hname⟩, rfl⟩ := hkey
  obtain ⟨htypeName, symbol, -, hnamed⟩ :=
    typeRef_named hnumbered hc h hrefers hhandle (by simpa using hplain)
  obtain rfl : ctx.ownTypeName target.ns target.nesting = name :=
    Option.some.inj (htypeName.symm.trans hname)
  exact h.sent _ hnamed

theorem memberRef_walked {target : MemberRef} (hrefers : ctx.Refers (.member target))
    (hlocal : target.handle.isSome)
    {key : String × NodeKind} (hkey : ctx.linkTarget? (.member target) = some key) :
    ∃ m ∈ ctx.walkedMembers walk, m.node.name = key.1 ∧ m.node.kind = key.2 := by
  obtain ⟨id, hhandle⟩ := Option.isSome_iff_exists.mp hlocal
  obtain ⟨symbol, type, hsymbol, hname, hkind, hsignature, hctor, htype, hmem⟩ :=
    hc.memberRef target id hrefers hhandle
  simp only [linkTarget?, memberLinkName, Option.ite_none_left_eq_some, Option.map_eq_some_iff,
    not_or,
    Bool.not_eq_true] at hkey
  obtain ⟨⟨-, hplain, hwritten⟩, name, ⟨typeName, htypeName, rfl⟩, rfl⟩ := hkey
  obtain ⟨hnamePlain, hdeclaringPlain⟩ := Bool.or_eq_false_iff.mp hplain
  obtain ⟨hown, declaring, hid, hnamed⟩ :=
    typeRef_named hnumbered hc h hrefers.declaring htype hdeclaringPlain
  obtain rfl : ctx.ownTypeName target.declaring.ns target.declaring.nesting = typeName :=
    Option.some.inj (hown.symm.trans htypeName)
  have hflag : symbol.isGenerated = false := by
    by_contra hgenerated
    rw [← hname, hc.memberGenerated id symbol hsymbol (by simpa using hgenerated)] at hnamePlain
    cases hnamePlain
  have hskipped : symbol.isSkipped = false := by
    simp [MemberSymbol.isSkipped, hflag, hctor, hwritten, hname, hnamePlain]
  have hsegment : symbol.segment = target.segment := by
    simp [MemberSymbol.segment, MemberRef.segment, hname, hkind, hsignature]
  have hprivate : ctx.isPrivateMember id = symbol.isPrivate := by simp [isPrivateMember, hsymbol]
  refine ⟨⟨_, id, symbol⟩, (ctx.mem_walkedMembers_iff walk).mpr
    ⟨⟨declaring, hnamed, ?_⟩, hsymbol, hskipped⟩, ?_, ?_⟩
  · rw [hid]
    exact hmem
  · rw [← hsegment]
    rfl
  · simp only [memberLinkKind, hhandle, Option.any_some, hprivate]
    rfl

end References

/-- Every link of a walk is computed from a reference, and when that one carries a handle of the walked
module, a node with the link's target as its name and the kind that the link gives it is sent in the same
walk. -/
theorem local_targets_sent (hnumbered : ctx.view.Numbered) (hc : ctx.Consistent)
    (onDemand : List String) :
    ∀ l ∈ (ctx.walk ⟨#[], onDemand⟩).links,
      (∃ r, ctx.Refers r ∧ ctx.linkTarget? r = some l.key) ∧
        ∀ r, ctx.Refers r → ctx.linkTarget? r = some l.key → r.handle?.isSome →
          ∃ n ∈ (ctx.walk ⟨#[], onDemand⟩).nodes, n.name = l.target ∧ n.kind = l.targetKind := by
  have hcovered := walkTypes_covered hnumbered hc.nested ⟨#[], onDemand⟩
  obtain ⟨hkept, hsent⟩ :=
    walkMembers_sent (ctx.walkTypes ⟨#[], onDemand⟩).1 (ctx.walkTypes ⟨#[], onDemand⟩).2
  intro l hl
  refine ⟨?_, ?_⟩
  · rw [walk, walkMembers_links, walkTypes_links] at hl
    rcases List.mem_append.mp hl with hl | hl
    · exact typeLinks_computed hcovered.readable (by simpa [Sink.links] using hl)
    · obtain ⟨m, hm, hl⟩ := List.mem_flatMap.mp hl
      exact memberLinks_computed hm hl
  · intro r hrefers hkey hlocal
    cases r with
    | type target =>
        obtain ⟨n, hn, heq⟩ := typeRef_sent hnumbered hc hcovered hrefers hlocal hkey
        exact ⟨n, hkept hn, heq⟩
    | member target =>
        obtain ⟨m, hm, heq⟩ := memberRef_walked hnumbered hc hcovered hrefers hlocal hkey
        exact ⟨m.node, hsent m hm, heq⟩

end WalkContext

namespace Sample

theorem notInNamespaceDoc (id : Nat) : ¬ context.InNamespaceDoc id := by
  intro h
  induction h with
  | inner _ _ _ ih => exact ih
  | @doc id symbol h hd =>
      obtain ⟨hid, rfl⟩ := typeSymbol_eq h
      have hall : ∀ id < 3, ¬ (typeSymbol id).IsNamespaceDoc := by decide
      exact hall id hid hd

theorem consistent : context.Consistent where
  internal := rfl
  nested := wellNamed.nested
  listed id symbol h := by
    obtain ⟨hid, rfl⟩ := typeSymbol_eq h
    have hcases : id = 0 ∨ id = 1 ∨ id = 2 := by omega
    rcases hcases with rfl | rfl | rfl
    · exact Or.inl List.mem_cons_self
    · exact Or.inr ⟨0, typeSymbol 0, rfl, rfl, List.mem_cons_self⟩
    · exact Or.inr ⟨0, typeSymbol 0, rfl, rfl, List.mem_cons_of_mem _ List.mem_cons_self⟩
  typeGenerated id symbol h hgenerated := by
    obtain ⟨hid, rfl⟩ := typeSymbol_eq h
    have hall : ∀ id < 3, (typeSymbol id).isGenerated = true →
        ∃ raw ∈ (typeSymbol id).nesting, Name.isGenerated raw = true := by
      decide +kernel
    exact hall id hid hgenerated
  memberGenerated id symbol h hgenerated := by
    obtain ⟨hid, rfl⟩ := memberSymbol_eq h
    have hall : ∀ id < 5, (memberSymbol id).isGenerated = true →
        Name.isGenerated (memberSymbol id).name = true := by
      decide +kernel
    exact hall id hid hgenerated
  typeRef target id h hhandle := by
    rcases refers_cases h with ⟨n, hn, heq⟩ | ⟨m, -, heq⟩
    · cases heq
      simp only [List.mem_cons, List.not_mem_nil, or_false] at hn
      rcases hn with rfl | rfl | rfl | rfl | rfl
      · cases hhandle
      · cases hhandle
      · cases hhandle
        exact ⟨rfl, notInNamespaceDoc 0, typeSymbol 0, rfl, rfl, rfl⟩
      · cases hhandle
        exact ⟨rfl, notInNamespaceDoc 1, typeSymbol 1, rfl, rfl, rfl⟩
      · cases hhandle
        exact ⟨rfl, notInNamespaceDoc 2, typeSymbol 2, rfl, rfl, rfl⟩
    · cases heq
  memberRef target id h hhandle := by
    rcases refers_cases h with ⟨n, -, heq⟩ | ⟨m, hm, heq⟩
    · cases heq
    · cases heq
      simp only [List.mem_cons, List.not_mem_nil, or_false] at hm
      rcases hm with rfl | rfl | rfl
      · cases hhandle
        exact ⟨memberSymbol 2, 0, rfl, rfl, rfl, rfl, rfl, rfl, by decide⟩
      · cases hhandle
        exact ⟨memberSymbol 3, 1, rfl, rfl, rfl, rfl, rfl, rfl, by decide⟩
      · cases hhandle

end Sample

theorem WalkContext.local_targets_sent_run :
    Sample.context.view.Numbered ∧ Sample.context.Consistent ∧ ∀ l ∈ (Sample.context.walk ⟨#[], []⟩).links,
      (∃ r, Sample.context.Refers r ∧ Sample.context.linkTarget? r = some l.key) ∧
        ∀ r, Sample.context.Refers r → Sample.context.linkTarget? r = some l.key →
          r.handle?.isSome →
          ∃ n ∈ (Sample.context.walk ⟨#[], []⟩).nodes, n.name = l.target ∧ n.kind = l.targetKind :=
  ⟨Sample.numbered, Sample.consistent,
    WalkContext.local_targets_sent Sample.numbered Sample.consistent []⟩

end CodeGraph
