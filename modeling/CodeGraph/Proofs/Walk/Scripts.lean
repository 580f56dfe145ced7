import CodeGraph.Proofs.Walk.OnDemand

namespace CodeGraph

/-!
# Walks as scripts

Walks share the items that were sent and the names of the nodes that were sent on demand. What a walk
does to them is a script, a list of actions that is the same whatever was sent before: no answer that a
walk gets from what is shared leads it to another action.
-/

/-- One use of what walks share. -/
inductive Action where
  | send (item : Item)
  | demand (node : Node)

namespace Action

def item? : Action → Option Item
  | send item => some item
  | demand _ => none

def demanded? : Action → Option String
  | send _ => none
  | demand node => some node.name

end Action

namespace Sink

def act (s : Sink) : Action → Sink
  | .send item => { s with items := s.items.push item }
  | .demand node => s.demand node

def perform (s : Sink) (actions : List Action) : Sink :=
  actions.foldl act s

theorem perform_append (s : Sink) (actions more : List Action) :
    s.perform (actions ++ more) = (s.perform actions).perform more :=
  List.foldl_append

theorem items_act (s : Sink) (action : Action) :
    s.items.toList <+: (s.act action).items.toList := by
  cases action with
  | send item => simp [act]
  | demand n =>
      by_cases h : n.name ∈ s.onDemand
      · simp only [act, demand_of_mem h, List.prefix_rfl]
      · rw [act, demand_of_notMem h]
        exact ⟨[.node n], by simp [node]⟩

/-- What was sent stays sent. -/
theorem items_perform (s : Sink) (actions : List Action) :
    s.items.toList <+: (s.perform actions).items.toList := by
  induction actions generalizing s with
  | nil => exact List.prefix_rfl
  | cons action actions ih => exact (s.items_act action).trans (ih _)

theorem mem_onDemand_act (s : Sink) (action : Action) (name : String) :
    name ∈ (s.act action).onDemand ↔ name ∈ s.onDemand ∨ action.demanded? = some name := by
  cases action with
  | send item => simp [act, Action.demanded?]
  | demand n =>
      by_cases h : n.name ∈ s.onDemand
      · rw [act, demand_of_mem h, Action.demanded?, Option.some.injEq]
        exact ⟨.inl, fun hname => hname.elim id fun heq => heq ▸ h⟩
      · rw [act, demand_of_notMem h, List.mem_cons, Action.demanded?, Option.some.injEq, or_comm,
          eq_comm]

theorem mem_onDemand_perform (s : Sink) (actions : List Action) (name : String) :
    name ∈ (s.perform actions).onDemand ↔
      name ∈ s.onDemand ∨ name ∈ actions.filterMap Action.demanded? := by
  induction actions generalizing s with
  | nil => simp [perform]
  | cons action actions ih =>
      rw [perform, List.foldl_cons, ← perform, ih, mem_onDemand_act, or_assoc]
      simp only [List.mem_filterMap, List.exists_mem_cons_iff]

/-- Nodes that were sent before are not sent again, so that only the rest of the script goes out. -/
theorem perform_of_known {s : Sink} {actions : List Action}
    (h : actions.filterMap Action.demanded? ⊆ s.onDemand) :
    s.perform actions = ⟨s.items ++ (actions.filterMap Action.item?).toArray, s.onDemand⟩ := by
  induction actions generalizing s with
  | nil => simp [perform]
  | cons action actions ih =>
      rw [perform, List.foldl_cons, ← perform]
      cases action with
      | send item =>
          have hmore : actions.filterMap Action.demanded? ⊆ (s.act (.send item)).onDemand := h
          rw [ih hmore]
          simp [act, Action.item?]
      | demand n =>
          have hact : s.act (.demand n) = s := demand_of_mem (h List.mem_cons_self)
          rw [hact, ih fun name hname => h (List.mem_cons_of_mem _ hname)]
          rfl

theorem demandMember_eq (s : Sink) (m : Modules) {declaring : NamedType} (name : String)
    (kind : MemberKind) {owner : String} (howner : declaring.owner = some owner) :
    s.demandMember m declaring name kind =
      (m.neededNodes owner declaring ++ [Node.ofMember name (Name.parent name) kind false]).foldl
        demand s := by
  rw [demandMember, demandType_eq s m howner, List.foldl_append]
  rfl

end Sink

/-- Neither the answer nor the actions depend on what was sent before. -/
def Scripted {α : Type} (run : Sink → α × Sink) : Prop :=
  ∃ answer actions, ∀ s, run s = (answer, s.perform actions)

namespace Scripted

variable {α β : Type}

theorem nothing (a : α) : Scripted fun s => (a, s) :=
  ⟨a, [], fun _ => rfl⟩

theorem act (a : α) (action : Action) : Scripted fun s => (a, s.act action) :=
  ⟨a, [action], fun _ => rfl⟩

theorem node (a : α) (n : Node) : Scripted fun s => (a, s.node n) :=
  .act a (.send (.node n))

theorem demand (a : α) (n : Node) : Scripted fun s => (a, s.demand n) :=
  .act a (.demand n)

theorem link? (a : α) (l : Option Link) : Scripted fun s => (a, s.link? l) := by
  cases l with
  | none => exact .nothing a
  | some l => exact .act a (.send (.link l))

theorem bind {run : Sink → α × Sink} {next : α → Sink → β × Sink} (h : Scripted run)
    (hnext : ∀ a, Scripted (next a)) : Scripted fun s => next (run s).1 (run s).2 := by
  obtain ⟨a, actions, hrun⟩ := h
  obtain ⟨b, more, hmore⟩ := hnext a
  exact ⟨b, actions ++ more, fun s => by simp only [hrun, hmore, Sink.perform_append]⟩

theorem map {run : Sink → α × Sink} (h : Scripted run) (f : α → β) :
    Scripted fun s => (f (run s).1, (run s).2) :=
  h.bind fun a => .nothing (f a)

theorem foldl {step : α × Sink → β → α × Sink} (h : ∀ a x, Scripted fun s => step (a, s) x)
    (xs : List β) (a : α) : Scripted fun s => xs.foldl step (a, s) := by
  induction xs generalizing a with
  | nil => exact .nothing a
  | cons x xs ih => exact (h a x).bind ih

theorem foldl_snd {step : Sink → β → Sink} (h : ∀ x, Scripted fun s => ((), step s x))
    (xs : List β) (a : α) : Scripted fun s => (a, xs.foldl step s) := by
  induction xs with
  | nil => exact .nothing a
  | cons x xs ih => exact (h x).bind fun _ => ih

/-- A scripted run only adds items. -/
theorem items {run : Sink → α × Sink} (h : Scripted run) (s : Sink) :
    s.items.toList <+: (run s).2.items.toList := by
  obtain ⟨a, actions, hrun⟩ := h
  rw [hrun]
  exact s.items_perform actions

end Scripted

namespace WalkContext

variable (ctx : WalkContext)

/-! ## Links -/

theorem demandFor_scripted {α : Type} (t : NamedType) (a : α) {demand : Sink → Sink}
    {needed : String → List Node}
    (h : ∀ s owner, t.owner = some owner → demand s = (needed owner).foldl Sink.demand s) :
    Scripted fun s => (a, ctx.demandFor t demand s) := by
  unfold demandFor
  cases howner : t.owner with
  | none => exact .nothing a
  | some owner =>
      simp only [h _ owner howner, Option.any_some]
      split
      · exact .foldl_snd (fun n => .demand () n) (needed owner) a
      · exact .nothing a

theorem typeTarget_scripted (t : NamedType) : Scripted (ctx.typeTarget t) := by
  unfold typeTarget
  split
  · exact .nothing none
  · split
    · exact .nothing none
    · exact ctx.demandFor_scripted t _ fun s _ howner => s.demandType_eq ctx.modules howner

theorem memberTarget_scripted (declaring : NamedType) (segment : String) (kind : MemberKind) :
    Scripted (ctx.memberTarget declaring segment kind) := by
  unfold memberTarget
  split
  · exact .nothing none
  · exact ctx.demandFor_scripted declaring _ fun s _ howner =>
      s.demandMember_eq ctx.modules _ kind howner

theorem linkNamed_scripted (kind : LinkKind) (skip : Option String) (d : LinkDedup)
    (t : NamedType × Bool) : Scripted fun s => ctx.linkNamed kind skip (d, s) t := by
  have htarget := ctx.typeTarget_scripted t.1
  simp only [linkNamed, typeTarget_fst]
  cases ctx.typeLinkName t.1 with
  | none => exact htarget.map fun _ => d
  | some target =>
      dsimp only
      split
      · exact htarget.map fun _ => d
      · exact htarget.bind fun _ => .link? _ _

theorem linkType_scripted (kind : LinkKind) (skip : Option String) (d : LinkDedup) (t : TypeRef) :
    Scripted fun s => ctx.linkType kind skip (d, s) t :=
  .foldl (fun d n => ctx.linkNamed_scripted kind skip d n) t.namedTypes d

theorem linkTypes_scripted (kind : LinkKind) (skip : Option String) (ts : List TypeRef)
    (d : LinkDedup) : Scripted fun s => ts.foldl (ctx.linkType kind skip) (d, s) :=
  .foldl (fun d t => ctx.linkType_scripted kind skip d t) ts d

theorem sendTypeLinks_scripted {α : Type} (a : α) (name : String) (symbol : TypeSymbol) :
    Scripted fun s => (a, ctx.sendTypeLinks name symbol s) :=
  ((ctx.linkTypes_scripted .baseType (some name) symbol.base.toList (.new name)).bind
    fun d => ctx.linkTypes_scripted .interface (some name) symbol.interfaces d).map fun _ => a

theorem sendSignature_scripted (typeName : String) (symbol : MemberSymbol) (d : LinkDedup) :
    Scripted fun s => ctx.sendSignature typeName symbol (d, s) := by
  unfold sendSignature
  split
  · exact (ctx.linkTypes_scripted .returnType none _ d).bind
      fun d => ctx.linkTypes_scripted .parameterType none symbol.parameters d
  · exact ctx.linkTypes_scripted .variableType (some typeName) symbol.value.toList d

/-! ## Bodies -/

theorem linkMember_scripted (target : MemberRef) (usage : MemberUsage) (d : LinkDedup) :
    Scripted fun s => (ctx.linkMember target usage ⟨d, s, [], [], []⟩).scope := by
  have htarget := ctx.memberTarget_scripted target.declaring target.segment target.kind
  simp only [linkMember, memberTarget_fst]
  cases ctx.memberLinkName target with
  | none => exact htarget.map fun _ => d
  | some name =>
      by_cases hself : name = d.source
      · simp only [hself, if_true]
        exact htarget.map fun _ => d
      · simp only [hself, if_false]
        exact htarget.bind fun _ => .link? _ _

theorem linkMention_scripted (d : LinkDedup) (r : BodyRef) :
    Scripted fun s => ctx.linkMention (d, s) r := by
  cases r with
  | type target usage =>
      simp only [linkMention]
      split
      · exact .nothing d
      · exact ctx.linkType_scripted _ none d target
  | member target usage =>
      simp only [linkMention]
      split
      · exact .nothing d
      · have hargs := ctx.linkTypes_scripted .genericArgument none
          (target.args ++ target.declaring.args) d
        split
        · exact hargs
        · exact hargs.bind fun d => ctx.linkMember_scripted target usage d

/-- What bodies do to the scope of a member is what their mentions do, one after the other. -/
theorem analyzeBody_eq (walk : TypeWalk) (member : Nat) (d : LinkDedup) (s : Sink) :
    ctx.analyzeBody walk member d s =
      ((ctx.bodiesRead walk member).flatMap ctx.mentions).foldl ctx.linkMention (d, s) := by
  let P : Nat → BodyState → Prop := fun _ b =>
    b.scope = (b.visited.reverse.flatMap ctx.mentions).foldl ctx.linkMention (d, s)
  have meet : ∀ n b next pending, b.pending = next :: pending → next ∉ b.visited →
      P (n + (ctx.isReadable next).toNat) b →
      P n ((ctx.mentions next).foldl (ctx.mention walk) (b.meet next pending)) := by
    intro n b next pending hp hv h
    have hscope : (b.meet next pending).scope =
        (b.visited.reverse.flatMap ctx.mentions).foldl ctx.linkMention (d, s) := h
    simp only [P]
    rw [foldl_mention_scope, foldl_mention_visited, hscope, BodyState.meet, List.reverse_cons,
      List.flatMap_append, List.flatMap_singleton, List.foldl_append]
  obtain ⟨k, h, -⟩ := ctx.readBodies_invariant walk (P := P) (fun n b next pending hp hv h => h) meet
    (ctx.view.memberCount + 1) ⟨d, s, [member], [], []⟩ rfl
  rw [ctx.bodiesRead_eq walk member d s]
  exact h

theorem analyzeBody_scripted (walk : TypeWalk) (member : Nat) (d : LinkDedup) :
    Scripted (ctx.analyzeBody walk member d) := by
  have heq := funext (ctx.analyzeBody_eq walk member d)
  rw [heq]
  exact .foldl ctx.linkMention_scripted _ d

/-! ## Walks -/

theorem sendMember_scripted (walk : TypeWalk) (m : WalkedMember) :
    Scripted fun s => ((), ctx.sendMember walk m s) := by
  have hsignature := (Scripted.node () m.node).bind
    fun _ => ctx.sendSignature_scripted m.typeName m.symbol (.new m.name)
  unfold sendMember
  by_cases hbody : ctx.view.hasBody m.id = true
  · simp only [hbody, if_true]
    exact (hsignature.bind fun d => ctx.analyzeBody_scripted walk m.id d).map fun _ => ()
  · simp only [hbody]
    exact hsignature.map fun _ => ()

theorem walkMember_scripted (walk : TypeWalk) (typeName : String) (n id : Nat) :
    Scripted fun s => ctx.walkMember walk typeName (n, s) id := by
  simp only [walkMember_eq]
  cases ctx.walkedMember? typeName id with
  | none => exact .nothing n
  | some m => exact (ctx.sendMember_scripted walk m).map fun _ => n + 1

theorem walkMembers_scripted (walk : TypeWalk) : Scripted (ctx.walkMembers walk) := by
  unfold walkMembers
  simp only [← Array.foldl_toList]
  refine .foldl (fun n record => ?_) walk.records.toList 0
  cases record.node with
  | none => exact .nothing n
  | some typeName =>
      exact .foldl (ctx.walkMember_scripted walk typeName) (ctx.view.members record.symbol.id) n

theorem walkType_scripted (walk : TypeWalk) (namespaces : Namespaces) (id : Nat)
    (declaring : Option String) :
    Scripted fun s =>
      let met := ctx.walkType ⟨walk, namespaces, s⟩ id declaring
      ((met.1.walk, met.1.namespaces, met.2), met.1.sink) := by
  unfold walkType
  cases ctx.view.typeSymbol ctx.index id with
  | error e => exact .nothing (walk, namespaces, [])
  | ok symbol =>
      dsimp only
      split
      · split <;> dsimp only <;> exact .nothing _
      · split
        · split <;> dsimp only <;> exact .nothing _
        · have hnode :=
            Scripted.node () (ctx.typeNode (declaring.getD (Name.join ctx.root symbol.ns)) symbol)
          dsimp only
          exact hnode.bind fun _ =>
            ctx.sendTypeLinks_scripted _ (ctx.ownTypeName symbol.ns symbol.nesting) symbol

theorem walkNested_scripted (depth : Nat) (walk : TypeWalk) (namespaces : Namespaces)
    (types : List (Nat × Option String)) :
    Scripted fun s =>
      let met := ctx.walkNested depth ⟨walk, namespaces, s⟩ types
      ((met.walk, met.namespaces), met.sink) := by
  induction depth generalizing walk namespaces types with
  | zero => exact .nothing (walk, namespaces)
  | succ depth ih =>
      simp only [walkNested]
      induction types generalizing walk namespaces with
      | nil => exact .nothing (walk, namespaces)
      | cons type types ihTypes =>
          exact ((ctx.walkType_scripted walk namespaces type.1 type.2).bind
            fun met => ih met.1 met.2.1 met.2.2).bind fun met => ihTypes met.1 met.2

theorem walkTypes_scripted : Scripted ctx.walkTypes := by
  have hnested := ctx.walkNested_scripted (ctx.view.typeCount + 1) .empty .empty
    (ctx.view.topLevel.map (·, none))
  unfold walkTypes
  simp only [sendNamespaces_eq]
  exact hnested.bind fun met =>
    .foldl_snd (fun n => .node () n) (namespaceNodes met.2) met.1

end WalkContext

end CodeGraph
