import CodeGraph.Proofs.Walk.MemberRun

namespace CodeGraph

/-!
# What a walk keeps

Apart from the nodes of types, members and namespaces, a walk touches a sink only by links and by the
nodes that targets need. What holds from before to after each of these holds over signatures, bodies
and members of any length.
-/

namespace WalkContext

variable (ctx : WalkContext)

/-- The reference occurs in a declaration or a body of the module. -/
def Refers (ref : Reference) : Prop :=
  (∃ id symbol, ctx.view.typeSymbol ctx.index id = .ok symbol ∧ ref ∈ symbol.references) ∨
    (∃ id symbol, ctx.view.memberSymbol ctx.index id = .ok symbol ∧ ref ∈ symbol.references) ∨
    ∃ id, ∃ r ∈ ctx.mentions id, ref ∈ r.references

/-- A relation between an earlier and a later sink that every link, sent behind what its target needs,
respects. -/
structure KeepsLinks (K : Sink → Sink → Prop) : Prop where
  refl : ∀ s, K s s
  trans : ∀ {a b c}, K a b → K b c → K a c
  named : ∀ kind skip (n : NamedType × Bool) (a : LinkDedup × Sink), ctx.Refers (.type n.1) →
    K a.2 (ctx.linkNamed kind skip a n).2
  member : ∀ target usage (a : LinkDedup × Sink), ctx.Refers (.member target) →
    target.isGenerated = false →
    K a.2 (ctx.linkMember target usage ⟨a.1, a.2, [], [], []⟩).scope.2

/-- A relation that any link respects, and any target by itself. -/
structure Keeps (K : Sink → Sink → Prop) : Prop where
  refl : ∀ s, K s s
  trans : ∀ {a b c}, K a b → K b c → K a c
  link? : ∀ s l, K s (s.link? l)
  type : ∀ t s, ctx.Refers (.type t) → K s (ctx.typeTarget t s).2
  member : ∀ target s, ctx.Refers (.member target) →
    K s (ctx.memberTarget target.declaring target.segment target.kind s).2

variable {ctx}

theorem notMem_references_member {ts : List TypeRef} {target : MemberRef} :
    .member target ∉ ts.flatMap TypeRef.references := by
  simp [TypeRef.references]

theorem Refers.declaring {target : MemberRef} (h : ctx.Refers (.member target)) :
    ctx.Refers (.type target.declaring) := by
  rcases h with ⟨_, symbol, -, h⟩ | ⟨_, symbol, -, h⟩ | ⟨id, r, hr, h⟩
  · exact absurd h notMem_references_member
  · exact absurd h notMem_references_member
  · refine Or.inr (Or.inr ⟨id, r, hr, ?_⟩)
    cases r with
    | type t usage => simp [BodyRef.references, TypeRef.references] at h
    | member other usage =>
        rcases List.mem_cons.mp h with heq | h
        · cases heq
          exact List.mem_cons_of_mem _ List.mem_cons_self
        · rcases List.mem_cons.mp h with heq | h
          · cases heq
          · exact absurd h notMem_references_member

namespace KeepsLinks

variable {K : Sink → Sink → Prop} (hk : ctx.KeepsLinks K)

include hk

theorem foldl {α β : Type} (sink : α → Sink) {step : α → β → α} {xs : List β}
    (h : ∀ x ∈ xs, ∀ a, K (sink a) (sink (step a x))) (a : α) :
    K (sink a) (sink (xs.foldl step a)) := by
  induction xs generalizing a with
  | nil => exact hk.refl _
  | cons x xs ih =>
      exact hk.trans (h x List.mem_cons_self a) (ih (fun y hy => h y (List.mem_cons_of_mem x hy)) _)

theorem linkTypes (kind : LinkKind) (skip : Option String) {ts : List TypeRef}
    (hts : ∀ ref ∈ ts.flatMap TypeRef.references, ctx.Refers ref) (a : LinkDedup × Sink) :
    K a.2 (ts.foldl (ctx.linkType kind skip) a).2 := by
  refine hk.foldl Prod.snd (fun t ht a => ?_) a
  refine hk.foldl Prod.snd (fun n hn a => hk.named kind skip n a (hts _ ?_)) a
  exact List.mem_flatMap.mpr ⟨t, ht, List.mem_map.mpr ⟨n, hn, rfl⟩⟩

theorem sendTypeLinks {id : Nat} {symbol : TypeSymbol}
    (hsymbol : ctx.view.typeSymbol ctx.index id = .ok symbol)
    (name : String) (s : Sink) : K s (ctx.sendTypeLinks name symbol s) := by
  have hrefers :
      ∀ ref ∈ symbol.base.toList.flatMap TypeRef.references ++
        symbol.interfaces.flatMap TypeRef.references,
      ctx.Refers ref := by
    intro ref hmem
    rw [← List.flatMap_append] at hmem
    exact Or.inl ⟨id, symbol, hsymbol, hmem⟩
  have hbase := hk.linkTypes .baseType (some name)
      (fun ref h => hrefers ref (List.mem_append_left _ h)) (.new name, s)
  exact hk.trans hbase
    (hk.linkTypes .interface (some name) (fun ref h => hrefers ref (List.mem_append_right _ h)) _)

theorem sendSignature {id : Nat} {symbol : MemberSymbol}
    (hsymbol : ctx.view.memberSymbol ctx.index id = .ok symbol)
    (typeName : String) (a : LinkDedup × Sink) : K a.2 (ctx.sendSignature typeName symbol a).2 := by
  have hrefers :
      ∀ ref ∈ symbol.value.toList.flatMap TypeRef.references ++
        symbol.parameters.flatMap TypeRef.references,
      ctx.Refers ref := by
    intro ref hmem
    rw [← List.flatMap_append] at hmem
    exact Or.inr (Or.inl ⟨id, symbol, hsymbol, hmem⟩)
  have hvalue : ∀ ref ∈ symbol.value.toList.flatMap TypeRef.references, ctx.Refers ref :=
    fun ref h => hrefers ref (List.mem_append_left _ h)
  have hreturned :
      ∀ ref ∈ (if symbol.isConstructor then [] else symbol.value.toList).flatMap TypeRef.references,
      ctx.Refers ref := by
    intro ref h
    split at h
    · simp at h
    · exact hvalue ref h
  unfold WalkContext.sendSignature
  split
  · exact hk.trans (hk.linkTypes .returnType none hreturned a)
      (hk.linkTypes .parameterType none (fun ref h => hrefers ref (List.mem_append_right _ h)) _)
  · exact hk.linkTypes .variableType (some typeName) hvalue a

theorem linkMention {id : Nat} {r : BodyRef} (hr : r ∈ ctx.mentions id) (a : LinkDedup × Sink) :
    K a.2 (ctx.linkMention a r).2 := by
  have hrefers : ∀ ref ∈ r.references, ctx.Refers ref := fun ref h => Or.inr (Or.inr ⟨id, r, hr, h⟩)
  cases r with
  | type target usage =>
      simp only [WalkContext.linkMention]
      cases target.asNamed?.filter (·.isGenerated) with
      | none =>
          have htarget : ∀ ref ∈ [target].flatMap TypeRef.references, ctx.Refers ref := by
            simpa [BodyRef.references] using hrefers
          exact hk.linkTypes
            (if usage = .generic then .genericArgument else .variableType) none htarget a
      | some n => exact hk.refl _
  | member target usage =>
      simp only [WalkContext.linkMention]
      by_cases hnone : target.isLocalFunction = true ∨ target.isGenerated = true
      · simpa only [hnone, if_true] using hk.refl _
      · have hargs := hk.linkTypes .genericArgument none
          (fun ref h => hrefers ref (List.mem_cons_of_mem _ (List.mem_cons_of_mem _ h))) a
        by_cases hctor : target.isImplicitCtor = true
        · simpa only [hnone, hctor, if_true, if_false] using hargs
        · simp only [hnone, hctor, Bool.false_eq_true, if_false]
          have hplain : target.isGenerated = false := by simpa using (not_or.mp hnone).2
          exact hk.trans hargs (hk.member target usage _ (hrefers _ List.mem_cons_self) hplain)

theorem analyzeBody (walk : TypeWalk) (member : Nat) (d : LinkDedup) (s : Sink) :
    K s (ctx.analyzeBody walk member d s).2 := by
  let P : Nat → BodyState → Prop := fun _ b => K s b.sink
  have meet : ∀ n b next pending, b.pending = next :: pending → next ∉ b.visited →
      P (n + (ctx.isReadable next).toNat) b →
      P n ((ctx.mentions next).foldl (ctx.mention walk) (b.meet next pending)) := by
    intro n b next pending hp hv h
    have hread : K b.sink
        ((ctx.mentions next).foldl ctx.linkMention (b.meet next pending).scope).2 :=
      hk.foldl Prod.snd (fun r hr a => hk.linkMention hr a) (b.meet next pending).scope
    rw [← ctx.foldl_mention_scope walk] at hread
    exact hk.trans h hread
  obtain ⟨k, h, -⟩ :=
    ctx.readBodies_invariant walk (P := P) (fun n b next pending hp hv h => h) meet
    (ctx.view.memberCount + 1) ⟨d, s, [member], [], []⟩ (hk.refl s)
  exact h

/-- After its node, a member sends only links and what their targets need. -/
theorem sendMember (walk : TypeWalk) {m : WalkedMember}
    (hsymbol : ctx.view.memberSymbol ctx.index m.id = .ok m.symbol) (s : Sink) :
    K (s.node m.node) (ctx.sendMember walk m s) := by
  have hsignature := hk.sendSignature hsymbol m.typeName (.new m.name, s.node m.node)
  unfold WalkContext.sendMember
  dsimp only
  split
  · exact hk.trans hsignature (hk.analyzeBody walk m.id _ _)
  · exact hsignature

/-- What nodes respect too holds from before to after a whole walk. -/
theorem walk (hnode : ∀ s n, K s (s.node n)) (s : Sink) : K s (ctx.walk s) := by
  let P : TypeWalkState → List (Nat × Option String) → Prop := fun state _ => K s state.sink
  have step : ∀ state id declaring pending result, ctx.TypeMet state id declaring result →
      P state ((id, declaring) :: pending) → P result.1 (result.2 ++ pending) := by
    intro state id declaring pending result hmet h
    cases hmet with
    | unread | madeUp | async | globalDoc | doc => exact h
    | sent symbol hsymbol => exact hk.trans (hk.trans h (hnode _ _)) (hk.sendTypeLinks hsymbol _ _)
  obtain ⟨left, htypes, -⟩ := ctx.walkNested_invariant step (fun _ _ _ h => h)
    (ctx.view.typeCount + 1) ⟨.empty, .empty, s⟩ (ctx.view.topLevel.map (·, none)) [] (hk.refl s)
  have hnamespaces : ∀ namespaces s, K s (sendNamespaces namespaces s) := fun _ s =>
    hk.foldl id (fun _ _ s => hnode s _) s
  have hmembers : K (ctx.walkTypes s).2 (ctx.walk s) := by
    rw [WalkContext.walk, walkMembers_eq]
    refine hk.foldl id (fun m hm s => ?_) _
    exact hk.trans (hnode s m.node)
      (hk.sendMember _ ((ctx.mem_walkedMembers_iff _).mp hm).2.1 s)
  exact hk.trans (hk.trans htypes (hnamespaces _ _)) hmembers

end KeepsLinks

namespace Keeps

variable {K : Sink → Sink → Prop} (hk : ctx.Keeps K)

include hk

theorem links : ctx.KeepsLinks K where
  refl := hk.refl
  trans := hk.trans
  named kind skip n a hn := by
    obtain ⟨d, s⟩ := a
    have htarget := hk.type n.1 s hn
    simp only [WalkContext.linkNamed, typeTarget_fst]
    cases ctx.typeLinkName n.1 with
    | none => exact htarget
    | some target =>
        by_cases hskip : skip = some target ∨ target = d.source
        · simpa only [hskip, if_true] using htarget
        · simpa only [hskip, if_false] using hk.trans htarget (hk.link? _ _)
  member target usage a htarget _ := by
    have hdemanded := hk.member target a.2 htarget
    simp only [WalkContext.linkMember, memberTarget_fst, BodyState.scope]
    cases ctx.memberLinkName target with
    | none => exact hdemanded
    | some name =>
        by_cases hself : name = a.1.source
        · simpa only [hself, if_true] using hdemanded
        · simpa only [hself, if_false] using hk.trans hdemanded (hk.link? _ _)

end Keeps

end WalkContext

end CodeGraph
