import CodeGraph.Proofs.Name.Segments
import CodeGraph.Proofs.Walk.Keeps

namespace CodeGraph

/-!
# Nodes and the nodes above them

Every node that a walk sends hangs below another one, below the root of the module, or it is the group
of the modules outside the input. Nodes on demand are sent from the group downward, so that each finds
the node above it among those that were sent.
-/

/-- The names in a reference to a type can be parts of names. -/
structure Named.HasNames {α : Type} (t : Named α) : Prop where
  ns : Name.IsNamespace t.ns
  nesting : ∀ raw ∈ t.nesting, Name.IsTypeName raw
  owner : ∀ owner, t.owner = some owner → owner ≠ "" ∧ Name.Balanced owner

instance {α : Type} (t : Named α) : Decidable t.HasNames :=
  decidable_of_iff (Name.IsNamespace t.ns ∧ (∀ raw ∈ t.nesting, Name.IsTypeName raw) ∧
      ∀ owner ∈ t.owner, owner ≠ "" ∧ Name.Balanced owner)
    ⟨fun h => ⟨h.1, h.2.1, h.2.2⟩, fun h => ⟨h.ns, h.nesting, h.owner⟩⟩

namespace Sink

theorem namespaceParts_empty : namespaceParts "" = [] := by
  decide

theorem namespaceParts_eq {ns : String} (h : ∀ part ∈ Text.splitBy (· == '.') ns, part ≠ "") :
    namespaceParts ns = Text.splitBy (· == '.') ns := by
  refine List.filter_eq_self.mpr fun part hpart => ?_
  simpa using h part hpart

/-- No part of the namespace is empty. -/
def HasParts (ns : String) : Prop :=
  ns = "" ∨ ∀ part ∈ Text.splitBy (· == '.') ns, part ≠ ""

theorem HasParts.foldl_join {ns : String} (h : HasParts ns) (root : String) :
    (namespaceParts ns).foldl Name.join root = Name.join root ns := by
  rcases h with rfl | h
  · simp [namespaceParts_empty]
  · rw [namespaceParts_eq h]
    exact Name.foldl_join_splitBy h root

theorem foldl_join_namespaceParts {ns : String} (h : Name.IsNamespace ns) (root : String) :
    (namespaceParts ns).foldl Name.join root = Name.join root ns :=
  HasParts.foldl_join (h.imp_right fun h part hpart => (h part hpart).1) root

theorem of_mem_namespaceParts {ns part : String} (h : Name.IsNamespace ns)
    (hpart : part ∈ namespaceParts ns) :
    part ≠ "" ∧ Name.Balanced part ∧ Name.IsUndotted part := by
  rcases h with rfl | h
  · simp [namespaceParts_empty] at hpart
  · have hsplit := (List.mem_filter.mp hpart).1
    obtain ⟨chars, hchars, rfl⟩ := List.mem_map.mp hsplit
    obtain ⟨hne, hbalanced⟩ := h _ hsplit
    refine ⟨hne, hbalanced, Name.isUndotted_of_notMem ?_⟩
    rw [String.toList_ofList]
    exact Name.dot_notMem_of_mem_splitBy hchars

end Sink

namespace WalkContext

variable (ctx : WalkContext)

/-- The node is the group of the modules outside the input, or it lies below the root or below one of
the names. -/
def Hangs (names : List String) (n : Node) : Prop :=
  n = .plain ctx.modules.externalsRoot (Name.parent ctx.modules.externalsRoot) .external ∨
    Name.isAbove n.parent n.name = true ∧ (n.parent = ctx.root ∨ n.parent ∈ names)

/-- Every node that was sent hangs below another one, or below a name for which a node is owed. -/
structure Closed (owed : List String) (s : Sink) : Prop where
  hangs : ∀ n ∈ s.nodes, ctx.Hangs (s.names ++ owed) n
  onDemand : s.onDemand ⊆ s.names

structure Grown (owed : List String) (s s' : Sink) : Prop where
  closed : ctx.Closed owed s'
  names : s.names ⊆ s'.names

variable {ctx} {owed : List String} {s s' : Sink}

theorem Hangs.mono {names names' : List String} {n : Node} (h : ctx.Hangs names n)
    (hsub : names ⊆ names') :
    ctx.Hangs names' n := by
  rcases h with h | ⟨habove, hroot | hmem⟩
  · exact Or.inl h
  · exact Or.inr ⟨habove, Or.inl hroot⟩
  · exact Or.inr ⟨habove, Or.inr (hsub hmem)⟩

theorem Closed.mono {owed' : List String} (h : ctx.Closed owed s) (hsub : owed ⊆ owed') :
    ctx.Closed owed' s :=
  ⟨fun n hn => (h.hangs n hn).mono (List.append_subset.mpr
    ⟨List.subset_append_left _ _, List.subset_append_of_subset_right _ hsub⟩), h.onDemand⟩

namespace Grown

theorem refl (h : ctx.Closed owed s) : ctx.Grown owed s s :=
  ⟨h, List.Subset.refl _⟩

theorem trans {s'' : Sink} (h₁ : ctx.Grown owed s s') (h₂ : ctx.Grown owed s' s'') :
    ctx.Grown owed s s'' :=
  ⟨h₂.closed, List.Subset.trans h₁.names h₂.names⟩

theorem link? (h : ctx.Closed owed s) (l : Option Link) : ctx.Grown owed s (s.link? l) := by
  have hnames : (s.link? l).names = s.names := by simp [Sink.names]
  refine ⟨⟨?_, ?_⟩, ?_⟩
  · simpa [hnames] using h.hangs
  · simpa [hnames] using h.onDemand
  · simp [hnames]

theorem node {n : Node} (h : ctx.Closed owed s) (hn : ctx.Hangs (s.names ++ owed) n) :
    ctx.Grown owed s (s.node n) := by
  have hnames : (s.node n).names = s.names ++ [n.name] := by simp [Sink.names]
  have hsub : s.names ⊆ (s.node n).names := by simp [hnames]
  have hsub' : s.names ++ owed ⊆ (s.node n).names ++ owed :=
    List.append_subset.mpr ⟨List.subset_append_of_subset_left _ hsub, List.subset_append_right _ _⟩
  refine ⟨⟨?_, ?_⟩, hsub⟩
  · intro k hk
    rw [Sink.nodes_node] at hk
    rcases List.mem_append.mp hk with hk | hk
    · exact (h.hangs k hk).mono hsub'
    · obtain rfl := List.mem_singleton.mp hk
      exact hn.mono hsub'
  · exact List.Subset.trans h.onDemand hsub

end Grown

theorem mem_names_node (n : Node) : n.name ∈ (s.node n).names := by
  simp [Sink.names]

/-! ## Nodes on demand -/

/-- A node on demand is there afterwards, sent now or before. -/
theorem demand_grown {n : Node} (h : ctx.Closed owed s) (hn : ctx.Hangs (s.names ++ owed) n) :
    ctx.Grown owed s (s.demand n) ∧ n.name ∈ (s.demand n).names := by
  by_cases hmem : n.name ∈ s.onDemand
  · rw [Sink.demand_of_mem hmem]
    exact ⟨.refl h, h.onDemand hmem⟩
  · rw [Sink.demand_of_notMem hmem]
    have hgrown := Grown.node h hn
    have hname : n.name ∈ (s.node n).names := mem_names_node n
    refine ⟨⟨⟨hgrown.closed.hangs, ?_⟩, hgrown.names⟩, hname⟩
    exact List.cons_subset.mpr ⟨hname, hgrown.closed.onDemand⟩

theorem demandChain_grown {parent : String} (kind : NodeKind) {segments : List String}
    (hsegments : ∀ segment ∈ segments, segment ≠ "") (hparent : parent ≠ "") (h : ctx.Closed owed s)
    (hmem : parent ∈ s.names) :
    ctx.Grown owed s (s.demandChain parent kind segments).1 ∧
      segments.foldl Name.join parent ∈ (s.demandChain parent kind segments).1.names := by
  induction segments generalizing s parent with
  | nil => exact ⟨.refl h, hmem⟩
  | cons segment more ih =>
      have hsegment : segment ≠ "" := hsegments segment List.mem_cons_self
      have hangs : ctx.Hangs (s.names ++ owed) (.plain (Name.join parent segment) parent kind) :=
        Or.inr ⟨Name.isAbove_join hparent hsegment, Or.inr (List.mem_append_left _ hmem)⟩
      obtain ⟨hgrown, hname⟩ := demand_grown h hangs
      obtain ⟨hmore, hlast⟩ := ih (fun x hx => hsegments x (List.mem_cons_of_mem segment hx))
        (Name.join_ne_empty (Or.inl hparent)) hgrown.closed hname
      exact ⟨hgrown.trans hmore, hlast⟩

/-- What is asked of a walk for its nodes to hang one below the other. -/
structure WellNamed (ctx : WalkContext) : Prop where
  root : ctx.root ≠ "" ∧ Name.Balanced ctx.root
  externalsRoot : ctx.modules.externalsRoot ≠ "" ∧ Name.Balanced ctx.modules.externalsRoot
  type : ∀ id symbol, ctx.view.typeSymbol ctx.index id = .ok symbol →
    Name.IsNamespace symbol.ns ∧ ∀ raw ∈ symbol.name :: symbol.nesting, Name.IsTypeName raw
  nested : ctx.ExtendsNesting
  member : ∀ id symbol, ctx.view.memberSymbol ctx.index id = .ok symbol →
    symbol.segment ≠ "" ∧ Name.IsUndotted symbol.segment
  typeRef : ∀ target, ctx.Refers (.type target) → target.HasNames
  memberRef : ∀ target, ctx.Refers (.member target) → target.segment ≠ "" ∧
    Name.IsUndotted target.segment

section Targets

variable (hw : ctx.WellNamed)

include hw

theorem rootOf_notOpened {owner : String} (h : owner ≠ "" ∧ Name.Balanced owner)
    (hopened : ctx.modules.isOpened owner = false) :
    ctx.modules.rootOf owner = Name.join ctx.modules.externalsRoot (Name.moduleSegment owner) ∧
      Name.moduleSegment owner ≠ "" ∧ Name.Balanced (ctx.modules.rootOf owner) := by
  have hentry : ctx.modules.get? owner = none := Dict.get?_eq_none hopened
  have hroot : ctx.modules.rootOf owner =
      Name.join ctx.modules.externalsRoot (Name.moduleSegment owner) := by
    simp [Modules.rootOf, hentry]
  rw [hroot]
  exact ⟨rfl, Name.moduleSegment_ne_empty h.1, hw.externalsRoot.2.join h.2.moduleSegment⟩

theorem demandModule_grown {owner : String} (h : owner ≠ "" ∧ Name.Balanced owner)
    (hopened : ctx.modules.isOpened owner = false) (hs : ctx.Closed owed s) :
    ctx.Grown owed s (s.demandModule ctx.modules owner) ∧
      ctx.modules.rootOf owner ∈ (s.demandModule ctx.modules owner).names := by
  obtain ⟨hroot, hsegment, -⟩ := rootOf_notOpened hw h hopened
  obtain ⟨hgroup, hgroupName⟩ := demand_grown hs
    (n := .plain ctx.modules.externalsRoot (Name.parent ctx.modules.externalsRoot) .external)
    (Or.inl rfl)
  have hangs : ctx.Hangs ((s.demandGroup ctx.modules).names ++ owed)
      (.plain (ctx.modules.rootOf owner) ctx.modules.externalsRoot .external) := by
    rw [hroot]
    exact Or.inr ⟨Name.isAbove_join hw.externalsRoot.1 hsegment, Or.inr (List.mem_append_left _ hgroupName)⟩
  obtain ⟨hmodule, hmoduleName⟩ := demand_grown hgroup.closed hangs
  exact ⟨hgroup.trans hmodule, hmoduleName⟩

/-- A type in a module that was never opened gets its node, and with it all nodes above it. -/
theorem demandType_grown {t : NamedType} (ht : t.HasNames) {owner : String}
    (howner : t.owner = some owner)
    (hopened : ctx.modules.isOpened owner = false) (hs : ctx.Closed owed s) :
    ctx.Grown owed s (s.demandType ctx.modules t) ∧
      Name.join (ctx.modules.rootOf owner) (Name.typePath t.ns t.nesting) ∈
        (s.demandType ctx.modules t).names := by
  have hroot : ctx.modules.rootOf owner ≠ "" := by
    rw [(rootOf_notOpened hw (ht.owner owner howner) hopened).1]
    exact Name.join_ne_empty (Or.inl hw.externalsRoot.1)
  obtain ⟨hmodule, hmoduleName⟩ := demandModule_grown hw (ht.owner owner howner) hopened hs
  obtain ⟨hns, hnsName⟩ := demandChain_grown .namespacePart
    (fun part hpart => (Sink.of_mem_namespaceParts ht.ns hpart).1) hroot hmodule.closed hmoduleName
  rw [Sink.foldl_join_namespaceParts ht.ns] at hnsName
  have hsegments : ∀ segment ∈ t.nesting.map Name.typeSegment, segment ≠ "" := by
    intro segment hsegment
    obtain ⟨raw, hraw, rfl⟩ := List.mem_map.mp hsegment
    exact Name.moduleSegment_ne_empty (ht.nesting raw hraw).ne_empty
  obtain ⟨htype, htypeName⟩ := demandChain_grown .type hsegments (Name.join_ne_empty (Or.inl hroot))
    hns.closed hnsName
  have hpath : (t.nesting.map Name.typeSegment).foldl Name.join
      (Name.join (ctx.modules.rootOf owner) t.ns) =
      Name.join (ctx.modules.rootOf owner) (Name.typePath t.ns t.nesting) := by
    rw [List.foldl_map, Name.foldl_join, Name.typePath]
  rw [hpath] at htypeName
  simp only [Sink.demandType, howner, Sink.demandChain_snd, Sink.foldl_join_namespaceParts ht.ns]
  exact ⟨(hmodule.trans hns).trans htype, htypeName⟩

theorem demandMember_grown {t : NamedType} (ht : t.HasNames) {owner : String}
    (howner : t.owner = some owner)
    (hopened : ctx.modules.isOpened owner = false) {segment : String}
    (hsegment : segment ≠ "" ∧ Name.IsUndotted segment) (kind : MemberKind)
    (hs : ctx.Closed owed s) :
    ctx.Grown owed s (s.demandMember ctx.modules t
      (Name.join (Name.join (ctx.modules.rootOf owner) (Name.typePath t.ns t.nesting)) segment) kind) := by
  obtain ⟨hroot, -, hbalanced⟩ := rootOf_notOpened hw (ht.owner owner howner) hopened
  obtain ⟨htype, htypeName⟩ := demandType_grown hw ht howner hopened hs
  generalize hname : Name.join (ctx.modules.rootOf owner) (Name.typePath t.ns t.nesting) =
      name at htypeName ⊢
  have hne : name ≠ "" := by
    rw [← hname, hroot]
    exact Name.join_ne_empty (Or.inl (Name.join_ne_empty (Or.inl hw.externalsRoot.1)))
  -- the type is found again by cutting the name of the member
  have hparent : Name.parent (Name.join name segment) = name := by
    refine Name.parent_join hne hsegment.1 ?_ hsegment.2
    rw [← hname]
    exact hbalanced.join (Name.typePath_balanced ht.ns.balanced ht.nesting)
  refine htype.trans (demand_grown htype.closed (Or.inr ?_)).1
  simp only [Node.ofMember, hparent]
  exact ⟨Name.isAbove_join hne hsegment.1, Or.inr (List.mem_append_left _ htypeName)⟩

omit hw in
theorem demandFor_grown {t : NamedType} {demand : Sink → Sink} (hs : ctx.Closed owed s)
    (h : ∀ owner, t.owner = some owner → ctx.modules.isOpened owner = false →
      ctx.Grown owed s (demand s)) :
    ctx.Grown owed s (ctx.demandFor t demand s) := by
  unfold demandFor
  split
  · next hany =>
      obtain ⟨owner, howner, hopened⟩ := (Option.any_eq_true _ _).mp hany
      exact h owner howner (by simpa using hopened)
  · exact .refl hs

theorem typeTarget_grown {t : NamedType} (ht : t.HasNames) (hs : ctx.Closed owed s) :
    ctx.Grown owed s (ctx.typeTarget t s).2 := by
  unfold typeTarget
  split
  · exact .refl hs
  · split
    · exact .refl hs
    · have hdemand : ctx.Grown owed s (ctx.demandFor t (·.demandType ctx.modules t) s) :=
        demandFor_grown hs fun owner howner hopened => (demandType_grown hw ht howner hopened hs).1
      exact hdemand

theorem memberTarget_grown {t : NamedType} (ht : t.HasNames) {segment : String}
    (hsegment : segment ≠ "" ∧ Name.IsUndotted segment) (kind : MemberKind)
    (hs : ctx.Closed owed s) :
    ctx.Grown owed s (ctx.memberTarget t segment kind s).2 := by
  unfold memberTarget
  cases hname : ctx.modules.typeName t with
  | none => exact .refl hs
  | some typeName =>
      have hdemand : ctx.Grown owed s
          (ctx.demandFor t (·.demandMember ctx.modules t (Name.join typeName segment) kind) s) := by
        refine demandFor_grown hs fun owner howner hopened => ?_
        simp only [Modules.typeName, howner, Option.ite_none_left_eq_some,
          Option.some.injEq] at hname
        rw [← hname.2]
        exact demandMember_grown hw ht howner hopened hsegment kind hs
      exact hdemand

theorem keeps_grown (owed : List String) :
    ctx.Keeps fun s s' => ctx.Closed owed s → ctx.Grown owed s s' where
  refl _ hs := .refl hs
  trans h₁ h₂ hs := (h₁ hs).trans (h₂ (h₁ hs).closed)
  link? _ l hs := .link? hs l
  type target _ htarget hs := typeTarget_grown hw (hw.typeRef target htarget) hs
  member target _ htarget hs :=
    memberTarget_grown hw (hw.typeRef _ htarget.declaring)
    (hw.memberRef target htarget) target.kind hs

end Targets

end WalkContext

end CodeGraph
