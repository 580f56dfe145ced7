import CodeGraph.Proofs.Walk.OnDemand

namespace CodeGraph

/-!
# Where links lead

A link leads to a type, or to a member of a type, whose module may be linked to. When that module was
never opened no walk over it will send the node that the link leads to, so that it has to be there
already: sent on demand, in this walk or in an earlier one with the same memory.
-/

def nodeNames (items : List Item) : List String :=
  (items.filterMap Item.node?).map (·.name)

namespace WalkContext

variable (ctx : WalkContext)

/-- The name of the type, or of one of its members that is mentioned, with its kind. -/
inductive NameOf (owner : String) (t : NamedType) : String × NodeKind → Prop
  | type : NameOf owner t
      (Name.join (ctx.modules.rootOf owner) (Name.typePath t.ns t.nesting), .type)
  | member (target : MemberRef) (h : ctx.Refers (.member target)) (hdeclaring : target.declaring = t) :
      NameOf owner t
        (Name.join (Name.join (ctx.modules.rootOf owner) (Name.typePath t.ns t.nesting)) target.segment,
          ctx.memberLinkKind target)

/-- The link leads to the type or to a member of it, when nodes with these names were sent before. -/
structure SoundTarget (sent : List String) (l : Link) (t : NamedType) (owner : String) : Prop where
  refers : ctx.Refers (.type t)
  owner_eq : t.owner = some owner
  notIgnored : ctx.modules.isInternal owner = true ∨ ctx.modules.ignored.covers owner = false
  plain : ∀ raw ∈ t.nesting, Name.isGenerated raw = false
  name : ctx.NameOf owner t l.key
  sent : ctx.modules.isOpened owner = false → Sink.HasParts t.ns → l.target ∈ sent

/-- From one sink to another every link that was sent found its node when that had to be there. -/
structure LinksSoundly (sent : List Item) (s s' : Sink) : Prop where
  items : s'.items.toList = s.items.toList ++ sent
  onDemand : s'.onDemand ⊆ s.onDemand ++ nodeNames sent
  sound : ∀ before l after, sent = before ++ .link l :: after →
    ∃ t owner, ctx.SoundTarget (s.onDemand ++ nodeNames before) l t owner

variable {ctx} {sent sent' : List Item} {s s' s'' : Sink}

theorem SoundTarget.mono {names names' : List String} {l : Link} {t : NamedType} {owner : String}
    (h : ctx.SoundTarget names l t owner) (hsub : names ⊆ names') :
    ctx.SoundTarget names' l t owner :=
  ⟨h.refers, h.owner_eq, h.notIgnored, h.plain, h.name, fun hopened hparts => hsub (h.sent hopened hparts)⟩

namespace LinksSoundly

theorem refl (s : Sink) : ctx.LinksSoundly [] s s :=
  ⟨by simp, by simp, by simp⟩

theorem trans (h : ctx.LinksSoundly sent s s') (h' : ctx.LinksSoundly sent' s' s'') :
    ctx.LinksSoundly (sent ++ sent') s s'' := by
  have hnames : ∀ before, nodeNames (sent ++ before) = nodeNames sent ++ nodeNames before := by
    simp [nodeNames]
  have hearlier : ∀ before, s'.onDemand ++ nodeNames before ⊆
      s.onDemand ++ nodeNames (sent ++ before) := by
    intro before
    rw [hnames, ← List.append_assoc]
    exact List.append_subset.mpr ⟨List.subset_append_of_subset_left _ h.onDemand,
      List.subset_append_right _ _⟩
  refine ⟨?_, List.Subset.trans h'.onDemand (hearlier sent'), ?_⟩
  · rw [h'.items, h.items, List.append_assoc]
  · intro before l after heq
    rcases List.append_eq_append_iff.mp heq with ⟨more, rfl, hmore⟩ | ⟨more, hsent, hmore⟩
    · obtain ⟨t, owner, hsound⟩ := h'.sound more l after hmore
      exact ⟨t, owner, hsound.mono (hearlier more)⟩
    · rcases List.cons_eq_append_iff.mp hmore with ⟨rfl, hafter⟩ | ⟨rest, rfl, -⟩
      · -- the link is the first of the later items
        obtain ⟨t, owner, hsound⟩ := h'.sound [] l after hafter
        have hbefore : before = sent := by simpa using hsent.symm
        subst hbefore
        exact ⟨t, owner, hsound.mono (by simpa using hearlier [])⟩
      · exact h.sound before l rest hsent

theorem node (s : Sink) (n : Node) : ctx.LinksSoundly [.node n] s (s.node n) := by
  refine ⟨by simp [Sink.node], by simp, ?_⟩
  intro before l after heq
  rcases List.append_eq_cons_iff.mp heq.symm with ⟨-, h⟩ | ⟨rest, -, h⟩
  · cases h
  · simp at h

theorem link (s : Sink) {l : Link} {t : NamedType} {owner : String}
    (h : ctx.SoundTarget s.onDemand l t owner) : ctx.LinksSoundly [.link l] s (s.link l) := by
  refine ⟨by simp [Sink.link], by simp, ?_⟩
  intro before k after heq
  rcases List.append_eq_cons_iff.mp heq.symm with ⟨rfl, hk⟩ | ⟨rest, -, hk⟩
  · cases hk
    exact ⟨t, owner, h.mono (List.subset_append_left _ _)⟩
  · simp at hk

/-- What is sent on demand holds no link. -/
theorem demanded {nodes : List Node} (h : ctx.Sends [] nodes s s') (hlinks : s'.links = s.links) :
    ∃ sent, ctx.LinksSoundly sent s s' := by
  obtain ⟨sent, hitems, hnodes⟩ := h.exists_sent
  refine ⟨sent, hitems, ?_, ?_⟩
  · rw [h.onDemand]
    intro name hname
    rcases List.mem_append.mp hname with hname | hname
    · have hperm : (nodeNames sent).Perm (nodes.map (·.name)) := hnodes.map _
      exact List.mem_append_right _ (hperm.mem_iff.mpr (List.mem_reverse.mp hname))
    · exact List.mem_append_left _ hname
  · intro before l after heq
    rw [Sink.links, Sink.links, hitems, List.filterMap_append, List.append_right_eq_self,
      List.filterMap_eq_nil_iff] at hlinks
    have hnone := hlinks (.link l) (by rw [heq]; simp)
    cases hnone

/-- Nodes on demand, and a link that may be sent behind them. -/
theorem link? {nodes : List Node} (h : ctx.Sends [] nodes s s') (hlinks : s'.links = s.links)
    {l : Link} {t : NamedType} {owner : String} (hl : ctx.SoundTarget s'.onDemand l t owner)
    (d : LinkDedup) :
    ∃ sent, ctx.LinksSoundly sent s (s'.link? (d.link l.target l.targetKind l.kind).1) := by
  obtain ⟨sent, hsent⟩ := demanded h hlinks
  by_cases hseen : l.key ∈ d.seen
  · rw [LinkDedup.link_of_mem hseen]
    exact ⟨sent, hsent⟩
  · rw [LinkDedup.link_of_notMem hseen]
    have hown : ctx.SoundTarget s'.onDemand { l with source := d.source } t owner :=
      ⟨hl.refers, hl.owner_eq, hl.notIgnored, hl.plain, hl.name, hl.sent⟩
    exact ⟨_, hsent.trans (LinksSoundly.link s' hown)⟩

end LinksSoundly

/-! ## Targets -/

/-- Links may lead to a type that has a name. -/
theorem owner_of_typeName {t : NamedType} {name : String} (h : ctx.modules.typeName t = some name) :
    ∃ owner, t.owner = some owner ∧
      (ctx.modules.isInternal owner = true ∨ ctx.modules.ignored.covers owner = false) ∧
      name = Name.join (ctx.modules.rootOf owner) (Name.typePath t.ns t.nesting) := by
  unfold Modules.typeName at h
  cases howner : t.owner with
  | none => simp [howner] at h
  | some owner =>
      simp only [howner, Option.ite_none_left_eq_some, Option.some.injEq, Modules.isIgnored,
        Bool.and_eq_true, Bool.not_eq_true', not_and, Bool.not_eq_true] at h
      obtain ⟨hignored, rfl⟩ := h
      refine ⟨owner, rfl, ?_, rfl⟩
      cases hinternal : ctx.modules.isInternal owner with
      | true => exact Or.inl rfl
      | false => exact Or.inr (hignored hinternal)

/-- The name that a link uses and the one that is built part by part are the same. -/
theorem typeName_mem_neededNodes (m : Modules) (owner : String) {t : NamedType}
    (hparts : Sink.HasParts t.ns) :
    Name.join (m.rootOf owner) (Name.typePath t.ns t.nesting) ∈
      (m.neededNodes owner t).map (·.name) := by
  have hpath := m.path_mem_neededNodes owner t
  rwa [hparts.foldl_join, List.foldl_map, Name.foldl_join] at hpath

theorem isGenerated_eq_false_iff {t : NamedType} :
    t.isGenerated = false ↔ ∀ raw ∈ t.nesting, Name.isGenerated raw = false := by
  simp [Named.isGenerated]

theorem typeTarget_sound {t : NamedType} (hrefers : ctx.Refers (.type t)) (s : Sink) {name : String}
    (hname : ctx.typeLinkName t = some name) (source : String) (kind : LinkKind) :
    ∃ owner, ctx.SoundTarget (ctx.typeTarget t s).2.onDemand ⟨source, name, .type, kind⟩ t owner := by
  obtain ⟨hplain, htypeName⟩ : t.isGenerated = false ∧ ctx.modules.typeName t = some name := by
    simpa [typeLinkName] using hname
  obtain ⟨owner, howner, hignored, rfl⟩ := owner_of_typeName htypeName
  refine ⟨owner, hrefers, howner, hignored, isGenerated_eq_false_iff.mp hplain, .type, ?_⟩
  intro hopened hparts
  obtain ⟨n, hn, heq⟩ := List.mem_map.mp (typeName_mem_neededNodes ctx.modules owner hparts)
  exact heq ▸ (typeTarget_sends hrefers s).2 _ owner hname howner hopened n hn

theorem memberTarget_sound {target : MemberRef} (hrefers : ctx.Refers (.member target))
    (hplain : target.isGenerated = false) (s : Sink) {name : String}
    (hname : ctx.memberLinkName target = some name) (source : String) (kind : LinkKind) :
    ∃ owner, ctx.SoundTarget
      (ctx.memberTarget target.declaring target.segment target.kind s).2.onDemand
      ⟨source, name, ctx.memberLinkKind target, kind⟩ target.declaring owner := by
  obtain ⟨typeName, htypeName, rfl⟩ := Option.map_eq_some_iff.mp hname
  obtain ⟨owner, howner, hignored, rfl⟩ := owner_of_typeName htypeName
  have hdeclaring := isGenerated_eq_false_iff.mp (Bool.or_eq_false_iff.mp hplain).2
  refine ⟨owner, hrefers.declaring, howner, hignored, hdeclaring, .member target hrefers rfl, ?_⟩
  intro hopened _
  exact (memberTarget_sends hrefers s).2 _ owner hname howner hopened

theorem keepsLinks_sound : ctx.KeepsLinks fun s s' => ∃ sent, ctx.LinksSoundly sent s s' where
  refl s := ⟨[], .refl s⟩
  trans := fun ⟨_, h⟩ ⟨_, h'⟩ => ⟨_, h.trans h'⟩
  named kind skip n a hrefers := by
    obtain ⟨d, s⟩ := a
    obtain ⟨⟨demanded, hsends⟩, -⟩ := typeTarget_sends hrefers s
    have hlinks := ctx.links_typeTarget n.1 s
    simp only [linkNamed, typeTarget_fst]
    cases hname : ctx.typeLinkName n.1 with
    | none => exact LinksSoundly.demanded hsends hlinks
    | some name =>
        by_cases hskip : skip = some name ∨ name = d.source
        · simpa only [hskip, if_true] using LinksSoundly.demanded hsends hlinks
        · simp only [hskip, if_false]
          obtain ⟨owner, hsound⟩ := typeTarget_sound hrefers s hname d.source
            (if n.2 then .genericArgument else kind)
          exact LinksSoundly.link? hsends hlinks hsound d
  member target usage a hrefers hplain := by
    obtain ⟨d, s⟩ := a
    obtain ⟨⟨demanded, hsends⟩, -⟩ := memberTarget_sends hrefers s
    have hlinks := ctx.links_memberTarget target.declaring target.segment target.kind s
    simp only [linkMember, memberTarget_fst, BodyState.scope]
    cases hname : ctx.memberLinkName target with
    | none => exact LinksSoundly.demanded hsends hlinks
    | some name =>
        by_cases hself : name = d.source
        · simpa only [hself, if_true] using LinksSoundly.demanded hsends hlinks
        · simp only [hself, if_false]
          obtain ⟨owner, hsound⟩ := memberTarget_sound hrefers hplain s hname d.source
            (if usage = .access then .memberAccess else .call)
          exact LinksSoundly.link? hsends hlinks hsound d

/-- Every link of a walk leads to a type, or to a member of one, that no compiler made and whose module is
not ignored; when that module was never opened, the node is there before the link, and what is remembered
as sent on demand was sent. Apart from the nodes of its own types, namespaces and members, a walk sends
only nodes that modules outside need. -/
theorem link_targets_sound (s : Sink) :
    ∃ sent, (ctx.walk s).items.toList = s.items.toList ++ sent ∧
      (∀ before l after, sent = before ++ .link l :: after →
        ∃ t owner, ctx.SoundTarget (s.onDemand ++ nodeNames before) l t owner) ∧
      (s.onDemand ⊆ s.names → (ctx.walk s).onDemand ⊆ (ctx.walk s).names) ∧
      ∃ own demanded, ctx.Sends own demanded s (ctx.walk s) ∧
        own.map (·.name) = (ctx.walkTypes s).1.named.map (·.1) ++
          (namespaceNodes (ctx.typesMet s).namespaces).map (·.name) ++
          (ctx.walkedMembers (ctx.walkTypes s).1).map WalkedMember.name := by
  obtain ⟨sent, hsent⟩ := keepsLinks_sound.walk (fun s n => ⟨[.node n], .node s n⟩) s
  obtain ⟨types, demanded, hsends, hnames⟩ := ctx.walk_sends s
  refine ⟨sent, hsent.items, hsent.sound, hsends.onDemand_subset_names, _, demanded, hsends, ?_⟩
  rw [List.map_append, List.map_append, hnames, List.map_map]
  rfl

end WalkContext

end CodeGraph
