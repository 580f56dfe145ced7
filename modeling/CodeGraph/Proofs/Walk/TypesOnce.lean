import CodeGraph.Proofs.Name.MemberNames
import CodeGraph.Proofs.Walk.OnDemand

namespace CodeGraph

/-!
# Every type is met once

A type is met from the top level or from the type around it. As long as nothing is listed twice, no type
that waits is one that was sent, or lies around one; so the types that are sent are pairwise different.
Of the namespaces each name is kept once, however many types lie in it.
-/

namespace TypeSymbol

/-- The other type is this one, or it lies inside of it. -/
def Encloses (t u : TypeSymbol) : Prop :=
  t.ns = u.ns ∧ t.nesting <+: u.nesting

def Apart (t u : TypeSymbol) : Prop :=
  ¬ t.Encloses u ∧ ¬ u.Encloses t

/-- The other type is nested directly in this one. -/
def Holds (t u : TypeSymbol) : Prop :=
  u.ns = t.ns ∧ ∃ raw, u.nesting = t.nesting ++ [raw]

theorem Apart.symm {t u : TypeSymbol} (h : t.Apart u) : u.Apart t :=
  ⟨h.2, h.1⟩

theorem Holds.encloses {t u v : TypeSymbol} (h : t.Holds u) (hv : u.Encloses v) : t.Encloses v := by
  obtain ⟨hns, raw, hnesting⟩ := h
  refine ⟨hns.symm.trans hv.1, List.IsPrefix.trans ?_ hv.2⟩
  rw [hnesting]
  exact List.prefix_append _ _

theorem Holds.not_encloses {t u : TypeSymbol} (h : t.Holds u) : ¬ u.Encloses t := by
  obtain ⟨-, raw, hnesting⟩ := h
  rintro ⟨-, hin⟩
  have hlength := hin.length_le
  rw [hnesting, List.length_append, List.length_singleton] at hlength
  omega

/-- What is apart from a type is apart from those nested in it. -/
theorem Holds.apart {t u v : TypeSymbol} (h : t.Holds u) (hv : t.Apart v) : u.Apart v := by
  refine ⟨fun huv => hv.1 (h.encloses huv), fun hvu => ?_⟩
  obtain ⟨hns, raw, hnesting⟩ := h
  obtain ⟨hvns, hin⟩ := hvu
  rw [hnesting, List.prefix_concat_iff] at hin
  rcases hin with heq | hin
  · exact hv.1 ⟨hns.symm.trans hvns.symm, heq ▸ List.prefix_append _ _⟩
  · exact hv.2 ⟨hvns.trans hns, hin⟩

end TypeSymbol

namespace WalkContext

variable (ctx : WalkContext)

/-- Every type has one handle, which is listed once: at the top level, or in the type around it. -/
structure ListsOnce : Prop where
  different : ∀ id id' t u, ctx.view.typeSymbol ctx.index id = .ok t →
    ctx.view.typeSymbol ctx.index id' = .ok u → t.ns = u.ns → t.nesting = u.nesting → id = id'
  topLevel : ctx.view.topLevel.Nodup
  outermost : ∀ id ∈ ctx.view.topLevel, ∀ t, ctx.view.typeSymbol ctx.index id = .ok t →
    t.nesting.length = 1
  nested : ∀ id, (ctx.view.nested id).Nodup
  extending : ctx.ExtendsNesting

/-- The types that are sent differ, and what waits is apart from all else. -/
structure MetOnce (state : TypeWalkState) (pending : List (Nat × Option String)) : Prop where
  different : state.walk.named.Pairwise fun a b => ¬ (a.2.ns = b.2.ns ∧ a.2.nesting = b.2.nesting)
  fresh : ∀ p ∈ pending, ∀ t, ctx.view.typeSymbol ctx.index p.1 = .ok t →
    ∀ type ∈ state.walk.named, ¬ t.Encloses type.2
  apart : pending.Pairwise fun p q => ∀ t u, ctx.view.typeSymbol ctx.index p.1 = .ok t →
    ctx.view.typeSymbol ctx.index q.1 = .ok u → t.Apart u

variable {ctx}

theorem MetOnce.rotate {state : TypeWalkState} {types rest : List (Nat × Option String)}
    (h : ctx.MetOnce state (types ++ rest)) : ctx.MetOnce state (rest ++ types) := by
  refine ⟨h.different, fun p hp => h.fresh p (List.mem_append.mpr (List.mem_append.mp hp).symm), ?_⟩
  refine (List.pairwise_append_comm ?_).mp h.apart
  exact fun hpq t u ht hu => (hpq u t hu ht).symm

variable (hl : ctx.ListsOnce)

include hl

/-- Types of one nesting depth are apart when their handles differ. -/
theorem ListsOnce.apart {id id' : Nat} (hne : id ≠ id') {t u : TypeSymbol}
    (ht : ctx.view.typeSymbol ctx.index id = .ok t) (hu : ctx.view.typeSymbol ctx.index id' = .ok u)
    (hlength : t.nesting.length = u.nesting.length) : t.Apart u := by
  refine ⟨?_, ?_⟩
  · rintro ⟨hns, hin⟩
    exact hne (hl.different id id' t u ht hu hns (hin.eq_of_length hlength))
  · rintro ⟨hns, hin⟩
    exact hne (hl.different id' id u t hu ht hns (hin.eq_of_length hlength.symm)).symm

theorem MetOnce.sent {state : TypeWalkState} {id : Nat} {declaring : Option String}
    {pending : List (Nat × Option String)} {symbol : TypeSymbol}
    (h : ctx.MetOnce state ((id, declaring) :: pending))
    (hsymbol : ctx.view.typeSymbol ctx.index id = .ok symbol) (name : String) :
    ctx.MetOnce (ctx.sendType state declaring symbol)
      ((ctx.view.nested id).map (·, some name) ++ pending) := by
  obtain ⟨hself, hapart⟩ := List.pairwise_cons.mp h.apart
  have hchild : ∀ child ∈ ctx.view.nested id, ∀ t, ctx.view.typeSymbol ctx.index child = .ok t →
      symbol.Holds t :=
    fun child hchild t ht => hl.extending id symbol hsymbol child hchild t ht
  have hfresh := h.fresh (id, declaring) List.mem_cons_self symbol hsymbol
  refine ⟨?_, ?_, List.pairwise_append.mpr ⟨?_, hapart, ?_⟩⟩
  · simp only [sendType, named_push_sent]
    refine List.pairwise_append.mpr ⟨h.different, List.pairwise_singleton _ _, ?_⟩
    intro type htype new hnew
    obtain rfl := List.mem_singleton.mp hnew
    exact fun heq => hfresh type htype ⟨heq.1.symm, heq.2 ▸ List.prefix_rfl⟩
  · intro p hp t ht type htype
    simp only [sendType, named_push_sent, List.mem_append, List.mem_singleton] at htype
    rcases List.mem_append.mp hp with hp | hp
    · obtain ⟨child, hmem, rfl⟩ := List.mem_map.mp hp
      have hholds := hchild child hmem t ht
      rcases htype with htype | rfl
      · exact fun hin => hfresh type htype (hholds.encloses hin)
      · exact hholds.not_encloses
    · rcases htype with htype | rfl
      · exact h.fresh p (List.mem_cons_of_mem _ hp) t ht type htype
      · exact (hself p hp symbol t hsymbol ht).2
  · refine List.pairwise_map.mpr (List.Pairwise.imp_of_mem ?_ (hl.nested id))
    intro i j hi hj hne t u ht hu
    obtain ⟨-, raw, hnesting⟩ := hchild i hi t ht
    obtain ⟨-, raw', hnesting'⟩ := hchild j hj u hu
    exact hl.apart hne ht hu (by simp [hnesting, hnesting'])
  · intro p hp q hq t u ht hu
    obtain ⟨child, hmem, rfl⟩ := List.mem_map.mp hp
    exact (hchild child hmem t ht).apart (hself q hq symbol u hsymbol hu)

theorem MetOnce.step {state : TypeWalkState} {id : Nat} {declaring : Option String}
    {pending : List (Nat × Option String)} {result : TypeWalkState × List (Nat × Option String)}
    (hmet : ctx.TypeMet state id declaring result)
    (h : ctx.MetOnce state ((id, declaring) :: pending)) :
    ctx.MetOnce result.1 (result.2 ++ pending) := by
  have hrest : ctx.MetOnce state pending :=
    ⟨h.different, fun p hp => h.fresh p (List.mem_cons_of_mem _ hp), (List.pairwise_cons.mp h.apart).2⟩
  cases hmet with
  | unread | madeUp | globalDoc => exact hrest
  | doc symbol => exact ⟨hrest.different, hrest.fresh, hrest.apart⟩
  | async symbol =>
      refine ⟨?_, ?_, hrest.apart⟩
      · simpa only [rememberAsync, named_push_async] using hrest.different
      · simpa only [rememberAsync, named_push_async, List.nil_append] using hrest.fresh
  | sent symbol hsymbol => exact h.sent hl hsymbol _

/-- No two of the types that are sent have one namespace and one nesting chain. -/
theorem named_different (s : Sink) :
    (ctx.walkTypes s).1.named.Pairwise fun a b => ¬ (a.2.ns = b.2.ns ∧ a.2.nesting = b.2.nesting) := by
  have start : ctx.MetOnce ⟨.empty, .empty, s⟩ (ctx.view.topLevel.map (·, none) ++ []) := by
    refine ⟨by simp [TypeWalk.named, TypeWalk.empty], by simp [TypeWalk.named, TypeWalk.empty], ?_⟩
    rw [List.append_nil]
    refine List.pairwise_map.mpr (List.Pairwise.imp_of_mem ?_ hl.topLevel)
    intro i j hi hj hne t u ht hu
    exact hl.apart hne ht hu (by rw [hl.outermost i hi t ht, hl.outermost j hj u hu])
  obtain ⟨left, h, -⟩ := ctx.walkNested_invariant (P := ctx.MetOnce)
    (fun _ _ _ _ _ hmet h => MetOnce.step hl hmet h) (fun _ _ _ h => h.rotate)
    (ctx.view.typeCount + 1) _ _ [] start
  exact h.different

omit hl

/-! ## The names of types -/

/-- A type that a compiler did not make. -/
structure Declares (ctx : WalkContext) (t : TypeSymbol) : Prop where
  readable : ∃ id, ctx.view.typeSymbol ctx.index id = .ok t
  plain : t.isMadeUp = false

/-- The names of what was declared are such as metadata and sources have them. -/
structure HasTexts (ctx : WalkContext) : Prop where
  ns : ∀ t, ctx.Declares t → Name.IsNamespace t.ns
  type : ∀ t, ctx.Declares t → Name.IsTypeText t.name
  member : ∀ id m, ctx.view.memberSymbol ctx.index id = .ok m → m.isSkipped = false →
    Name.IsMemberText m.name ∧ ∀ p ∈ m.signature, Name.IsParameterText p

/-- A type with a node, with the name of the node. -/
structure OwnsNode (ctx : WalkContext) (type : String × TypeSymbol) : Prop where
  name : type.1 = ctx.ownTypeName type.2.ns type.2.nesting
  declared : ctx.Declares type.2
  notDoc : ¬ type.2.IsNamespaceDoc
  texts : ∀ raw ∈ type.2.nesting, Name.IsTypeText raw
  ne_nil : type.2.nesting ≠ []

/-- The types around one that waits have names of types. -/
structure NestingTexts (ctx : WalkContext) (state : TypeWalkState)
    (pending : List (Nat × Option String)) : Prop where
  named : ∀ type ∈ state.walk.named, ctx.OwnsNode type
  pending : ∀ p ∈ pending, ∀ t, ctx.view.typeSymbol ctx.index p.1 = .ok t →
    ∃ outer raw, t.nesting = outer ++ [raw] ∧ ∀ raw ∈ outer, Name.IsTypeText raw

theorem HasTexts.nesting (ht : ctx.HasTexts) {t : TypeSymbol} (hdeclared : ctx.Declares t)
    {outer : List String} {last : String} (hnesting : t.nesting = outer ++ [last])
    (houter : ∀ raw ∈ outer, Name.IsTypeText raw) : ∀ raw ∈ t.nesting, Name.IsTypeText raw := by
  have hname : t.name = last := by simp [TypeSymbol.name, hnesting]
  intro raw hraw
  rw [hnesting] at hraw
  rcases List.mem_append.mp hraw with hraw | hraw
  · exact houter raw hraw
  · rw [List.mem_singleton.mp hraw, ← hname]
    exact ht.type t hdeclared

theorem NestingTexts.step (ht : ctx.HasTexts) (hextends : ctx.ExtendsNesting) {state : TypeWalkState}
    {id : Nat} {declaring : Option String} {pending : List (Nat × Option String)}
    {result : TypeWalkState × List (Nat × Option String)}
    (hmet : ctx.TypeMet state id declaring result)
    (h : ctx.NestingTexts state ((id, declaring) :: pending)) :
    ctx.NestingTexts result.1 (result.2 ++ pending) := by
  have hrest : ∀ p ∈ pending, ∀ t, ctx.view.typeSymbol ctx.index p.1 = .ok t →
      ∃ outer raw, t.nesting = outer ++ [raw] ∧ ∀ raw ∈ outer, Name.IsTypeText raw :=
    fun p hp => h.pending p (List.mem_cons_of_mem _ hp)
  cases hmet with
  | unread | madeUp | globalDoc | doc => exact ⟨h.named, hrest⟩
  | async symbol =>
      refine ⟨?_, hrest⟩
      simpa only [rememberAsync, named_push_async] using h.named
  | sent symbol hsymbol hplain hdoc =>
      have hdeclared : ctx.Declares symbol := ⟨⟨id, hsymbol⟩, hplain⟩
      obtain ⟨outer, raw, hnesting, houter⟩ := h.pending _ List.mem_cons_self symbol hsymbol
      have htexts := ht.nesting hdeclared hnesting houter
      refine ⟨?_, ?_⟩
      · simp only [sendType, named_push_sent]
        intro type htype
        rcases List.mem_append.mp htype with htype | htype
        · exact h.named type htype
        · obtain rfl := List.mem_singleton.mp htype
          exact ⟨rfl, hdeclared, hdoc, htexts, by simp [hnesting]⟩
      · intro p hp t ht
        rcases List.mem_append.mp hp with hp | hp
        · obtain ⟨child, hchild, rfl⟩ := List.mem_map.mp hp
          obtain ⟨-, raw, heq⟩ := hextends id symbol hsymbol child hchild t ht
          exact ⟨symbol.nesting, raw, heq, htexts⟩
        · exact hrest p hp t ht

theorem named_ownsNode (ht : ctx.HasTexts) (hl : ctx.ListsOnce) (s : Sink) :
    ∀ type ∈ (ctx.walkTypes s).1.named, ctx.OwnsNode type := by
  have start : ctx.NestingTexts ⟨.empty, .empty, s⟩ (ctx.view.topLevel.map (·, none) ++ []) := by
    refine ⟨by simp [TypeWalk.named, TypeWalk.empty], ?_⟩
    intro p hp t ht
    rw [List.append_nil] at hp
    obtain ⟨id, hid, rfl⟩ := List.mem_map.mp hp
    obtain ⟨raw, hnesting⟩ := List.length_eq_one_iff.mp (hl.outermost id hid t ht)
    exact ⟨[], raw, hnesting, by simp⟩
  obtain ⟨left, h, -⟩ := ctx.walkNested_invariant (P := ctx.NestingTexts)
    (fun _ _ _ _ _ hmet h => NestingTexts.step ht hl.extending hmet h)
    (fun _ _ _ h => ⟨h.named, fun p hp => h.pending p (List.mem_append.mpr (List.mem_append.mp hp).symm)⟩)
    (ctx.view.typeCount + 1) _ _ [] start
  exact h.named

/-! ## Namespaces -/

end WalkContext

theorem mem_chainBelow {top name : String} {parts : List String} :
    name ∈ chainBelow top parts ↔
      ∃ init, init ≠ [] ∧ init <+: parts ∧ name = init.foldl Name.join top := by
  induction parts generalizing top with
  | nil =>
      simp only [chainBelow, List.not_mem_nil, List.prefix_nil, false_iff]
      rintro ⟨init, hne, rfl, -⟩
      exact hne rfl
  | cons part parts ih =>
      rw [chainBelow, List.mem_cons, ih]
      constructor
      · rintro (rfl | ⟨init, -, hin, rfl⟩)
        · exact ⟨[part], by simp, by simp, rfl⟩
        · exact ⟨part :: init, by simp, by simpa using hin, rfl⟩
      · rintro ⟨init, hne, hin, rfl⟩
        obtain ⟨first, init, rfl⟩ := List.exists_cons_of_ne_nil hne
        obtain ⟨rfl, hmore⟩ := List.cons_prefix_cons.mp hin
        by_cases hinit : init = []
        · exact Or.inl (by simp [hinit])
        · exact Or.inr ⟨init, hinit, hmore, rfl⟩

namespace Namespaces

theorem nodup_keys_register {n : Namespaces} (hn : n.keys.Nodup) (root ns : String) :
    (n.register root ns).keys.Nodup := by
  unfold register
  generalize namespaceChain root ns = chain
  induction chain generalizing n with
  | nil => exact hn
  | cons first chain ih =>
      rw [List.foldl_cons]
      apply ih
      split
      · exact hn
      · exact Dict.nodup_keys_insert hn first none

end Namespaces

namespace WalkContext

variable {ctx : WalkContext}

/-- Each namespace stands once, and it is that of a declared type, or lies around one. -/
structure NamespacesOnce (ctx : WalkContext) (namespaces : Namespaces) : Prop where
  nodup : namespaces.keys.Nodup
  declared : ∀ name ∈ namespaces.keys, ∃ t, ctx.Declares t ∧ name ∈ namespaceChain ctx.root t.ns

theorem NamespacesOnce.register {namespaces : Namespaces} (h : ctx.NamespacesOnce namespaces)
    {t : TypeSymbol} (ht : ctx.Declares t) :
    ctx.NamespacesOnce (namespaces.register ctx.root t.ns) := by
  refine ⟨Namespaces.nodup_keys_register h.nodup _ _, fun name hname => ?_⟩
  rcases (Namespaces.mem_keys_register _ _ _ _).mp hname with hname | hname
  · exact h.declared name hname
  · exact ⟨t, ht, hname⟩

theorem typesMet_namespacesOnce (hroot : ctx.root ≠ "") (ht : ctx.HasTexts) (s : Sink) :
    ctx.NamespacesOnce (ctx.typesMet s).namespaces := by
  let P : TypeWalkState → List (Nat × Option String) → Prop :=
    fun state _ => ctx.NamespacesOnce state.namespaces
  have step : ∀ state id declaring pending result, ctx.TypeMet state id declaring result →
      P state ((id, declaring) :: pending) → P result.1 (result.2 ++ pending) := by
    intro state id declaring pending result hmet h
    cases hmet with
    | unread | madeUp | async | globalDoc => exact h
    | doc symbol hsymbol hplain _ hns =>
        have hdeclared : ctx.Declares symbol := ⟨⟨id, hsymbol⟩, hplain⟩
        have hregistered := NamespacesOnce.register h hdeclared
        refine ⟨Dict.nodup_keys_insert hregistered.nodup _ _, fun name hname => ?_⟩
        rcases Dict.mem_keys_insert.mp hname with rfl | hname
        · rcases Namespaces.mem_keys_register_self state.namespaces ctx.root (ht.ns symbol hdeclared)
            with hself | hself
          · exact absurd (hself.symm ▸ Name.IsWithin.refl ctx.root) (Name.not_isWithin_join hroot hns)
          · exact hregistered.declared _ hself
        · exact hregistered.declared name hname
    | sent symbol hsymbol hplain =>
        have hkept : ctx.NamespacesOnce (if declaring.isNone then
            state.namespaces.register ctx.root symbol.ns else state.namespaces) := by
          split
          · exact NamespacesOnce.register h ⟨⟨id, hsymbol⟩, hplain⟩
          · exact h
        exact hkept
  have start : P ⟨.empty, .empty, s⟩ (ctx.view.topLevel.map (·, none)) := ⟨by simp, by simp⟩
  obtain ⟨left, h, -⟩ :=
    ctx.walkNested_invariant step (fun _ _ _ h => h) (ctx.view.typeCount + 1) _ _ [] start
  exact h

end WalkContext

end CodeGraph
