import CodeGraph.Proofs.Graph.Scope
import CodeGraph.Proofs.Walk.Sent
import CodeGraph.Walk.Members

namespace CodeGraph

/-!
# The links that mentions ask for

What a type, a signature or a body mentions asks for links, in the order of the mentions. The list of
these links depends on nothing that was sent, each of them is computed from one reference, and each
step of a walk hands exactly its part of the list to the dedup of the scope.
-/

/-- From one state of a scope to another exactly the links asked for were handed to its dedup. -/
structure Forwards (asked : List Link) (a b : LinkDedup × Sink) : Prop where
  dedup : b.1 = a.1.after asked
  links : b.2.links = a.2.links ++ a.1.passed asked

namespace Forwards

theorem nothing {d : LinkDedup} {s s' : Sink} (h : s'.links = s.links) :
    Forwards [] (d, s) (d, s') :=
  ⟨rfl, by simp [h]⟩

theorem one {d : LinkDedup} {s s' : Sink} (l : Link) (h : s'.links = s.links) :
    Forwards [l] (d, s) ((d.link l.target l.targetKind l.kind).2,
      s'.link? (d.link l.target l.targetKind l.kind).1) :=
  ⟨rfl, by simp [h, LinkDedup.passed]⟩

theorem trans {xs ys : List Link} {a b c : LinkDedup × Sink} (h₁ : Forwards xs a b)
    (h₂ : Forwards ys b c) : Forwards (xs ++ ys) a c := by
  refine ⟨?_, ?_⟩
  · rw [h₂.dedup, h₁.dedup, LinkDedup.after_append]
  · rw [h₂.links, h₁.links, h₁.dedup, LinkDedup.passed_append, List.append_assoc]

theorem source_eq {asked : List Link} {a b : LinkDedup × Sink} (h : Forwards asked a b) :
    b.1.source = a.1.source := by
  rw [h.dedup, LinkDedup.source_after]

theorem foldl {α : Type} {step : LinkDedup × Sink → α → LinkDedup × Sink} {source : String}
    {asked : α → List Link} (h : ∀ a x, a.1.source = source → Forwards (asked x) a (step a x))
    (xs : List α) (a : LinkDedup × Sink) (ha : a.1.source = source) :
    Forwards (xs.flatMap asked) a (xs.foldl step a) := by
  induction xs generalizing a with
  | nil => exact nothing rfl
  | cons x xs ih =>
      have hx := h a x ha
      rw [List.flatMap_cons, List.foldl_cons]
      exact hx.trans (ih (step a x) (hx.source_eq.trans ha))

theorem isScope {source : String} {asked : List Link} {s : Sink} {b : LinkDedup × Sink}
    (h : Forwards asked (.new source, s) b)
    (hasked : ∀ l ∈ asked, l.source = source ∧ l.target ≠ source) :
    ∃ sent, b.2.links = s.links ++ sent ∧ IsScope source asked sent :=
  ⟨_, h.links, LinkDedup.isScope_passed_new hasked⟩

end Forwards

/-! ## References -/

/-- A type or a member at a place that mentions it. -/
inductive Reference where
  | type (target : NamedType)
  | member (target : MemberRef)

/-- The definition, when it lies in the module being read. -/
def Reference.handle? : Reference → Option Nat
  | .type target => target.handle
  | .member target => target.handle

def TypeRef.references (t : TypeRef) : List Reference :=
  t.namedTypes.map fun n => .type n.1

def TypeSymbol.references (t : TypeSymbol) : List Reference :=
  (t.base.toList ++ t.interfaces).flatMap TypeRef.references

def MemberSymbol.references (m : MemberSymbol) : List Reference :=
  (m.value.toList ++ m.parameters).flatMap TypeRef.references

def BodyRef.references : BodyRef → List Reference
  | .type target _ => target.references
  | .member target _ =>
    .member target :: .type target.declaring :: (target.args ++ target.declaring.args).flatMap TypeRef.references

namespace WalkContext

variable (ctx : WalkContext)

def memberLinkKind (target : MemberRef) : NodeKind :=
  if target.handle.any ctx.isPrivateMember then .privateMember else .member

/-- Name and kind of the node that a reference links to. -/
def linkTarget? : Reference → Option (String × NodeKind)
  | .type target => (ctx.typeLinkName target).map (·, .type)
  | .member target =>
    if target.isLocalFunction ∨ target.isGenerated ∨ target.isImplicitCtor then none
    else (ctx.memberLinkName target).map (·, ctx.memberLinkKind target)

def askedByNamed (source : String) (kind : LinkKind) (skip : Option String) (t : NamedType × Bool) :
    List Link :=
  match ctx.typeLinkName t.1 with
  | none => []
  | some target =>
    if skip = some target ∨ target = source then []
    else [⟨source, target, .type, if t.2 then .genericArgument else kind⟩]

def askedByType (source : String) (kind : LinkKind) (skip : Option String) (t : TypeRef) :
    List Link :=
  t.namedTypes.flatMap (ctx.askedByNamed source kind skip)

def askedByBases (name : String) (symbol : TypeSymbol) : List Link :=
  symbol.base.toList.flatMap (ctx.askedByType name .baseType (some name)) ++
    symbol.interfaces.flatMap (ctx.askedByType name .interface (some name))

def askedBySignature (typeName source : String) (symbol : MemberSymbol) : List Link :=
  match symbol.kind with
  | .method =>
    (if symbol.isConstructor then [] else symbol.value.toList).flatMap
        (ctx.askedByType source .returnType none) ++
      symbol.parameters.flatMap (ctx.askedByType source .parameterType none)
  | _ => symbol.value.toList.flatMap (ctx.askedByType source .variableType (some typeName))

def askedByMember (source : String) (target : MemberRef) (usage : MemberUsage) : List Link :=
  match ctx.memberLinkName target with
  | none => []
  | some name =>
    if name = source then []
    else
      [⟨source, name, ctx.memberLinkKind target, if usage = .access then .memberAccess else .call⟩]

/-- A mention in a body asks for nothing when it is taken in as code of the member itself. -/
def askedByMention (source : String) : BodyRef → List Link
  | .type target usage =>
    match target.asNamed?.filter (·.isGenerated) with
    | some _ => []
    | none => ctx.askedByType source
        (if usage = .generic then .genericArgument else .variableType) none target
  | .member target usage =>
    if target.isLocalFunction ∨ target.isGenerated then []
    else
      (target.args ++ target.declaring.args).flatMap
          (ctx.askedByType source .genericArgument none) ++
        if target.isImplicitCtor then [] else ctx.askedByMember source target usage

/-- The link leaves the source, does not lead back to it, and was computed from one of the references. -/
structure LeadsTo (source : String) (references : List Reference) (l : Link) : Prop where
  source_eq : l.source = source
  target_ne : l.target ≠ source
  computed : ∃ r ∈ references, ctx.linkTarget? r = some l.key

section Asked

variable {ctx} {source : String} {l : Link}

theorem LeadsTo.mono {references more : List Reference} (h : ctx.LeadsTo source references l)
    (hsub : references ⊆ more) : ctx.LeadsTo source more l := by
  obtain ⟨r, hr, hkey⟩ := h.computed
  exact ⟨h.source_eq, h.target_ne, r, hsub hr, hkey⟩

theorem leadsTo_of_askedByNamed {kind : LinkKind} {skip : Option String} {n : NamedType × Bool}
    (h : l ∈ ctx.askedByNamed source kind skip n) : ctx.LeadsTo source [.type n.1] l := by
  unfold askedByNamed at h
  cases hn : ctx.typeLinkName n.1 with
  | none => simp [hn] at h
  | some target =>
      by_cases hskip : skip = some target ∨ target = source
      · simp [hn, hskip] at h
      · simp only [hn, hskip, if_false, List.mem_singleton] at h
        subst h
        refine ⟨rfl, (not_or.mp hskip).2, _, List.mem_singleton_self _, ?_⟩
        simp [linkTarget?, hn, Link.key]

theorem leadsTo_of_askedByTypes {kind : LinkKind} {skip : Option String} {ts : List TypeRef}
    (h : l ∈ ts.flatMap (ctx.askedByType source kind skip)) :
    ctx.LeadsTo source (ts.flatMap TypeRef.references) l := by
  obtain ⟨t, ht, h⟩ := List.mem_flatMap.mp h
  obtain ⟨n, hn, h⟩ := List.mem_flatMap.mp h
  refine (leadsTo_of_askedByNamed h).mono (List.cons_subset.mpr ⟨?_, List.nil_subset _⟩)
  exact List.mem_flatMap.mpr ⟨t, ht, List.mem_map.mpr ⟨n, hn, rfl⟩⟩

theorem leadsTo_of_askedByBases {symbol : TypeSymbol} (h : l ∈ ctx.askedByBases source symbol) :
    ctx.LeadsTo source symbol.references l := by
  rw [TypeSymbol.references, List.flatMap_append]
  rcases List.mem_append.mp h with h | h
  · exact (leadsTo_of_askedByTypes h).mono (List.subset_append_left _ _)
  · exact (leadsTo_of_askedByTypes h).mono (List.subset_append_right _ _)

theorem leadsTo_of_askedBySignature {typeName : String} {symbol : MemberSymbol}
    (h : l ∈ ctx.askedBySignature typeName source symbol) :
    ctx.LeadsTo source symbol.references l := by
  rw [MemberSymbol.references, List.flatMap_append]
  unfold askedBySignature at h
  split at h
  · rcases List.mem_append.mp h with h | h
    · split at h
      · simp at h
      · exact (leadsTo_of_askedByTypes h).mono (List.subset_append_left _ _)
    · exact (leadsTo_of_askedByTypes h).mono (List.subset_append_right _ _)
  · exact (leadsTo_of_askedByTypes h).mono (List.subset_append_left _ _)

theorem leadsTo_of_askedByMention {r : BodyRef} (h : l ∈ ctx.askedByMention source r) :
    ctx.LeadsTo source r.references l := by
  cases r with
  | type target usage =>
      simp only [askedByMention] at h
      split at h
      · simp at h
      · have htypes : l ∈ [target].flatMap (ctx.askedByType source
            (if usage = .generic then .genericArgument else .variableType) none) := by simpa using h
        simpa [BodyRef.references] using leadsTo_of_askedByTypes htypes
  | member target usage =>
      simp only [askedByMention] at h
      split at h
      · simp at h
      · next hplain =>
          rcases List.mem_append.mp h with h | h
          · exact (leadsTo_of_askedByTypes h).mono
              (List.subset_cons_of_subset _ (List.subset_cons_self _ _))
          · split at h
            · simp at h
            · next hctor =>
                unfold askedByMember at h
                cases hname : ctx.memberLinkName target with
                | none => simp [hname] at h
                | some name =>
                    by_cases hself : name = source
                    · simp [hname, hself] at h
                    · simp only [hname, hself, if_false, List.mem_singleton] at h
                      subst h
                      refine ⟨rfl, hself, .member target, List.mem_cons_self, ?_⟩
                      have hlinked : ¬ (target.isLocalFunction = true ∨ target.isGenerated = true ∨
                          target.isImplicitCtor = true) := by tauto
                      simp [linkTarget?, hlinked, hname, Link.key]

end Asked

/-! ## Steps of a walk forward what is asked for -/

theorem linkNamed_forwards (kind : LinkKind) (skip : Option String) (a : LinkDedup × Sink)
    (t : NamedType × Bool) :
    Forwards (ctx.askedByNamed a.1.source kind skip t) a (ctx.linkNamed kind skip a t) := by
  obtain ⟨d, s⟩ := a
  have hlinks := ctx.links_typeTarget t.1 s
  simp only [linkNamed, askedByNamed, typeTarget_fst]
  cases ctx.typeLinkName t.1 with
  | none => exact .nothing hlinks
  | some target =>
      by_cases hskip : skip = some target ∨ target = d.source
      · simpa only [hskip, if_true] using Forwards.nothing hlinks
      · simpa only [hskip, if_false] using
          Forwards.one ⟨d.source, target, .type, if t.2 then .genericArgument else kind⟩ hlinks

theorem linkType_forwards (kind : LinkKind) (skip : Option String) (a : LinkDedup × Sink)
    (t : TypeRef) :
    Forwards (ctx.askedByType a.1.source kind skip t) a (ctx.linkType kind skip a t) := by
  refine Forwards.foldl ?_ t.namedTypes a rfl
  intro b n hb
  exact hb ▸ ctx.linkNamed_forwards kind skip b n

theorem linkTypes_forwards (kind : LinkKind) (skip : Option String) (a : LinkDedup × Sink)
    (ts : List TypeRef) :
    Forwards (ts.flatMap (ctx.askedByType a.1.source kind skip)) a
      (ts.foldl (ctx.linkType kind skip) a) := by
  refine Forwards.foldl ?_ ts a rfl
  intro b t hb
  exact hb ▸ ctx.linkType_forwards kind skip b t

theorem sendTypeLinks_links (name : String) (symbol : TypeSymbol) (s : Sink) :
    (ctx.sendTypeLinks name symbol s).links =
      s.links ++ (LinkDedup.new name).passed (ctx.askedByBases name symbol) := by
  have hbase := ctx.linkTypes_forwards .baseType (some name) (.new name, s) symbol.base.toList
  have hinterfaces := ctx.linkTypes_forwards .interface (some name)
    (symbol.base.toList.foldl (ctx.linkType .baseType (some name)) (.new name, s)) symbol.interfaces
  rw [hbase.source_eq] at hinterfaces
  exact (hbase.trans hinterfaces).links

theorem sendSignature_forwards (typeName : String) (symbol : MemberSymbol) (a : LinkDedup × Sink) :
    Forwards (ctx.askedBySignature typeName a.1.source symbol) a
      (ctx.sendSignature typeName symbol a) := by
  cases hkind : symbol.kind with
  | method =>
      have hvalue := ctx.linkTypes_forwards .returnType none a
        (if symbol.isConstructor then [] else symbol.value.toList)
      have hparameters := ctx.linkTypes_forwards .parameterType none
        ((if symbol.isConstructor then [] else symbol.value.toList).foldl
          (ctx.linkType .returnType none) a)
        symbol.parameters
      rw [hvalue.source_eq] at hparameters
      simpa only [askedBySignature, sendSignature, hkind] using hvalue.trans hparameters
  | field | property | event =>
      simpa only [askedBySignature, sendSignature, hkind] using
        ctx.linkTypes_forwards .variableType (some typeName) a symbol.value.toList

end WalkContext

end CodeGraph
