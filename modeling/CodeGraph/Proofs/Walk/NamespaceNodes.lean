import CodeGraph.Proofs.Graph.Tally
import CodeGraph.Proofs.Name.Ancestors
import CodeGraph.Proofs.Walk.TypeOrder
import CodeGraph.Proofs.Walk.UniqueNames

namespace CodeGraph

/-!
# The nodes of namespaces

A type at the top level brings its namespace and those around it, and the comment type of a namespace
brings its description. What is known of a namespace in the end depends only on which types stand at the
top level: a level that is brought again keeps its description, and one comment speaks for each namespace.
-/

namespace Name

theorem foldl_join_eq (root : String) (parts : List String) :
    parts.foldl join root = join root (pathName parts) := by
  have h := foldl_join id root "" parts
  rw [join_empty_right] at h
  exact h

theorem parent_join_segment {above s : String} (habove : Balanced above) (hs : IsSegment s) :
    parent (join above s) = above := by
  by_cases hne : above = ""
  · subst hne
    have hpath : IsPath ([] ++ [s]) := fun segment h => List.mem_singleton.mp h ▸ hs
    have hparent := parent_pathName hpath
    rwa [pathName_concat] at hparent
  · exact parent_join hne hs.ne_empty habove hs.undotted

/-- Below a root a name is made by one list of segments only. -/
theorem join_pathName_injective {root : String} (hroot : Balanced root) {a b : List String}
    (ha : IsPath a) (hb : IsPath b) (h : join root (pathName a) = join root (pathName b)) : a = b := by
  by_cases hne : root = ""
  · subst hne
    rw [join_empty_left, join_empty_left] at h
    exact pathName_injective ha hb h
  · rw [← foldl_join_eq, ← foldl_join_eq] at h
    exact foldl_join_injective ⟨hne, hroot⟩ ha hb h

end Name

namespace WalkContext

/-! ## Types of the top level -/

section TopLevel

variable (ctx : WalkContext)

/-- What a type of the top level adds to the namespaces. -/
def registerTop (namespaces : Namespaces) (handle : Nat) : Namespaces :=
  match ctx.view.typeSymbol ctx.index handle with
  | .error _ => namespaces
  | .ok symbol => ctx.registerVisit namespaces ⟨handle, none, symbol⟩

/-- Types of the top level are those that are declared in no other. -/
def TopLevelDeclared : Prop :=
  ∀ handle t, ctx.view.typeSymbol ctx.index handle = .ok t →
    (t.declaring = none ↔ handle ∈ ctx.view.topLevel)

variable {ctx} {state : TypeWalkState} {handle : Nat}

theorem namespaces_walkType {symbol : TypeSymbol}
    (h : ctx.view.typeSymbol ctx.index handle = .ok symbol) (declaring : Option String) :
    (ctx.walkType state handle declaring).1.namespaces =
      ctx.registerVisit state.namespaces ⟨handle, declaring, symbol⟩ :=
  congrArg TypeWalkState.namespaces (meet_eq (v := ⟨handle, declaring, symbol⟩) h)

theorem namespaces_walkType_top (state : TypeWalkState) (handle : Nat) :
    (ctx.walkType state handle none).1.namespaces = ctx.registerTop state.namespaces handle := by
  cases h : ctx.view.typeSymbol ctx.index handle with
  | error e => rw [walkType_unread state none h, registerTop, h]
  | ok symbol => rw [namespaces_walkType h, registerTop, h]

/-- A nested type adds nothing, unless it is one of the top level after all. -/
theorem namespaces_walkType_nested (htop : ctx.TopLevelDeclared) (state : TypeWalkState) (handle : Nat)
    (name : String) :
    (ctx.walkType state handle (some name)).1.namespaces = state.namespaces ∨
      handle ∈ ctx.view.topLevel ∧
        (ctx.walkType state handle (some name)).1.namespaces = ctx.registerTop state.namespaces handle := by
  cases h : ctx.view.typeSymbol ctx.index handle with
  | error e => exact .inl (by rw [walkType_unread state (some name) h])
  | ok symbol =>
      rw [namespaces_walkType h, registerTop, h]
      by_cases hs : symbol.IsShown
      · exact .inl (by simp [registerVisit, hs])
      · cases hm : symbol.isMadeUp with
        | true => exact .inl (by simp [registerVisit, hs, hm])
        | false =>
            have hdoc : symbol.IsNamespaceDoc := by
              by_contra hdoc
              exact hs ⟨hm, hdoc⟩
            refine .inr ⟨(htop handle symbol h).mp (Option.isNone_iff_eq_none.mp hdoc.2), ?_⟩
            simp only [registerVisit, hs, if_false]

theorem exists_registered_walkType (htop : ctx.TopLevelDeclared) (state : TypeWalkState)
    (type : Nat × Option String) (htype : type.2 = none → type.1 ∈ ctx.view.topLevel) :
    ∃ met : List Nat, (ctx.walkType state type.1 type.2).1.namespaces =
        met.foldl ctx.registerTop state.namespaces ∧
      (∀ handle ∈ met, handle ∈ ctx.view.topLevel) ∧ (type.2 = none → type.1 ∈ met) := by
  obtain ⟨handle, declaring⟩ := type
  cases declaring with
  | none =>
      refine ⟨[handle], namespaces_walkType_top state handle, ?_, fun _ => List.mem_cons_self⟩
      simpa using htype rfl
  | some name =>
      rcases namespaces_walkType_nested htop state handle name with hsame | ⟨hmem, hregistered⟩
      · exact ⟨[], hsame, by simp, by simp⟩
      · exact ⟨[handle], hregistered, by simpa using hmem, by simp⟩

/-- What waits inside of a type has a node around it. -/
theorem declaring_of_mem_walkType {type : Nat × Option String} {declaring : Option String}
    (h : type ∈ (ctx.walkType state handle declaring).2) : type.2 ≠ none := by
  cases hsymbol : ctx.view.typeSymbol ctx.index handle with
  | error e =>
      rw [walkType_unread state declaring hsymbol] at h
      exact absurd h List.not_mem_nil
  | ok symbol =>
      rw [walkType_snd state declaring hsymbol] at h
      split at h
      · obtain ⟨child, -, rfl⟩ := List.mem_map.mp h
        exact Option.some_ne_none _
      · exact absurd h List.not_mem_nil

/-- The namespaces that a walk comes to are those that types of the top level bring, each of those that
were to be met among them. -/
theorem exists_registered (htop : ctx.TopLevelDeclared) (depth : Nat) (state : TypeWalkState)
    (types : List (Nat × Option String)) (htypes : ∀ p ∈ types, p.2 = none → p.1 ∈ ctx.view.topLevel) :
    ∃ met : List Nat, (ctx.walkNested depth state types).namespaces =
        met.foldl ctx.registerTop state.namespaces ∧
      (∀ handle ∈ met, handle ∈ ctx.view.topLevel) ∧
      (0 < depth → ∀ p ∈ types, p.2 = none → p.1 ∈ met) := by
  induction depth generalizing state types with
  | zero => exact ⟨[], rfl, by simp, fun h => absurd h (Nat.lt_irrefl 0)⟩
  | succ depth ih =>
      rw [walkNested]
      induction types generalizing state with
      | nil => exact ⟨[], rfl, by simp, by simp⟩
      | cons type types ihTypes =>
          obtain ⟨htype, hmore⟩ := List.forall_mem_cons.mp htypes
          obtain ⟨first, hfirst, hfirstTop, hself⟩ := exists_registered_walkType htop state type htype
          obtain ⟨inner, hinner, hinnerTop, -⟩ := ih (ctx.walkType state type.1 type.2).1
            (ctx.walkType state type.1 type.2).2 fun p hp hnone =>
              absurd hnone (declaring_of_mem_walkType hp)
          obtain ⟨rest, hrest, hrestTop, hall⟩ := ihTypes (ctx.walkNested depth
            (ctx.walkType state type.1 type.2).1 (ctx.walkType state type.1 type.2).2) hmore
          refine ⟨first ++ inner ++ rest, ?_, ?_, fun hdepth => List.forall_mem_cons.mpr ⟨?_, ?_⟩⟩
          · rw [List.foldl_cons, hrest, hinner, hfirst, List.foldl_append, List.foldl_append]
          · intro handle hmem
            rcases List.mem_append.mp hmem with hmem | hmem
            · exact (List.mem_append.mp hmem).elim (hfirstTop handle) (hinnerTop handle)
            · exact hrestTop handle hmem
          · exact fun hnone => List.mem_append_left _ (List.mem_append_left _ (hself hnone))
          · exact fun p hp hnone => List.mem_append_right _ (hall hdepth p hp hnone)

end TopLevel

end WalkContext

/-! ## What is known of a namespace -/

namespace Namespaces

/-- Registering keeps what is known, and adds the levels that are new without a description. -/
theorem get?_register (n : Namespaces) (root ns name : String) :
    (n.register root ns).get? name =
      (n.get? name).or (if name ∈ namespaceChain root ns then some none else none) := by
  unfold register
  generalize namespaceChain root ns = chain
  induction chain generalizing n with
  | nil => simp
  | cons first chain ih =>
      have hstep : Dict.get? (if n.contains first then n else n.insert first none) name =
          (n.get? name).or (if name = first then some none else none) := by
        split
        · next h =>
            obtain ⟨d, hd⟩ := Option.isSome_iff_exists.mp ((n.isSome_get? first).trans h)
            by_cases hname : name = first
            · rw [hname, hd, Option.some_or]
            · simp [hname]
        · next h =>
            have hnone := Dict.get?_eq_none (Bool.eq_false_iff.mpr h)
            rw [Dict.get?_insert]
            by_cases hname : name = first
            · simp [hname, hnone]
            · simp [hname]
      rw [List.foldl_cons, ih, hstep, Option.or_assoc]
      congr 1
      by_cases hname : name = first
      · simp [hname]
      · simp [hname]

end Namespaces

namespace WalkContext

section Known

variable (ctx : WalkContext)

/-- The type is among these, and no compiler made it. -/
def Brings (met : List Nat) (t : TypeSymbol) : Prop :=
  ∃ handle ∈ met, ctx.view.typeSymbol ctx.index handle = .ok t ∧ t.isMadeUp = false

/-- The type is among these, and its comment is that of the namespace of this name. -/
structure Describes (met : List Nat) (name : String) (t : TypeSymbol) : Prop where
  brought : ctx.Brings met t
  doc : t.IsNamespaceDoc
  ns : t.ns ≠ ""
  name_eq : Name.join ctx.root t.ns = name

/-- What is known of namespaces when these types were met, of which the latter were taken as comments. -/
structure Known (met docs : List Nat) (n : Namespaces) : Prop where
  nodup : n.keys.Nodup
  mem_keys : ∀ name, name ∈ n.keys ↔ ∃ t, ctx.Brings met t ∧ name ∈ namespaceChain ctx.root t.ns
  described : ∀ name d, n.get? name = some d → ∀ t, ctx.Describes docs name t → d = t.description
  undescribed : ∀ name d, n.get? name = some d → (∀ t, ¬ ctx.Describes docs name t) → d = none

/-- The namespaces of the types at the top level, of which at most one speaks for each namespace. -/
structure OneComment : Prop where
  root : Name.Balanced ctx.root
  topLevel : ctx.TopLevelDeclared
  ns : ∀ handle ∈ ctx.view.topLevel, ∀ t, ctx.view.typeSymbol ctx.index handle = .ok t →
    Name.IsNamespace t.ns
  doc : ∀ handle handle' t u, ctx.view.typeSymbol ctx.index handle = .ok t →
    ctx.view.typeSymbol ctx.index handle' = .ok u → t.isMadeUp = false → u.isMadeUp = false →
    t.IsNamespaceDoc → u.IsNamespaceDoc → t.ns = u.ns → handle = handle'

variable {ctx} {met docs : List Nat} {n : Namespaces} {handle : Nat} {t u : TypeSymbol}

theorem brings_append {more : List Nat} :
    ctx.Brings (met ++ more) t ↔ ctx.Brings met t ∨ ctx.Brings more t := by
  simp only [Brings, List.mem_append, or_and_right, exists_or]

theorem brings_singleton : ctx.Brings [handle] t ↔
    ctx.view.typeSymbol ctx.index handle = .ok t ∧ t.isMadeUp = false := by
  simp only [Brings, List.mem_singleton, exists_eq_left]

theorem describes_append {more : List Nat} {name : String} :
    ctx.Describes (met ++ more) name t ↔ ctx.Describes met name t ∨ ctx.Describes more name t := by
  constructor
  · intro h
    exact (brings_append.mp h.brought).imp (fun hb => ⟨hb, h.doc, h.ns, h.name_eq⟩)
      fun hb => ⟨hb, h.doc, h.ns, h.name_eq⟩
  · rintro (h | h)
    · exact ⟨brings_append.mpr (.inl h.brought), h.doc, h.ns, h.name_eq⟩
    · exact ⟨brings_append.mpr (.inr h.brought), h.doc, h.ns, h.name_eq⟩

theorem mem_namespaceChain {ns name : String} : name ∈ namespaceChain ctx.root ns ↔
    ∃ parts, parts ≠ [] ∧ parts <+: Sink.namespaceParts ns ∧
      name = Name.join ctx.root (Name.pathName parts) := by
  rw [namespaceChain_eq, mem_chainBelow]
  simp only [Name.foldl_join_eq]

theorem namespaceParts_ne_nil {ns : String} (h : Name.IsNamespace ns) (hne : ns ≠ "") :
    Sink.namespaceParts ns ≠ [] := by
  intro hnil
  have hjoin := Sink.foldl_join_namespaceParts h ""
  rw [hnil, Name.join_empty_left] at hjoin
  exact hne hjoin.symm

theorem join_root_eq {ns : String} (h : Name.IsNamespace ns) :
    Name.join ctx.root ns = Name.join ctx.root (Name.pathName (Sink.namespaceParts ns)) := by
  rw [← Name.foldl_join_eq, Sink.foldl_join_namespaceParts h]

theorem Known.empty : ctx.Known [] [] .empty where
  nodup := List.nodup_nil
  mem_keys := by simp [Brings]
  described _ _ h := by cases h
  undescribed _ _ h := by cases h

theorem Known.congr {met' docs' : List Nat} (h : ctx.Known met docs n)
    (hmet : ∀ t, ctx.Brings met t ↔ ctx.Brings met' t)
    (hdocs : ∀ name t, ctx.Describes docs name t ↔ ctx.Describes docs' name t) : ctx.Known met' docs' n where
  nodup := h.nodup
  mem_keys name := by
    rw [h.mem_keys]
    simp only [hmet]
  described name d hd t ht := h.described name d hd t ((hdocs name t).mpr ht)
  undescribed name d hd hnone := h.undescribed name d hd fun t ht => hnone t ((hdocs name t).mp ht)

theorem Describes.mem_keys {name : String} (h : ctx.Describes met name t)
    (hknown : ctx.Known met docs n) (hns : Name.IsNamespace t.ns) : name ∈ n.keys := by
  rw [hknown.mem_keys]
  refine ⟨t, h.brought, mem_namespaceChain.mpr ⟨_, namespaceParts_ne_nil hns h.ns, List.prefix_rfl, ?_⟩⟩
  rw [← h.name_eq, join_root_eq hns]

/-- A namespace without a description is still without one when its level is brought again. -/
theorem Known.register (h : ctx.Known met met n) (ht : ctx.view.typeSymbol ctx.index handle = .ok t)
    (hm : t.isMadeUp = false) (hns : ∀ u, ctx.Brings met u → Name.IsNamespace u.ns) :
    ctx.Known (met ++ [handle]) met (n.register ctx.root t.ns) where
  nodup := Namespaces.nodup_keys_register h.nodup _ _
  mem_keys name := by
    rw [Namespaces.mem_keys_register, h.mem_keys]
    simp only [brings_append, brings_singleton, or_and_right, exists_or, ht]
    refine or_congr_right ⟨fun hchain => ⟨t, ⟨rfl, hm⟩, hchain⟩, ?_⟩
    rintro ⟨u, ⟨hu, -⟩, hchain⟩
    exact Except.ok.inj hu ▸ hchain
  described name d hd u hu := by
    obtain ⟨known, hknown⟩ := Option.isSome_iff_exists.mp
      ((n.isSome_get? name).trans (Dict.contains_iff_mem_keys.mpr (hu.mem_keys h (hns u hu.brought))))
    rw [Namespaces.get?_register, hknown, Option.some_or] at hd
    exact h.described name d (hknown.trans hd) u hu
  undescribed name d hd hnone := by
    rw [Namespaces.get?_register, Option.or_eq_some_iff] at hd
    rcases hd with hd | ⟨-, hd⟩
    · exact h.undescribed name d hd hnone
    · rw [Option.ite_none_right_eq_some] at hd
      exact (Option.some.inj hd.2).symm

theorem OneComment.isNamespace (ho : ctx.OneComment) (hmet : ∀ handle ∈ met, handle ∈ ctx.view.topLevel)
    (ht : ctx.Brings met t) : Name.IsNamespace t.ns := by
  obtain ⟨handle, hmem, hsymbol, -⟩ := ht
  exact ho.ns handle (hmet handle hmem) t hsymbol

/-- The name of a namespace tells its comment. -/
theorem OneComment.describes_unique (ho : ctx.OneComment)
    (hmet : ∀ handle ∈ met, handle ∈ ctx.view.topLevel) {name : String}
    (ht : ctx.Describes met name t) (hu : ctx.Describes met name u) : t = u := by
  have hnt := ho.isNamespace hmet ht.brought
  have hnu := ho.isNamespace hmet hu.brought
  have hparts : Sink.namespaceParts t.ns = Sink.namespaceParts u.ns := by
    apply Name.join_pathName_injective ho.root (isSegment_of_mem_namespaceParts hnt)
      (isSegment_of_mem_namespaceParts hnu)
    rw [← join_root_eq hnt, ← join_root_eq hnu, ht.name_eq, hu.name_eq]
  obtain ⟨handle, -, hsymbol, hm⟩ := ht.brought
  obtain ⟨handle', -, hsymbol', hm'⟩ := hu.brought
  obtain rfl := ho.doc handle handle' t u hsymbol hsymbol' hm hm' ht.doc hu.doc
    (namespaceParts_injective hnt hnu hparts)
  exact Except.ok.inj (hsymbol.symm.trans hsymbol')

/-- A type that brings nothing changes nothing. -/
theorem Known.skip (h : ctx.Known met met n) (hnone : ∀ t, ¬ ctx.Brings [handle] t) :
    ctx.Known (met ++ [handle]) (met ++ [handle]) n := by
  refine h.congr (fun t => ?_) fun name t => ?_
  · rw [brings_append, or_iff_left (hnone t)]
  · rw [describes_append, or_iff_left fun hd => hnone t hd.brought]

/-- A type that is no comment leaves the comments as they are. -/
theorem Known.plain (h : ctx.Known met docs n) (hnone : ∀ name t, ¬ ctx.Describes [handle] name t) :
    ctx.Known met (docs ++ [handle]) n :=
  h.congr (fun _ => Iff.rfl) fun name t => by rw [describes_append, or_iff_left (hnone name t)]

/-- A comment replaces what was known of its namespace, which was nothing or the same comment. -/
theorem Known.describe (ho : ctx.OneComment) (hmet : ∀ x ∈ met ++ [handle], x ∈ ctx.view.topLevel)
    (h : ctx.Known (met ++ [handle]) met n)
    (ht : ctx.Describes [handle] (Name.join ctx.root t.ns) t) :
    ctx.Known (met ++ [handle]) (met ++ [handle]) (n.insert (Name.join ctx.root t.ns) t.description) where
  nodup := Dict.nodup_keys_insert h.nodup _ _
  mem_keys name := by
    have hself : ctx.Describes (met ++ [handle]) (Name.join ctx.root t.ns) t :=
      describes_append.mpr (.inr ht)
    have hkey := hself.mem_keys h (ho.isNamespace hmet hself.brought)
    rw [Dict.mem_keys_insert, ← h.mem_keys]
    exact or_iff_right_of_imp fun hname => hname ▸ hkey
  described name d hd u hu := by
    rw [Dict.get?_insert] at hd
    split at hd
    · next hname =>
        subst hname
        obtain rfl := ho.describes_unique hmet hu (describes_append.mpr (.inr ht))
        exact (Option.some.inj hd).symm
    · next hname =>
        rcases describes_append.mp hu with hu | hu
        · exact h.described name d hd u hu
        · obtain ⟨hsymbol, -⟩ := brings_singleton.mp ht.brought
          obtain rfl := Except.ok.inj (hsymbol.symm.trans (brings_singleton.mp hu.brought).1)
          exact absurd hu.name_eq.symm hname
  undescribed name d hd hnone := by
    rw [Dict.get?_insert] at hd
    split at hd
    · next hname => exact absurd (describes_append.mpr (.inr (hname ▸ ht))) (hnone t)
    · exact h.undescribed name d hd fun u hu => hnone u (describes_append.mpr (.inl hu))

/-- A type of the top level brings its levels unless it is made up, and describes the last of them if it is
the comment of that namespace. -/
theorem registerVisit_top (n : Namespaces) (handle : Nat) (t : TypeSymbol) :
    ctx.registerVisit n ⟨handle, none, t⟩ =
      if t.isMadeUp then n
      else if t.IsNamespaceDoc ∧ t.ns ≠ "" then
        (n.register ctx.root t.ns).insert (Name.join ctx.root t.ns) t.description
      else n.register ctx.root t.ns := by
  have hglobal : n.register ctx.root "" = n := by
    rw [Namespaces.register, namespaceChain_eq, Sink.namespaceParts_empty]
    rfl
  cases hm : t.isMadeUp with
  | true => simp [registerVisit, TypeSymbol.IsShown, hm]
  | false =>
      by_cases hdoc : t.IsNamespaceDoc
      · by_cases hns : t.ns = ""
        · simp [registerVisit, TypeSymbol.IsShown, hm, hdoc, hns, hglobal]
        · simp [registerVisit, TypeSymbol.IsShown, hm, hdoc, hns]
      · simp [registerVisit, TypeSymbol.IsShown, hm, hdoc]

theorem Known.registerTop (ho : ctx.OneComment) (h : ctx.Known met met n)
    (hmet : ∀ x ∈ met ++ [handle], x ∈ ctx.view.topLevel) :
    ctx.Known (met ++ [handle]) (met ++ [handle]) (ctx.registerTop n handle) := by
  rw [WalkContext.registerTop]
  cases hsymbol : ctx.view.typeSymbol ctx.index handle with
  | error e =>
      refine h.skip fun t ht => ?_
      exact absurd (hsymbol.symm.trans (brings_singleton.mp ht).1) (by simp)
  | ok t =>
      have honly : ∀ u, ctx.Brings [handle] u → u = t ∧ t.isMadeUp = false := by
        intro u hu
        obtain ⟨hu, hm⟩ := brings_singleton.mp hu
        obtain rfl := Except.ok.inj (hsymbol.symm.trans hu)
        exact ⟨rfl, hm⟩
      dsimp only
      rw [registerVisit_top]
      split
      · next hm =>
          apply h.skip
          intro u hu
          exact absurd hm (Bool.eq_false_iff.mp (honly u hu).2)
      · next hm =>
          have hplain : t.isMadeUp = false := Bool.eq_false_iff.mpr hm
          have hkept := h.register hsymbol hplain fun u hu =>
            ho.isNamespace (fun x hx => hmet x (List.mem_append_left _ hx)) hu
          split
          · next hdoc =>
              exact hkept.describe ho hmet ⟨brings_singleton.mpr ⟨hsymbol, hplain⟩, hdoc.1, hdoc.2, rfl⟩
          · next hdoc =>
              apply hkept.plain
              intro name u hu
              obtain ⟨rfl, -⟩ := honly u hu.brought
              exact hdoc ⟨hu.doc, hu.ns⟩

theorem known_foldl (ho : ctx.OneComment) (hmet : ∀ x ∈ met, x ∈ ctx.view.topLevel) :
    ctx.Known met met (met.foldl ctx.registerTop .empty) := by
  induction met using List.reverseRecOn with
  | nil => exact Known.empty
  | append_singleton met handle ih =>
      rw [List.foldl_append]
      exact (ih fun x hx => hmet x (List.mem_append_left _ hx)).registerTop ho hmet

/-- What the walk comes to know of namespaces is what the types of the top level say. -/
theorem known_typesMet (ho : ctx.OneComment) (s : Sink) :
    ctx.Known ctx.view.topLevel ctx.view.topLevel (ctx.typesMet s).namespaces := by
  have htypes : ∀ p ∈ ctx.view.topLevel.map (·, (none : Option String)), p.2 = none →
      p.1 ∈ ctx.view.topLevel := by
    intro p hp _
    obtain ⟨handle, hhandle, rfl⟩ := List.mem_map.mp hp
    exact hhandle
  obtain ⟨met, hnamespaces, htop, hall⟩ := exists_registered ho.topLevel (ctx.view.typeCount + 1)
    ⟨.empty, .empty, s⟩ _ htypes
  have hmem : ∀ x, x ∈ met ↔ x ∈ ctx.view.topLevel := fun x =>
    ⟨htop x, fun hx => hall (Nat.succ_pos _) (x, none) (List.mem_map_of_mem hx) rfl⟩
  have hbrings : ∀ t, ctx.Brings met t ↔ ctx.Brings ctx.view.topLevel t := by
    intro t
    simp only [Brings, hmem]
  rw [typesMet, hnamespaces]
  refine (known_foldl ho htop).congr hbrings fun name t => ?_
  exact ⟨fun h => ⟨(hbrings t).mp h.brought, h.doc, h.ns, h.name_eq⟩,
    fun h => ⟨(hbrings t).mpr h.brought, h.doc, h.ns, h.name_eq⟩⟩

/-- Namespaces of which the same is known are the same but for their order. -/
theorem Known.get?_eq {n' : Namespaces} (h : ctx.Known met docs n) (h' : ctx.Known met docs n')
    (name : String) : n.get? name = n'.get? name := by
  have hkeys : n.contains name = n'.contains name := by
    rw [Bool.eq_iff_iff, Dict.contains_iff_mem_keys, Dict.contains_iff_mem_keys, h.mem_keys, h'.mem_keys]
  rw [← Dict.isSome_get?, ← Dict.isSome_get?] at hkeys
  cases hd : n.get? name with
  | none => exact (Option.isNone_iff_eq_none.mp (by simpa [hd] using hkeys)).symm
  | some d =>
      obtain ⟨d', hd'⟩ := Option.isSome_iff_exists.mp (hkeys.symm.trans (Option.isSome_of_eq_some hd))
      rw [hd']
      by_cases hdoc : ∃ t, ctx.Describes docs name t
      · obtain ⟨t, ht⟩ := hdoc
        rw [h.described name d hd t ht, h'.described name d' hd' t ht]
      · have hnone := not_exists.mp hdoc
        rw [h.undescribed name d hd hnone, h'.undescribed name d' hd' hnone]

end Known

/-! ## The nodes -/

section Nodes

variable {n n' : Namespaces}

theorem mergeSort_entries_pairwise (hn : n.keys.Nodup) :
    (n.entries.mergeSort fun a b => !(b.1 < a.1)).Pairwise fun a b => a.1 < b.1 := by
  have htrans : ∀ a b c : String × Option String, (!decide (b.1 < a.1)) = true →
      (!decide (c.1 < b.1)) = true → (!decide (c.1 < a.1)) = true := fun a b c hab hbc =>
    Text.not_decide_lt.mpr (String.le_trans (Text.not_decide_lt.mp hab) (Text.not_decide_lt.mp hbc))
  have htotal : ∀ a b : String × Option String, (!decide (b.1 < a.1) || !decide (a.1 < b.1)) = true := by
    intro a b
    rw [Bool.or_eq_true, Text.not_decide_lt, Text.not_decide_lt]
    exact String.le_total a.1 b.1
  have hsorted := List.pairwise_mergeSort htrans htotal n.entries
  have hnodup : ((n.entries.mergeSort fun a b => !(b.1 < a.1)).map (·.1)).Nodup :=
    ((List.mergeSort_perm n.entries _).map _).nodup_iff.mpr hn
  refine (hsorted.and (List.pairwise_map.mp hnodup)).imp fun {a b} h => ?_
  exact String.not_le.mp fun hle => h.2 (String.le_antisymm (Text.not_decide_lt.mp h.1) hle)

theorem namespaceNodes_pairwise (hn : n.keys.Nodup) :
    ((namespaceNodes n).map (·.name)).Pairwise (· < ·) := by
  rw [namespaceNodes, List.map_map]
  exact List.pairwise_map.mpr (mergeSort_entries_pairwise hn)

theorem namespaceNodes_eq (hn : n.keys.Nodup) (hn' : n'.keys.Nodup)
    (h : ∀ name, n.get? name = n'.get? name) : namespaceNodes n = namespaceNodes n' := by
  have hmem : ∀ e, e ∈ n.entries ↔ e ∈ n'.entries := by
    intro e
    rw [← Dict.get?_eq_some_iff hn, ← Dict.get?_eq_some_iff hn', h]
  have hentries : n.entries.Perm n'.entries :=
    (List.perm_ext_iff_of_nodup (List.Nodup.of_map _ hn) (List.Nodup.of_map _ hn')).mpr hmem
  have hsorted : (n.entries.mergeSort fun a b => !(b.1 < a.1)) =
      n'.entries.mergeSort fun a b => !(b.1 < a.1) := by
    refine List.Perm.eq_of_pairwise (fun a b _ _ hab hba => ?_) (mergeSort_entries_pairwise hn)
      (mergeSort_entries_pairwise hn') ?_
    · exact absurd (String.lt_trans hab hba) (String.lt_irrefl _)
    · exact (List.mergeSort_perm _ _).trans (hentries.trans (List.mergeSort_perm _ _).symm)
  rw [namespaceNodes, namespaceNodes, hsorted]

end Nodes

section Levels

variable (ctx : WalkContext)

/-- The parts of a namespace of the top level, or the first of them. -/
def IsLevel (parts : List String) : Prop :=
  ∃ t, ctx.Brings ctx.view.topLevel t ∧ parts ≠ [] ∧ parts <+: Sink.namespaceParts t.ns

/-- The type at the top level whose comment is that of exactly this namespace. -/
structure Documents (parts : List String) (t : TypeSymbol) : Prop where
  brought : ctx.Brings ctx.view.topLevel t
  doc : t.IsNamespaceDoc
  parts_eq : Sink.namespaceParts t.ns = parts

structure IsNamespaceNode (parts : List String) (n : Node) : Prop where
  name : n.name = Name.join ctx.root (Name.pathName parts)
  parent : n.parent = Name.join ctx.root (Name.pathName parts.dropLast)
  kind : n.kind = .namespacePart
  memberKind : n.memberKind = none
  location : n.location = none
  described : ∀ t, ctx.Documents parts t → n.description = t.description.filter (! ·.isEmpty)
  undescribed : (∀ t, ¬ ctx.Documents parts t) → n.description = none

variable {ctx} {n : Namespaces} {parts : List String} {t : TypeSymbol}

theorem documents_iff (ho : ctx.OneComment) (hparts : Name.IsPath parts) (hne : parts ≠ []) :
    ctx.Documents parts t ↔
      ctx.Describes ctx.view.topLevel (Name.join ctx.root (Name.pathName parts)) t := by
  constructor
  · rintro ⟨hb, hd, rfl⟩
    have hns := ho.isNamespace (fun _ h => h) hb
    refine ⟨hb, hd, ?_, join_root_eq hns⟩
    rintro hempty
    exact hne (by rw [hempty, Sink.namespaceParts_empty])
  · rintro ⟨hb, hd, -, hname⟩
    have hns := ho.isNamespace (fun _ h => h) hb
    rw [join_root_eq hns] at hname
    exact ⟨hb, hd, Name.join_pathName_injective ho.root (isSegment_of_mem_namespaceParts hns) hparts hname⟩

theorem isNamespaceNode_of_mem (ho : ctx.OneComment)
    (h : ctx.Known ctx.view.topLevel ctx.view.topLevel n) {node : Node} (hnode : node ∈ namespaceNodes n) :
    ∃ parts, ctx.IsLevel parts ∧ ctx.IsNamespaceNode parts node := by
  obtain ⟨⟨name, d⟩, he, rfl⟩ := List.mem_map.mp hnode
  have hentry := (List.mergeSort_perm _ _).mem_iff.mp he
  have hget := (Dict.get?_eq_some_iff h.nodup).mpr hentry
  obtain ⟨t, ht, hchain⟩ := (h.mem_keys name).mp (List.mem_map_of_mem hentry)
  obtain ⟨parts, hne, hstart, rfl⟩ := mem_namespaceChain.mp hchain
  have hns := ho.isNamespace (fun _ h => h) ht
  have hpath : Name.IsPath parts := fun part hpart =>
    isSegment_of_mem_namespaceParts hns part (hstart.subset hpart)
  refine ⟨parts, ⟨t, ht, hne, hstart⟩, rfl, ?_, rfl, rfl, rfl, fun u hu => ?_, fun hnone => ?_⟩
  · obtain ⟨above, last, rfl⟩ := (List.eq_nil_or_concat parts).resolve_left hne
    rw [List.concat_eq_append] at hpath ⊢
    change Name.parent (Name.join ctx.root (Name.pathName (above ++ [last]))) = _
    rw [List.dropLast_concat, Name.pathName_concat, ← Name.join_assoc]
    exact Name.parent_join_segment (ho.root.join (Name.pathName_balanced hpath.left)) (hpath last (by simp))
  · have hd := h.described _ d hget u ((documents_iff ho hpath hne).mp hu)
    rw [hd]
    rfl
  · have hd := h.undescribed _ d hget fun u hu => hnone u ((documents_iff ho hpath hne).mpr hu)
    rw [hd]
    rfl

theorem exists_node_of_isLevel (h : ctx.Known ctx.view.topLevel ctx.view.topLevel n)
    (hlevel : ctx.IsLevel parts) :
    ∃ node ∈ namespaceNodes n, node.name = Name.join ctx.root (Name.pathName parts) := by
  obtain ⟨t, ht, hne, hstart⟩ := hlevel
  have hkey := (h.mem_keys _).mpr ⟨t, ht, mem_namespaceChain.mpr ⟨parts, hne, hstart, rfl⟩⟩
  exact List.mem_map.mp ((namespaceNames_perm n).mem_iff.mpr hkey)

end Levels

/-! ## What is sent -/

section Sent

variable {ctx : WalkContext}

/-- Before the namespaces are sent, the nodes of the walk itself are those of types. -/
theorem typesMet_sends_types (s : Sink) : ∃ own demanded,
    ctx.Sends own demanded s (ctx.typesMet s).sink ∧ ∀ n ∈ own, n.kind = .type := by
  let P : TypeWalkState → List (Nat × Option String) → Prop := fun state _ =>
    ∃ own demanded, ctx.Sends own demanded s state.sink ∧ ∀ n ∈ own, n.kind = .type
  have step : ∀ state id declaring pending result, ctx.TypeMet state id declaring result →
      P state ((id, declaring) :: pending) → P result.1 (result.2 ++ pending) := by
    intro state id declaring pending result hmet h
    cases hmet with
    | unread | madeUp | async | globalDoc | doc => exact h
    | sent symbol hsymbol =>
        obtain ⟨own, demanded, hsends, hown⟩ := h
        obtain ⟨more, hmore⟩ := sendType_sends state declaring hsymbol
        refine ⟨_, _, hsends.trans hmore, fun n hn => ?_⟩
        rcases List.mem_append.mp hn with hn | hn
        · exact hown n hn
        · rw [List.mem_singleton.mp hn]
          rfl
  have start : P ⟨.empty, .empty, s⟩ (ctx.view.topLevel.map (·, none)) := ⟨[], [], .refl s, by simp⟩
  obtain ⟨left, h, -⟩ :=
    ctx.walkNested_invariant step (fun _ _ _ h => h) (ctx.view.typeCount + 1) _ _ [] start
  exact h

/-- The walk goes through types, then it sends the nodes of the namespaces. -/
theorem exists_walkTypes_perform (ctx : WalkContext) : ∃ before : List Action,
    (∀ n, .send (.node n) ∈ before → n.kind = .type) ∧
    ∀ s, (ctx.typesMet s).sink = s.perform before := by
  obtain ⟨_, before, hbefore⟩ := ctx.walkNested_scripted (ctx.view.typeCount + 1) .empty .empty
    (ctx.view.topLevel.map (·, none))
  have hperform : ∀ s, (ctx.typesMet s).sink = s.perform before := fun s => (Prod.mk.inj (hbefore s)).2
  refine ⟨before, fun n hn => ?_, hperform⟩
  obtain ⟨own, demanded, hsends, hown⟩ := ctx.typesMet_sends_types (.provided before)
  rw [hperform] at hsends
  apply hown n
  apply hsends.perm_of_provided.mem_iff.mp
  rw [List.filterMap_filterMap]
  exact List.mem_filterMap.mpr ⟨_, hn, rfl⟩

end Sent

/-! ## The order of the top level -/

/-- The same module with its types of the top level in another order. -/
def withTopLevel (ctx : WalkContext) (order : List Nat) : WalkContext :=
  { ctx with view := { ctx.view with topLevel := order } }

variable {ctx : WalkContext} {order : List Nat}

theorem OneComment.withTopLevel (h : ctx.OneComment) (horder : order.Perm ctx.view.topLevel) :
    (ctx.withTopLevel order).OneComment where
  root := h.root
  topLevel handle t ht := (h.topLevel handle t ht).trans horder.mem_iff.symm
  ns handle hmem := h.ns handle (horder.mem_iff.mp hmem)
  doc := h.doc

theorem known_withTopLevel (h : ctx.OneComment) (horder : order.Perm ctx.view.topLevel) (s : Sink) :
    ctx.Known ctx.view.topLevel ctx.view.topLevel ((ctx.withTopLevel order).typesMet s).namespaces := by
  have hknown := known_typesMet (h.withTopLevel horder) s
  have hbrings : ∀ t, (ctx.withTopLevel order).Brings order t ↔ ctx.Brings ctx.view.topLevel t := by
    intro t
    unfold Brings
    simp only [horder.mem_iff]
    rfl
  have hdescribes : ∀ name t, (ctx.withTopLevel order).Describes order name t ↔
      ctx.Describes ctx.view.topLevel name t := fun name t =>
    ⟨fun hd => ⟨(hbrings t).mp hd.brought, hd.doc, hd.ns, hd.name_eq⟩,
      fun hd => ⟨(hbrings t).mpr hd.brought, hd.doc, hd.ns, hd.name_eq⟩⟩
  refine ⟨hknown.nodup, fun name => (hknown.mem_keys name).trans ?_, fun name d hd t ht => ?_,
    fun name d hd hnone => ?_⟩
  · exact exists_congr fun t => and_congr_left fun _ => hbrings t
  · exact hknown.described name d hd t ((hdescribes name t).mpr ht)
  · exact hknown.undescribed name d hd fun t ht => hnone t ((hdescribes name t).mp ht)

/-- Of the namespaces those levels have nodes that lie on the way to a type of the top level or to a
comment of a namespace there: each once, in the order of their names, below the level above them, and
with the description that the comment of exactly this namespace gives. They are sent behind the types, and
they are the same whatever the order of the types. -/
theorem walkTypes_namespaces (ctx : WalkContext) (h : ctx.OneComment) :
    ∃ nodes : List Node, (nodes.map (·.name)).Pairwise (· < ·) ∧
      (∀ n ∈ nodes, ∃ parts, ctx.IsLevel parts ∧ ctx.IsNamespaceNode parts n) ∧
      (∀ parts, ctx.IsLevel parts →
        ∃ n ∈ nodes, n.name = Name.join ctx.root (Name.pathName parts)) ∧
      ∀ order : List Nat, order.Perm ctx.view.topLevel → ∃ before : List Action,
        (∀ n, .send (.node n) ∈ before → n.kind = .type) ∧
        ∀ s, ((ctx.withTopLevel order).walkTypes s).2 =
          s.perform (before ++ nodes.map fun n => .send (.node n)) := by
  have hknown := known_typesMet h .empty
  refine ⟨namespaceNodes (ctx.typesMet .empty).namespaces, namespaceNodes_pairwise hknown.nodup,
    fun n hn => isNamespaceNode_of_mem h hknown hn, fun parts hlevel => exists_node_of_isLevel hknown hlevel,
    fun order horder => ?_⟩
  obtain ⟨before, htypes, hperform⟩ := (ctx.withTopLevel order).exists_walkTypes_perform
  refine ⟨before, htypes, fun s => ?_⟩
  have hother := known_withTopLevel h horder s
  have hnodes := namespaceNodes_eq hother.nodup hknown.nodup fun name => hother.get?_eq hknown name
  change sendNamespaces ((ctx.withTopLevel order).typesMet s).namespaces
    ((ctx.withTopLevel order).typesMet s).sink = _
  rw [sendNamespaces_eq, hnodes, hperform, perform_nodes, Sink.perform_append]

end WalkContext

namespace Mixed

/-- What the readable types of the sample are asked for is decided. -/
theorem forall_typeSymbol {P : Nat → TypeSymbol → Prop}
    (hall : ∀ handle < 5, ∀ t ∈ (typeSymbol handle).toOption, P handle t) {handle : Nat} {t : TypeSymbol}
    (h : context.view.typeSymbol context.index handle = .ok t) : P handle t := by
  refine hall handle (countsTypes handle t h) t ?_
  have h : typeSymbol handle = .ok t := h
  rw [h]
  exact rfl

theorem oneComment : context.OneComment where
  root := by decide +kernel
  topLevel _ _ h := forall_typeSymbol (P := fun handle t => t.declaring = none ↔ handle ∈ [0, 3, 5, 4])
    (by decide +kernel) h
  ns _ _ _ h := forall_typeSymbol (P := fun _ t => Name.IsNamespace t.ns) (by decide +kernel) h
  doc _ _ _ _ ht hu _ _ hdt hdu _ := by
    have hdoc := @forall_typeSymbol (fun handle t => t.IsNamespaceDoc → handle = 3) (by decide +kernel)
    rw [hdoc ht hdt, hdoc hu hdu]

end Mixed

/-- In the sample the inner namespace comes after the one around it, with the text of its comment, in
whatever order the types stand. -/
theorem WalkContext.walkTypes_namespaces_mixed :
    Mixed.context.OneComment ∧
    ∃ nodes : List Node,
      (∃ n ∈ nodes, n.name = "lib.N.M" ∧ n.parent = "lib.N" ∧ n.description = some "Parts.") ∧
      ∀ order : List Nat, order.Perm [0, 3, 5, 4] → ∃ before : List Action,
        ∀ s, ((Mixed.context.withTopLevel order).walkTypes s).2 =
          s.perform (before ++ nodes.map fun n => .send (.node n)) := by
  refine ⟨Mixed.oneComment, ?_⟩
  obtain ⟨nodes, -, hnodes, hlevels, hsent⟩ := walkTypes_namespaces Mixed.context Mixed.oneComment
  refine ⟨nodes, ?_, fun order horder => ?_⟩
  · have hlevel : Mixed.context.IsLevel ["N", "M"] :=
      ⟨_, ⟨3, by decide, rfl, by decide +kernel⟩, by decide, by decide +kernel⟩
    obtain ⟨n, hn, hname⟩ := hlevels _ hlevel
    obtain ⟨parts, ⟨t, ht, -, hstart⟩, hnode⟩ := hnodes n hn
    have hpath : Name.IsPath parts := fun part hpart =>
      isSegment_of_mem_namespaceParts (Mixed.oneComment.isNamespace (fun _ h => h) ht) part
        (hstart.subset hpart)
    obtain rfl : parts = ["N", "M"] := by
      apply Name.join_pathName_injective Mixed.oneComment.root hpath (by decide +kernel)
      rw [← hnode.name, hname]
    have hdocuments : Mixed.context.Documents ["N", "M"]
        { Mixed.symbol 3 "N.M" ["NamespaceDoc"] none with description := some "Parts." } :=
      ⟨⟨3, by decide, rfl, by decide +kernel⟩, by decide +kernel, by decide +kernel⟩
    refine ⟨n, hn, hname.trans (by decide +kernel), hnode.parent.trans (by decide +kernel), ?_⟩
    rw [hnode.described _ hdocuments]
    decide +kernel
  · obtain ⟨before, -, hperform⟩ := hsent order horder
    exact ⟨before, hperform⟩

end CodeGraph
