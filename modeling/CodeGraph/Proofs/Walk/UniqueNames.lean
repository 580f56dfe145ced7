import CodeGraph.Proofs.Walk.LinkTargets
import CodeGraph.Proofs.Walk.TypesOnce
import Mathlib.Data.List.Flatten

namespace CodeGraph

/-!
# One node for each name

The nodes of a walk stand for types, namespaces and members of the module, and for what its references
need outside. Each of them lies at the end of a path of segments below a root, and the paths differ
unless a namespace is named as a type, a member as a type beside it, or two members are shown by one
bare name.
-/

def MemberSymbol.bareName? (m : MemberSymbol) : Option Text.Chars :=
  Name.bareName? m.name (m.kind == .method)

namespace WalkContext

variable (ctx : WalkContext)

/-- Of the members that are listed in one type no two have one name and the same parameters. -/
def MembersDiffer : Prop :=
  ∀ t, ctx.Declares t → (ctx.view.members t.id).Pairwise fun i j => ∀ m n,
    ctx.view.memberSymbol ctx.index i = .ok m → ctx.view.memberSymbol ctx.index j = .ok n →
      ¬ (m.name = n.name ∧ m.signature = n.signature)

/-- The names of the module lie in no place where names of modules outside are put. -/
structure RootsApart : Prop where
  root : ctx.root ≠ "" ∧ Name.Balanced ctx.root
  externalsRoot : ctx.modules.externalsRoot ≠ ""
  group : ¬ Name.IsWithin ctx.root ctx.modules.externalsRoot
  outside : ∀ t owner, ctx.Refers (.type t) → t.owner = some owner → ctx.modules.IsOutside owner →
    ¬ Name.IsWithin ctx.root (ctx.modules.rootOf owner) ∧
      ¬ Name.IsWithin (ctx.modules.rootOf owner) ctx.root

/-- The member is listed in the type and gets a node. -/
structure HasMember (t : TypeSymbol) (m : MemberSymbol) : Prop where
  listed : ∃ id ∈ ctx.view.members t.id, ctx.view.memberSymbol ctx.index id = .ok m
  plain : m.isSkipped = false

/-- No two symbols of the module are shown by one name: no namespace goes through the name of a type, no
member is shown as a type beside it, and no two members of a type are shown by one bare name. -/
structure ShownApart : Prop where
  namespaces : ∀ t u, ctx.Declares t → ¬ t.IsNamespaceDoc → ctx.Declares u →
    ∀ raw inner, t.nesting = raw :: inner →
      ¬ Sink.namespaceParts t.ns ++ [Name.typeSegment raw] <+: Sink.namespaceParts u.ns
  types : ∀ t u, ctx.Declares t → ctx.Declares u → ∀ raw, t.ns = u.ns →
    u.nesting = t.nesting ++ [raw] → ∀ m, ctx.HasMember t m →
      m.bareName? ≠ some (Name.typeSegment raw).toList
  members : ∀ t, ctx.Declares t → (ctx.view.members t.id).Pairwise fun i j => ∀ m n,
    ctx.view.memberSymbol ctx.index i = .ok m → ctx.view.memberSymbol ctx.index j = .ok n →
      m.isSkipped = false → n.isSkipped = false →
        ∀ name, m.bareName? = some name → n.bareName? ≠ some name

variable {ctx}

/-! ## Paths -/

/-- The name lies below the root of the module, at the end of the path. -/
structure HasPath (ctx : WalkContext) (name : String) (path : List String) : Prop where
  name_eq : name = path.foldl Name.join ctx.root
  segments : ∀ segment ∈ path, Name.IsSegment segment

def typeSegments (t : TypeSymbol) : List String :=
  Sink.namespaceParts t.ns ++ t.nesting.map Name.typeSegment

theorem isSegment_of_mem_namespaceParts {ns : String} (hns : Name.IsNamespace ns) :
    ∀ part ∈ Sink.namespaceParts ns, Name.IsSegment part := by
  intro part hpart
  obtain ⟨hne, hbalanced, hundotted⟩ := Sink.of_mem_namespaceParts hns hpart
  exact ⟨hne, hbalanced, hundotted⟩

theorem namespaceParts_injective {a b : String} (ha : Name.IsNamespace a) (hb : Name.IsNamespace b)
    (h : Sink.namespaceParts a = Sink.namespaceParts b) : a = b := by
  rw [← Name.join_empty_left a, ← Name.join_empty_left b, ← Sink.foldl_join_namespaceParts ha,
    ← Sink.foldl_join_namespaceParts hb, h]

theorem OwnsNode.hasPath {type : String × TypeSymbol} (ht : ctx.HasTexts) (h : ctx.OwnsNode type) :
    ctx.HasPath type.1 (typeSegments type.2) := by
  have hns := ht.ns type.2 h.declared
  refine ⟨?_, fun segment hsegment => ?_⟩
  · rw [h.name, typeSegments, List.foldl_append, Sink.foldl_join_namespaceParts hns, List.foldl_map,
      Name.foldl_join]
    rfl
  · rcases List.mem_append.mp hsegment with hpart | hmem
    · exact isSegment_of_mem_namespaceParts hns segment hpart
    · obtain ⟨raw, hraw, rfl⟩ := List.mem_map.mp hmem
      exact (h.texts raw hraw).isSegment

theorem HasPath.join {name segment : String} {path : List String} (h : ctx.HasPath name path)
    (hsegment : Name.IsSegment segment) :
    ctx.HasPath (Name.join name segment) (path ++ [segment]) := by
  refine ⟨by rw [h.name_eq, List.foldl_append]; rfl, fun s hs => ?_⟩
  rcases List.mem_append.mp hs with hs | hs
  · exact h.segments s hs
  · exact List.mem_singleton.mp hs ▸ hsegment

/-- A namespace lies on the way to some declared type. -/
theorem exists_namespacePath (ht : ctx.HasTexts) {namespaces : Namespaces}
    (h : ctx.NamespacesOnce namespaces) {name : String} (hname : name ∈ namespaces.keys) :
    ∃ u path, ctx.Declares u ∧ path <+: Sink.namespaceParts u.ns ∧ ctx.HasPath name path := by
  obtain ⟨u, hu, hchain⟩ := h.declared name hname
  rw [namespaceChain_eq] at hchain
  obtain ⟨path, -, hin, heq⟩ := mem_chainBelow.mp hchain
  exact ⟨u, path, hu, hin, heq, fun segment hs =>
    isSegment_of_mem_namespaceParts (ht.ns u hu) segment (hin.subset hs)⟩

theorem HasMember.texts (ht : ctx.HasTexts) {t : TypeSymbol} {m : MemberSymbol}
    (h : ctx.HasMember t m) :
    Name.IsMemberText m.name ∧ ∀ p ∈ m.signature, Name.IsParameterText p := by
  obtain ⟨id, -, hsymbol⟩ := h.listed
  exact ht.member id m hsymbol h.plain

/-- A member lies below its type. -/
theorem OwnsNode.hasMember (ht : ctx.HasTexts) {type : String × TypeSymbol} (h : ctx.OwnsNode type)
    {id : Nat} (hid : id ∈ ctx.view.members type.2.id) {m : WalkedMember}
    (hm : ctx.walkedMember? type.1 id = some m) :
    ctx.HasMember type.2 m.symbol ∧
      ctx.HasPath m.name (typeSegments type.2 ++ [m.symbol.segment]) := by
  obtain ⟨hname, rfl, hsymbol, hplain⟩ := ctx.walkedMember?_eq_some_iff.mp hm
  have hmember : ctx.HasMember type.2 m.symbol := ⟨⟨m.id, hid, hsymbol⟩, hplain⟩
  obtain ⟨htext, hparams⟩ := hmember.texts ht
  refine ⟨hmember, ?_⟩
  rw [WalkedMember.name, hname]
  exact (h.hasPath ht).join (Name.isSegment_memberSegment htext hparams _)

theorem exists_memberPath (ht : ctx.HasTexts) {walk : TypeWalk}
    (hnamed : ∀ type ∈ walk.named, ctx.OwnsNode type) {m : WalkedMember}
    (hm : m ∈ ctx.walkedMembers walk) :
    ∃ type, ctx.OwnsNode type ∧ ctx.HasMember type.2 m.symbol ∧
      ctx.HasPath m.name (typeSegments type.2 ++ [m.symbol.segment]) := by
  obtain ⟨type, htype, hmem⟩ := List.mem_flatMap.mp hm
  obtain ⟨id, hid, hsome⟩ := List.mem_filterMap.mp hmem
  obtain ⟨hmember, hpath⟩ := (hnamed type htype).hasMember ht hid hsome
  exact ⟨type, hnamed type htype, hmember, hpath⟩

section Paths

variable (hr : ctx.RootsApart) (ht : ctx.HasTexts) (hs : ctx.ShownApart)

include hr in
theorem HasPath.injective {name : String} {path path' : List String} (h : ctx.HasPath name path)
    (h' : ctx.HasPath name path') : path = path' :=
  Name.foldl_join_injective hr.root h.segments h'.segments (h.name_eq.symm.trans h'.name_eq)

include hs in
/-- The path to a type is no part of a namespace. -/
theorem OwnsNode.notin_namespace {type : String × TypeSymbol} (h : ctx.OwnsNode type) {u : TypeSymbol}
    (hu : ctx.Declares u) (rest : List String) :
    ¬ typeSegments type.2 ++ rest <+: Sink.namespaceParts u.ns := by
  intro hin
  obtain ⟨raw, inner, hnesting⟩ := List.exists_cons_of_ne_nil h.ne_nil
  refine hs.namespaces type.2 u h.declared h.notDoc hu raw inner hnesting (List.IsPrefix.trans ?_ hin)
  exact ⟨inner.map Name.typeSegment ++ rest, by simp [typeSegments, hnesting]⟩

include hs in
/-- Where two paths through types agree, the namespaces end at the same place. -/
theorem typeSegments_append_cancel {type type' : String × TypeSymbol} (h : ctx.OwnsNode type)
    (h' : ctx.OwnsNode type') {rest rest' : List String}
    (heq : typeSegments type.2 ++ rest = typeSegments type'.2 ++ rest') :
    Sink.namespaceParts type.2.ns = Sink.namespaceParts type'.2.ns ∧
      type.2.nesting.map Name.typeSegment ++ rest = type'.2.nesting.map Name.typeSegment ++ rest' := by
  -- a namespace that went on would go through the outermost type
  have aligned : ∀ {a b : String × TypeSymbol} {more : List String} {x y : List String},
      ctx.OwnsNode a → ctx.OwnsNode b →
      Sink.namespaceParts b.2.ns = Sink.namespaceParts a.2.ns ++ more →
      a.2.nesting.map Name.typeSegment ++ x = more ++ y → more = [] := by
    intro a b more x y ha hb hparts hrest
    cases more with
    | nil => rfl
    | cons part more =>
        obtain ⟨raw, inner, hnesting⟩ := List.exists_cons_of_ne_nil ha.ne_nil
        rw [hnesting, List.map_cons, List.cons_append, List.cons_append] at hrest
        obtain ⟨rfl, -⟩ := List.cons.inj hrest
        refine absurd ?_ (hs.namespaces a.2 b.2 ha.declared ha.notDoc hb.declared raw inner hnesting)
        exact ⟨more, by rw [hparts]; simp⟩
  rw [typeSegments, typeSegments, List.append_assoc, List.append_assoc] at heq
  rcases List.append_eq_append_iff.mp heq with ⟨more, hparts, hrest⟩ | ⟨more, hparts, hrest⟩
  · obtain rfl := aligned h h' hparts hrest
    exact ⟨by simpa using hparts.symm, by simpa using hrest⟩
  · obtain rfl := aligned h' h hparts hrest
    exact ⟨by simpa using hparts, by simpa using hrest.symm⟩

include ht hs in
theorem typeSegments_injective {type type' : String × TypeSymbol} (h : ctx.OwnsNode type)
    (h' : ctx.OwnsNode type') (heq : typeSegments type.2 = typeSegments type'.2) :
    type.2.ns = type'.2.ns ∧ type.2.nesting = type'.2.nesting := by
  have happend : typeSegments type.2 ++ [] = typeSegments type'.2 ++ [] := by rw [heq]
  obtain ⟨hparts, hnesting⟩ := typeSegments_append_cancel hs h h' happend
  refine ⟨namespaceParts_injective (ht.ns _ h.declared) (ht.ns _ h'.declared) hparts, ?_⟩
  exact Name.map_typeSegment_injective h.texts h'.texts (by simpa using hnesting)

/-! ## The module's own names -/

section Own

variable {walk : TypeWalk} {namespaces : Namespaces}
  (hnamed : ∀ type ∈ walk.named, ctx.OwnsNode type) (hn : ctx.NamespacesOnce namespaces)

include hr ht hs hnamed

theorem typeNames_nodup
    (hdifferent : walk.named.Pairwise fun a b => ¬ (a.2.ns = b.2.ns ∧ a.2.nesting = b.2.nesting)) :
    (walk.named.map (·.1)).Nodup := by
  refine List.pairwise_map.mpr (List.Pairwise.imp_of_mem ?_ hdifferent)
  intro a b ha hb hne heq
  have hpath := HasPath.injective hr ((hnamed a ha).hasPath ht) (heq ▸ (hnamed b hb).hasPath ht)
  exact hne (typeSegments_injective ht hs (hnamed a ha) (hnamed b hb) hpath)

include hn in
theorem type_ne_namespace {type : String × TypeSymbol} (htype : type ∈ walk.named) {name : String}
    (hname : name ∈ namespaces.keys) : type.1 ≠ name := by
  rintro rfl
  obtain ⟨u, path, hu, hin, hpath⟩ := exists_namespacePath ht hn hname
  obtain rfl := HasPath.injective hr hpath ((hnamed type htype).hasPath ht)
  exact (hnamed type htype).notin_namespace hs hu [] (by simpa using hin)

include hn in
theorem namespace_ne_member {name : String} (hname : name ∈ namespaces.keys) {m : WalkedMember}
    (hm : m ∈ ctx.walkedMembers walk) : name ≠ m.name := by
  rintro rfl
  obtain ⟨u, path, hu, hin, hpath⟩ := exists_namespacePath ht hn hname
  obtain ⟨t, howns, -, hmember⟩ := exists_memberPath ht hnamed hm
  obtain rfl := HasPath.injective hr hpath hmember
  exact howns.notin_namespace hs hu _ hin

theorem type_ne_member {type : String × TypeSymbol} (htype : type ∈ walk.named) {m : WalkedMember}
    (hm : m ∈ ctx.walkedMembers walk) : type.1 ≠ m.name := by
  intro heq
  have h := hnamed type htype
  obtain ⟨around, haround, hmember, hpath⟩ := exists_memberPath ht hnamed hm
  have hpaths : typeSegments type.2 ++ [] = typeSegments around.2 ++ [m.symbol.segment] := by
    rw [List.append_nil]
    exact HasPath.injective hr (h.hasPath ht) (heq ▸ hpath)
  obtain ⟨hparts, hnesting⟩ := typeSegments_append_cancel hs h haround hpaths
  -- the type would be nested in the member's type, with the segment of the member
  rw [List.append_nil] at hnesting
  obtain ⟨outer, last, hsplit, houter, hlast⟩ := List.map_eq_append_iff.mp hnesting
  obtain ⟨raw, rfl, hraw⟩ := List.map_eq_singleton_iff.mp hlast
  have htexts : ∀ x ∈ outer ++ [raw], Name.IsTypeText x := hsplit ▸ h.texts
  obtain rfl : outer = around.2.nesting :=
    Name.map_typeSegment_injective (fun x hx => htexts x (by simp [hx])) haround.texts houter
  have hns : around.2.ns = type.2.ns :=
    (namespaceParts_injective (ht.ns _ h.declared) (ht.ns _ haround.declared) hparts).symm
  obtain ⟨htext, hparams⟩ := hmember.texts ht
  exact Name.memberSegment_ne_typeSegment htext hparams (htexts raw (by simp))
    (hs.types around.2 type.2 haround.declared h.declared raw hns hsplit m.symbol hmember) hraw.symm

theorem memberNames_nodup (hm : ctx.MembersDiffer)
    (hdifferent : walk.named.Pairwise fun a b => ¬ (a.2.ns = b.2.ns ∧ a.2.nesting = b.2.nesting)) :
    ((ctx.walkedMembers walk).map WalkedMember.name).Nodup := by
  refine List.pairwise_map.mpr (List.pairwise_flatMap.mpr ⟨fun type htype => ?_, ?_⟩)
  · have h := hnamed type htype
    refine List.pairwise_filterMap.mpr (List.Pairwise.imp_of_mem ?_
      ((hm type.2 h.declared).and (hs.members type.2 h.declared)))
    rintro i j hi hj ⟨hne, hbare⟩ m hmi n hnj heq
    obtain ⟨hmember, hpath⟩ := h.hasMember ht hi hmi
    obtain ⟨hmember', hpath'⟩ := h.hasMember ht hj hnj
    have hsegment := List.append_cancel_left (HasPath.injective hr hpath (heq ▸ hpath'))
    obtain ⟨-, rfl, hsymbol, -⟩ := ctx.walkedMember?_eq_some_iff.mp hmi
    obtain ⟨-, rfl, hsymbol', -⟩ := ctx.walkedMember?_eq_some_iff.mp hnj
    obtain ⟨htext, hparams⟩ := hmember.texts ht
    obtain ⟨htext', hparams'⟩ := hmember'.texts ht
    refine hne m.symbol n.symbol hsymbol hsymbol' (Name.memberSegment_injective htext htext' hparams
      hparams' ?_ (List.cons.inj hsegment).1)
    exact hbare m.symbol n.symbol hsymbol hsymbol' hmember.plain hmember'.plain
  · refine List.Pairwise.imp_of_mem ?_ hdifferent
    intro a b ha hb hne m hmem n hmem' heq
    obtain ⟨i, hi, hmi⟩ := List.mem_filterMap.mp hmem
    obtain ⟨j, hj, hnj⟩ := List.mem_filterMap.mp hmem'
    obtain ⟨-, hpath⟩ := (hnamed a ha).hasMember ht hi hmi
    obtain ⟨-, hpath'⟩ := (hnamed b hb).hasMember ht hj hnj
    have hpaths := HasPath.injective hr hpath (heq ▸ hpath')
    exact hne (typeSegments_injective ht hs (hnamed a ha) (hnamed b hb) (List.append_inj' hpaths rfl).1)

end Own

end Paths

/-! ## Names outside of the module -/

theorem isWithin_chainNodes {kind : NodeKind} {parent : String} (hparent : parent ≠ "")
    {segments : List String} {n : Node} (hn : n ∈ Modules.chainNodes kind parent segments) :
    Name.IsWithin parent n.name := by
  induction segments generalizing parent with
  | nil => simp [Modules.chainNodes] at hn
  | cons segment segments ih =>
      rcases List.mem_cons.mp hn with rfl | hn
      · exact Name.isWithin_join hparent segment
      · exact (Name.isWithin_join hparent segment).trans (ih (Name.join_ne_empty (Or.inl hparent)) hn)

theorem rootOf_ne_empty (hr : ctx.RootsApart) {owner : String} (hout : ctx.modules.IsOutside owner) :
    ctx.modules.rootOf owner ≠ "" := by
  have hentry : ctx.modules.get? owner = none := Dict.get?_eq_none hout.notOpened
  simp only [Modules.rootOf, hentry]
  exact Name.join_ne_empty (Or.inl hr.externalsRoot)

/-- A node on demand is the group of all modules outside, or it lies within one of these. -/
theorem Demanded.isWithin (hr : ctx.RootsApart) {n : Node} (h : ctx.Demanded n) :
    n.name = ctx.modules.externalsRoot ∨ ∃ t owner, ctx.Refers (.type t) ∧ t.owner = some owner ∧
      ctx.modules.IsOutside owner ∧ Name.IsWithin (ctx.modules.rootOf owner) n.name := by
  cases h with
  | @type t owner n hrefers howner hout hn =>
      have hroot := rootOf_ne_empty hr hout
      simp only [Modules.neededNodes, List.mem_append, List.mem_cons, List.not_mem_nil, or_false] at hn
      rcases hn with ((rfl | rfl) | hn) | hn
      · exact Or.inl rfl
      · exact Or.inr ⟨t, owner, hrefers, howner, hout, .refl _⟩
      · exact Or.inr ⟨t, owner, hrefers, howner, hout, isWithin_chainNodes hroot hn⟩
      · refine Or.inr ⟨t, owner, hrefers, howner, hout, ?_⟩
        exact (Name.isWithin_foldl_join hroot _).trans
          (isWithin_chainNodes (Name.foldl_join_ne_empty hroot _) hn)
  | @member target owner hrefers howner hout name hname =>
      have hroot := rootOf_ne_empty hr hout
      refine Or.inr ⟨target.declaring, owner, hrefers.declaring, howner, hout, ?_⟩
      obtain ⟨typeName, htypeName, rfl⟩ := Option.map_eq_some_iff.mp hname
      obtain ⟨other, hother, -, rfl⟩ := owner_of_typeName htypeName
      obtain rfl := Option.some.inj (howner.symm.trans hother)
      exact (Name.isWithin_join hroot _).trans (Name.isWithin_join (Name.join_ne_empty (Or.inl hroot)) _)

/-- What lies within the module is no node on demand. -/
theorem Demanded.ne_of_isWithin (hr : ctx.RootsApart) {n : Node} (h : ctx.Demanded n) {name : String}
    (hname : Name.IsWithin ctx.root name) : name ≠ n.name := by
  rintro rfl
  rcases h.isWithin hr with heq | ⟨t, owner, hrefers, howner, hout, hin⟩
  · exact hr.group (heq ▸ hname)
  · obtain ⟨hnot, hnot'⟩ := hr.outside t owner hrefers howner hout
    exact (hname.comparable hin).elim hnot hnot'

/-! ## The whole walk -/

theorem namespaceNames_perm (namespaces : Namespaces) :
    ((namespaceNodes namespaces).map (·.name)).Perm namespaces.keys := by
  have hnames : (namespaceNodes namespaces).map (·.name) =
      (namespaces.entries.mergeSort fun a b => !(b.1 < a.1)).map (·.1) := by
    rw [namespaceNodes, List.map_map]
    rfl
  rw [hnames]
  exact (List.mergeSort_perm _ _).map _

/-- The names of the module's own nodes: those of its types, its namespaces and its members. -/
def ownNames (ctx : WalkContext) (s : Sink) : List String :=
  (ctx.walkTypes s).1.named.map (·.1) ++ (namespaceNodes (ctx.typesMet s).namespaces).map (·.name) ++
    (ctx.walkedMembers (ctx.walkTypes s).1).map WalkedMember.name

section Walk

variable (hr : ctx.RootsApart) (hl : ctx.ListsOnce) (ht : ctx.HasTexts) (s : Sink)

include hr hl ht

theorem isWithin_of_mem_ownNames {name : String} (hname : name ∈ ctx.ownNames s) :
    Name.IsWithin ctx.root name := by
  have hnamed := named_ownsNode ht hl s
  have hpath : ∀ {name path}, ctx.HasPath name path → Name.IsWithin ctx.root name :=
    fun h => h.name_eq ▸ Name.isWithin_foldl_join hr.root.1 _
  rcases List.mem_append.mp hname with hname | hname
  · rcases List.mem_append.mp hname with hname | hname
    · obtain ⟨type, htype, rfl⟩ := List.mem_map.mp hname
      exact hpath ((hnamed type htype).hasPath ht)
    · have hkey := (namespaceNames_perm _).mem_iff.mp hname
      obtain ⟨_, _, _, _, h⟩ := exists_namespacePath ht (typesMet_namespacesOnce hr.root.1 ht s) hkey
      exact hpath h
  · obtain ⟨m, hmem, rfl⟩ := List.mem_map.mp hname
    obtain ⟨_, _, _, h⟩ := exists_memberPath ht hnamed hmem
    exact hpath h

theorem ownNames_nodup (hm : ctx.MembersDiffer) (hs : ctx.ShownApart) : (ctx.ownNames s).Nodup := by
  have hnamed := named_ownsNode ht hl s
  have hdifferent := named_different hl s
  have hn := typesMet_namespacesOnce hr.root.1 ht s
  have hperm := namespaceNames_perm (ctx.typesMet s).namespaces
  refine List.nodup_append.mpr ⟨List.nodup_append.mpr ⟨?_, ?_, ?_⟩, ?_, ?_⟩
  · exact typeNames_nodup hr ht hs hnamed hdifferent
  · exact hperm.nodup_iff.mpr hn.nodup
  · intro a ha b hb
    obtain ⟨type, htype, rfl⟩ := List.mem_map.mp ha
    exact type_ne_namespace hr ht hs hnamed hn htype (hperm.mem_iff.mp hb)
  · exact memberNames_nodup hr ht hs hnamed hm hdifferent
  · intro a ha b hb
    obtain ⟨m, hmem, rfl⟩ := List.mem_map.mp hb
    rcases List.mem_append.mp ha with ha | ha
    · obtain ⟨type, htype, rfl⟩ := List.mem_map.mp ha
      exact type_ne_member hr ht hs hnamed htype hmem
    · exact namespace_ne_member hr ht hs hnamed hn (hperm.mem_iff.mp ha) hmem

end Walk

/-- The nodes that a walk sends are the module's own and those on demand. -/
theorem walk_names_perm (s : Sink) :
    ∃ (sent : List Item) (demanded : List Node), (ctx.walk s).items.toList = s.items.toList ++ sent ∧
      (nodeNames sent).Perm (ctx.ownNames s ++ demanded.map (·.name)) ∧
      (∀ n ∈ demanded, ctx.Demanded n) ∧ (s.onDemand.Nodup → (demanded.map (·.name)).Nodup) := by
  obtain ⟨types, demanded, hsends, htypes⟩ := ctx.walk_sends s
  obtain ⟨sent, hsent, hperm⟩ := hsends.exists_sent
  refine ⟨sent, demanded, hsent, ?_, hsends.demanded, fun hd => ?_⟩
  · have hmap := hperm.map (·.name)
    rw [List.map_append, List.map_append, List.map_append, htypes, List.map_map] at hmap
    exact hmap
  · have hnodup := hsends.nodup hd
    rw [hsends.onDemand] at hnodup
    exact (List.reverse_perm _).nodup_iff.mp (List.nodup_append.mp hnodup).1

/-- No two nodes that a walk sends have one name, when the symbols of the module differ and none of them
is shown by the name of another one. -/
theorem walk_names_nodup (hr : ctx.RootsApart) (hl : ctx.ListsOnce) (hm : ctx.MembersDiffer)
    (ht : ctx.HasTexts) (hs : ctx.ShownApart) (s : Sink) (hd : s.onDemand.Nodup) :
    ∃ sent, (ctx.walk s).items.toList = s.items.toList ++ sent ∧ (nodeNames sent).Nodup := by
  obtain ⟨sent, demanded, hsent, hperm, hdemanded, hnodup⟩ := ctx.walk_names_perm s
  refine ⟨sent, hsent, hperm.nodup_iff.mpr (List.nodup_append.mpr
    ⟨ownNames_nodup hr hl ht s hm hs, hnodup hd, ?_⟩)⟩
  intro a ha b hb
  obtain ⟨n, hn, rfl⟩ := List.mem_map.mp hb
  exact (hdemanded n hn).ne_of_isWithin hr (isWithin_of_mem_ownNames hr hl ht s ha)

/-- Members that are shown by one bare name have one segment, whatever their parameters are. -/
theorem segment_eq_of_bareName? (ht : ctx.HasTexts) {t : TypeSymbol} {m n : MemberSymbol}
    (hm : ctx.HasMember t m) (hn : ctx.HasMember t n) {name : Text.Chars}
    (hbare : m.bareName? = some name) (hbare' : n.bareName? = some name) : m.segment = n.segment := by
  have hchars : ∀ {k : MemberSymbol}, ctx.HasMember t k → k.bareName? = some name →
      k.segment.toList = name := by
    intro k hk hname
    obtain ⟨htext, hparams⟩ := hk.texts ht
    rw [MemberSymbol.segment, Name.memberSegment_eq htext hparams]
    exact congrArg (Option.getD · _) hname
  exact String.toList_injective ((hchars hm hbare).trans (hchars hn hbare').symm)

/-- Two members of a type with a node get one name when they are shown by one bare name. -/
theorem walk_names_not_nodup (ht : ctx.HasTexts) (s : Sink) {type : String × TypeSymbol}
    (htype : type ∈ (ctx.walkTypes s).1.named) {m n : WalkedMember}
    (hlisted : [m.id, n.id].Sublist (ctx.view.members type.2.id))
    (hm : ctx.walkedMember? type.1 m.id = some m) (hn : ctx.walkedMember? type.1 n.id = some n)
    {name : Text.Chars} (hbare : m.symbol.bareName? = some name)
    (hbare' : n.symbol.bareName? = some name) :
    ∃ sent, (ctx.walk s).items.toList = s.items.toList ++ sent ∧ ¬ (nodeNames sent).Nodup := by
  obtain ⟨sent, demanded, hsent, hperm, -⟩ := ctx.walk_names_perm s
  have hhas : ∀ {k : WalkedMember}, k.id ∈ ctx.view.members type.2.id →
      ctx.walkedMember? type.1 k.id = some k →
      ctx.HasMember type.2 k.symbol ∧ k.name = Name.join type.1 k.symbol.segment := by
    intro k hid hk
    obtain ⟨hname, -, hsymbol, hplain⟩ := ctx.walkedMember?_eq_some_iff.mp hk
    exact ⟨⟨⟨k.id, hid, hsymbol⟩, hplain⟩, by rw [WalkedMember.name, hname]⟩
  obtain ⟨hmember, hname⟩ := hhas (hlisted.subset (by simp)) hm
  obtain ⟨hmember', hname'⟩ := hhas (hlisted.subset (by simp)) hn
  have heq : m.name = n.name := by
    rw [hname, hname', segment_eq_of_bareName? ht hmember hmember' hbare hbare']
  have hwalked : [m, n].Sublist (ctx.walkedMembers (ctx.walkTypes s).1) := by
    have hfound := hlisted.filterMap (ctx.walkedMember? type.1)
    rw [List.filterMap_cons_some hm, List.filterMap_cons_some hn, List.filterMap_nil] at hfound
    have hall := (List.singleton_sublist.mpr htype).flatMap fun type =>
      (ctx.view.members type.2.id).filterMap (ctx.walkedMember? type.1)
    rw [List.flatMap_singleton] at hall
    exact hfound.trans hall
  refine ⟨sent, hsent, fun hnodup => ?_⟩
  have hown := (List.nodup_append.mp (hperm.nodup_iff.mp hnodup)).1
  have hmembers := (List.nodup_append.mp hown).2.1
  have hpair := (hwalked.map WalkedMember.name).nodup hmembers
  simp [heq] at hpair

end WalkContext

/-! ## Overloads -/

namespace Overloads

def typeSymbol (id : Nat) : TypeSymbol :=
  { id := id
    ns := "N"
    nesting := if id = 0 then ["Grid"] else ["Grid", "Cell\x601"]
    declaring := if id = 0 then none else some 0
    base := none
    interfaces := []
    isGenerated := false
    description := none
    location := none }

def memberSymbol (kind : MemberKind) (id : Nat) : MemberSymbol :=
  { id := id
    declaring := 0
    name := "Item"
    kind := kind
    signature := if id = 0 then ["Int32"] else ["String"]
    parameters := []
    value := none
    isConstructor := false
    isImplicitCtor := false
    isPrivate := false
    isGenerated := false
    description := none
    location := none }

/-- A class with two members of one name, and a generic type nested in it. -/
def context (kind : MemberKind) : WalkContext :=
  { view :=
      { name := "lib"
        references := []
        files := []
        exports := .empty "lib"
        topLevel := [0]
        nested := fun id => if id = 0 then [1] else []
        typeSymbol := fun _ id => if id < 2 then .ok (typeSymbol id) else .error (.unknownHandle id)
        members := fun id => if id = 0 then [0, 1] else []
        memberSymbol := fun _ id =>
          if id < 2 then .ok (memberSymbol kind id) else .error (.unknownHandle id)
        hasBody := fun _ => false
        body := fun _ id => .error (.unknownHandle id)
        findMethod := fun _ _ => none
        typeCount := 2
        memberCount := 2 }
    root := "lib"
    index := .empty
    modules := (Modules.new Name.externals ⟨[]⟩).insert "lib" "lib" true }

variable {kind : MemberKind}

theorem typeSymbol_cases {id : Nat} {t : TypeSymbol}
    (h : (context kind).view.typeSymbol (context kind).index id = .ok t) :
    id = 0 ∧ t = typeSymbol 0 ∨ id = 1 ∧ t = typeSymbol 1 := by
  simp only [context] at h
  split at h
  · next hid =>
      have hcases : id = 0 ∨ id = 1 := by omega
      obtain rfl := Except.ok.inj h
      rcases hcases with rfl | rfl
      · exact Or.inl ⟨rfl, rfl⟩
      · exact Or.inr ⟨rfl, rfl⟩
  · cases h

theorem memberSymbol_eq {id : Nat} {m : MemberSymbol}
    (h : (context kind).view.memberSymbol (context kind).index id = .ok m) :
    m = memberSymbol kind id := by
  simp only [context] at h
  split at h
  · exact (Except.ok.inj h).symm
  · cases h

theorem not_refers (ref : Reference) : ¬ (context kind).Refers ref := by
  rintro (⟨id, t, ht, href⟩ | ⟨id, m, hm, href⟩ | ⟨id, r, hr, -⟩)
  · rcases typeSymbol_cases ht with ⟨-, rfl⟩ | ⟨-, rfl⟩ <;> exact absurd href List.not_mem_nil
  · rw [memberSymbol_eq hm] at href
    exact absurd href List.not_mem_nil
  · exact absurd hr List.not_mem_nil

theorem rootsApart : (context kind).RootsApart where
  root := by
    have hroot : "lib" ≠ "" ∧ Name.Balanced "lib" := by decide
    exact hroot
  externalsRoot := by
    have hgroup : Name.externals ≠ "" := by decide
    exact hgroup
  group := by
    have hgroup : ¬ Name.IsWithin "lib" Name.externals := by decide
    exact hgroup
  outside t owner hrefers := absurd hrefers (not_refers _)

theorem listsOnce : (context kind).ListsOnce where
  different := by
    intro id id' t u ht hu _ hnesting
    rcases typeSymbol_cases ht with ⟨rfl, rfl⟩ | ⟨rfl, rfl⟩ <;>
      rcases typeSymbol_cases hu with ⟨rfl, rfl⟩ | ⟨rfl, rfl⟩ <;> simp_all [typeSymbol]
  topLevel := by simp [context]
  outermost := by
    intro id hid t ht
    obtain rfl := List.mem_singleton.mp hid
    rcases typeSymbol_cases ht with ⟨-, rfl⟩ | ⟨h, -⟩
    · rfl
    · cases h
  nested id := by
    by_cases h : id = 0 <;> simp [context, h]
  extending := by
    intro id t ht child hchild u hu
    by_cases h : id = 0
    · subst h
      obtain rfl : child = 1 := List.mem_singleton.mp hchild
      rcases typeSymbol_cases ht with ⟨-, rfl⟩ | ⟨h, -⟩
      · rcases typeSymbol_cases hu with ⟨h, -⟩ | ⟨-, rfl⟩
        · cases h
        · exact ⟨rfl, _, rfl⟩
      · cases h
    · simp [context, h] at hchild

theorem pairwise_members {P : Nat → Nat → Prop} (h : P 0 1) (id : Nat) :
    ((context kind).view.members id).Pairwise P := by
  by_cases hid : id = 0 <;> simp [context, hid, h]

theorem membersDiffer : (context kind).MembersDiffer := by
  refine fun t _ => pairwise_members (fun m n hm hn heq => ?_) t.id
  rw [memberSymbol_eq hm, memberSymbol_eq hn] at heq
  exact absurd heq.2 (by simp [memberSymbol])

theorem declares_cases {t : TypeSymbol} (h : (context kind).Declares t) :
    t = typeSymbol 0 ∨ t = typeSymbol 1 := by
  obtain ⟨id, ht⟩ := h.readable
  exact (typeSymbol_cases ht).imp And.right And.right

theorem hasTexts : (context kind).HasTexts where
  ns t ht := by
    have hns : Name.IsNamespace "N" := by decide +kernel
    rcases declares_cases ht with rfl | rfl <;> exact hns
  type t ht := by
    rcases declares_cases ht with rfl | rfl
    · exact ⟨['G', 'r', 'i', 'd'], [], rfl, .of_all (by decide), by decide, by decide, by decide, .none⟩
    · exact ⟨['C', 'e', 'l', 'l'], [Name.tick, '1'], rfl, .of_all (by decide), by decide, by decide,
        by decide, .some (by decide) rfl⟩
  member id m hm _ := by
    have hname : Name.IsMemberText "Item" := ⟨by decide, .of_all (by decide)⟩
    rw [memberSymbol_eq hm]
    refine ⟨hname, fun p hp => ?_⟩
    have hcases : p = "Int32" ∨ p = "String" := by
      by_cases hid : id = 0 <;> simp_all [memberSymbol]
    rcases hcases with rfl | rfl <;> exact .of_all (by decide) (by decide)

theorem bareName?_method (id : Nat) : (memberSymbol .method id).bareName? = none := by
  have hname : Name.bareName? "Item" true = none := by decide +kernel
  exact hname

theorem shownApart : (context .method).ShownApart where
  namespaces := by
    intro t u ht _ hu raw inner hnesting hin
    have hparts : Sink.namespaceParts "N" = ["N"] := by decide +kernel
    have hns : t.ns = "N" ∧ u.ns = "N" := by
      rcases declares_cases ht with rfl | rfl <;> rcases declares_cases hu with rfl | rfl <;>
        exact ⟨rfl, rfl⟩
    have hlength := hin.length_le
    rw [hns.1, hns.2, hparts] at hlength
    simp at hlength
  types := by
    intro t u _ _ raw _ _ m hm
    obtain ⟨id, -, hsymbol⟩ := hm.listed
    rw [memberSymbol_eq hsymbol, bareName?_method]
    simp
  members := by
    refine fun t _ => pairwise_members (fun m n hm hn _ _ name hname => ?_) t.id
    rw [memberSymbol_eq hm, bareName?_method] at hname
    cases hname

end Overloads

theorem WalkContext.walk_names_nodup_overloads :
    (Overloads.context .method).RootsApart ∧ (Overloads.context .method).ListsOnce ∧
      (Overloads.context .method).MembersDiffer ∧ (Overloads.context .method).HasTexts ∧
      (Overloads.context .method).ShownApart ∧ Sink.empty.onDemand.Nodup ∧
      ∃ sent, ((Overloads.context .method).walk .empty).items.toList = Sink.empty.items.toList ++ sent ∧
        (nodeNames sent).Nodup :=
  ⟨Overloads.rootsApart, Overloads.listsOnce, Overloads.membersDiffer, Overloads.hasTexts,
    Overloads.shownApart, List.nodup_nil, WalkContext.walk_names_nodup Overloads.rootsApart
      Overloads.listsOnce Overloads.membersDiffer Overloads.hasTexts Overloads.shownApart .empty
      List.nodup_nil⟩

/-- Properties are shown without their parameters, and so overloaded indexers get one name. -/
theorem WalkContext.walk_names_of_indexers :
    (Overloads.context .property).RootsApart ∧ (Overloads.context .property).ListsOnce ∧
      (Overloads.context .property).MembersDiffer ∧ (Overloads.context .property).HasTexts ∧
      ¬ ((Overloads.context .property).walk .empty).names.Nodup := by
  have hnames : ((Overloads.context .property).walk .empty).names =
      ["lib.N.Grid", "lib.N.Grid.Cell<T>", "lib.N", "lib.N.Grid.Item", "lib.N.Grid.Item"] := by
    decide +kernel
  refine ⟨Overloads.rootsApart, Overloads.listsOnce, Overloads.membersDiffer, Overloads.hasTexts, ?_⟩
  rw [hnames]
  decide

end CodeGraph
