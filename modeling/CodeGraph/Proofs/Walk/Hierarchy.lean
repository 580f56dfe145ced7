import CodeGraph.Proofs.Walk.Closure
import CodeGraph.Proofs.Walk.Parents

namespace CodeGraph

/-!
# The hierarchy that a walk sends

The node above a type is that of the type around it or that of its namespace, and namespaces are sent
only after all types. Until then they are owed: a state of the walk keeps, beside the nodes that were
sent, the namespaces that will be.
-/

namespace WalkContext

variable {ctx : WalkContext} {owed : List String}

/-! ## Members -/

section Members

variable (hw : ctx.WellNamed)

include hw

theorem sendMember_grown (walk : TypeWalk) {m : WalkedMember}
    (hsymbol : ctx.view.memberSymbol ctx.index m.id = .ok m.symbol) {s : Sink}
    (hs : ctx.Closed owed s)
    (htype : m.typeName ≠ "" ∧ m.typeName ∈ s.names) :
    ctx.Grown owed s (ctx.sendMember walk m s) := by
  have hsegment := (hw.member m.id m.symbol hsymbol).1
  have hnode : ctx.Grown owed s (s.node m.node) :=
    .node hs (Or.inr ⟨Name.isAbove_join htype.1 hsegment, Or.inr (List.mem_append_left _ htype.2)⟩)
  exact hnode.trans ((keeps_grown hw owed).links.sendMember walk hsymbol s hnode.closed)

theorem walkMembers_grown (walk : TypeWalk) {s : Sink} (hs : ctx.Closed owed s)
    (hnamed : ∀ type ∈ walk.named, type.1 ≠ "" ∧ type.1 ∈ s.names) :
    ctx.Grown owed s (ctx.walkMembers walk s).2 := by
  rw [walkMembers_eq]
  have hmembers : ∀ m ∈ ctx.walkedMembers walk,
      ctx.view.memberSymbol ctx.index m.id = .ok m.symbol ∧ m.typeName ≠ "" ∧
      m.typeName ∈ s.names := by
    intro m hm
    obtain ⟨⟨symbol, htype, -⟩, hsymbol, -⟩ := (ctx.mem_walkedMembers_iff walk).mp hm
    exact ⟨hsymbol, hnamed _ htype⟩
  generalize ctx.walkedMembers walk = members at hmembers
  induction members generalizing s with
  | nil => exact .refl hs
  | cons m members ih =>
      obtain ⟨hsymbol, htype⟩ := hmembers m List.mem_cons_self
      have hfirst := sendMember_grown hw walk hsymbol hs htype
      refine hfirst.trans (ih hfirst.closed ?_ ?_)
      · exact fun type ht => ⟨(hnamed type ht).1, hfirst.names (hnamed type ht).2⟩
      · intro k hk
        obtain ⟨hsymbol, hne, hmem⟩ := hmembers k (List.mem_cons_of_mem m hk)
        exact ⟨hsymbol, hne, hfirst.names hmem⟩

end Members

end WalkContext

/-! ## Namespaces -/

def chainBelow (top : String) : List String → List String
  | [] => []
  | part :: parts => Name.join top part :: chainBelow (Name.join top part) parts

theorem namespaceChain_eq (root ns : String) :
    namespaceChain root ns = chainBelow root (Sink.namespaceParts ns) := by
  have hfold : ∀ (parts : List String) (state : String × List String),
      (parts.foldl (fun state part => (Name.join state.1 part, state.2 ++ [Name.join state.1 part])) state).2 =
        state.2 ++ chainBelow state.1 parts := by
    intro parts
    induction parts with
    | nil => simp [chainBelow]
    | cons part parts ih => simp [ih, chainBelow]
  exact hfold (Sink.namespaceParts ns) (root, [])

theorem foldl_join_mem_chainBelow (top : String) (parts : List String) :
    parts.foldl Name.join top = top ∨ parts.foldl Name.join top ∈ chainBelow top parts := by
  induction parts generalizing top with
  | nil => exact Or.inl rfl
  | cons part parts ih =>
      apply Or.inr
      rcases ih (Name.join top part) with h | h
      · rw [List.foldl_cons, h]
        exact List.mem_cons_self
      · exact List.mem_cons_of_mem _ h

/-- The names lie one below the other, the uppermost below the root. -/
def Chained (root : String) (names : List String) : Prop :=
  ∀ name ∈ names, Name.isAbove (Name.parent name) name = true ∧
    (Name.parent name = root ∨ Name.parent name ∈ names)

theorem chained_chainBelow {top : String} {parts : List String}
    (htop : top ≠ "" ∧ Name.Balanced top)
    (hparts : ∀ part ∈ parts, part ≠ "" ∧ Name.Balanced part ∧ Name.IsUndotted part) :
    Chained top (chainBelow top parts) := by
  induction parts generalizing top with
  | nil => simp [Chained, chainBelow]
  | cons part parts ih =>
      obtain ⟨hne, hbalanced, hundotted⟩ := hparts part List.mem_cons_self
      have hparent : Name.parent (Name.join top part) = top :=
          Name.parent_join htop.1 hne htop.2 hundotted
      have hmore := ih ⟨Name.join_ne_empty (Or.inl htop.1), htop.2.join hbalanced⟩
        fun p hp => hparts p (List.mem_cons_of_mem part hp)
      intro name hname
      rcases List.mem_cons.mp hname with rfl | hname
      · rw [hparent]
        exact ⟨Name.isAbove_join htop.1 hne, Or.inl rfl⟩
      · obtain ⟨habove, hbelow⟩ := hmore name hname
        refine ⟨habove, Or.inr ?_⟩
        rcases hbelow with h | h
        · rw [h]
          exact List.mem_cons_self
        · exact List.mem_cons_of_mem _ h

theorem Chained.of_mem_iff {root : String} {names more all : List String} (h₁ : Chained root names)
    (h₂ : Chained root more) (hall : ∀ name, name ∈ all ↔ name ∈ names ∨ name ∈ more) :
    Chained root all := by
  intro name hname
  rcases (hall name).mp hname with hname | hname
  · obtain ⟨habove, hparent⟩ := h₁ name hname
    exact ⟨habove, hparent.imp_right fun h => (hall _).mpr (Or.inl h)⟩
  · obtain ⟨habove, hparent⟩ := h₂ name hname
    exact ⟨habove, hparent.imp_right fun h => (hall _).mpr (Or.inr h)⟩

namespace Namespaces

theorem mem_keys_register (n : Namespaces) (root ns name : String) :
    name ∈ (n.register root ns).keys ↔ name ∈ n.keys ∨ name ∈ namespaceChain root ns := by
  unfold register
  generalize namespaceChain root ns = chain
  induction chain generalizing n with
  | nil => simp
  | cons first chain ih =>
      rw [List.foldl_cons, ih, List.mem_cons]
      by_cases h : n.contains first = true
      · have hfirst := Dict.contains_iff_mem_keys.mp h
        rw [if_pos h]
        constructor
        · rintro (hname | hname)
          · exact Or.inl hname
          · exact Or.inr (Or.inr hname)
        · rintro (hname | rfl | hname)
          · exact Or.inl hname
          · exact Or.inl hfirst
          · exact Or.inr hname
      · rw [if_neg h, Dict.mem_keys_insert]
        tauto

/-- A namespace that is not the root's own is registered. -/
theorem mem_keys_register_self (n : Namespaces) (root : String) {ns : String}
    (hns : Name.IsNamespace ns) :
    Name.join root ns = root ∨ Name.join root ns ∈ (n.register root ns).keys := by
  rw [mem_keys_register, namespaceChain_eq, ← Sink.foldl_join_namespaceParts hns]
  exact (foldl_join_mem_chainBelow root _).imp_right Or.inr

theorem chained_register {n : Namespaces} {root ns : String}
    (hroot : root ≠ "" ∧ Name.Balanced root)
    (hns : Name.IsNamespace ns) (h : Chained root n.keys) :
    Chained root (n.register root ns).keys := by
  have hchain : Chained root (namespaceChain root ns) := by
    rw [namespaceChain_eq]
    exact chained_chainBelow hroot fun part hpart => Sink.of_mem_namespaceParts hns hpart
  exact h.of_mem_iff hchain (n.mem_keys_register root ns)

end Namespaces

namespace WalkContext

variable {ctx : WalkContext} {s : Sink}

def namespaceNode (entry : String × Option String) : Node :=
  (Node.plain entry.1 (Name.parent entry.1) .namespacePart).describedAs entry.2

theorem sendNamespaces_sent (namespaces : Namespaces) (s : Sink) :
    (∀ n, n ∈ (sendNamespaces namespaces s).nodes ↔
      n ∈ s.nodes ∨ ∃ e ∈ namespaces.entries, namespaceNode e = n) ∧
      (sendNamespaces namespaces s).onDemand = s.onDemand := by
  suffices ∀ (entries : List (String × Option String)) (s : Sink),
      (entries.foldl (fun s e => s.node (namespaceNode e)) s).nodes =
          s.nodes ++ entries.map namespaceNode ∧
        (entries.foldl (fun s e => s.node (namespaceNode e)) s).onDemand = s.onDemand by
    obtain ⟨hnodes, hdemand⟩ := this (namespaces.entries.mergeSort fun a b => !(b.1 < a.1)) s
    refine ⟨fun n => ?_, hdemand⟩
    have hsent : n ∈ (sendNamespaces namespaces s).nodes ↔
        n ∈ s.nodes ++
          (namespaces.entries.mergeSort fun a b => !(b.1 < a.1)).map namespaceNode := by
      rw [← hnodes]
      rfl
    simp [hsent]
  intro entries
  induction entries with
  | nil => simp
  | cons e entries ih =>
      intro s
      obtain ⟨hnodes, hdemand⟩ := ih (s.node (namespaceNode e))
      refine ⟨?_, hdemand⟩
      rw [List.foldl_cons, hnodes]
      simp

/-- Once the namespaces are sent nothing is owed any more. -/
theorem sendNamespaces_closed {namespaces : Namespaces}
    (hchained : Chained ctx.root namespaces.keys)
    (hs : ctx.Closed namespaces.keys s) :
    ctx.Closed [] (sendNamespaces namespaces s) ∧
      s.names ⊆ (sendNamespaces namespaces s).names := by
  obtain ⟨hnodes, hdemand⟩ := sendNamespaces_sent namespaces s
  have hsub : s.names ⊆ (sendNamespaces namespaces s).names := by
    intro name hname
    obtain ⟨n, hn, rfl⟩ := List.mem_map.mp hname
    exact List.mem_map.mpr ⟨n, (hnodes n).mpr (Or.inl hn), rfl⟩
  have hkeys : namespaces.keys ⊆ (sendNamespaces namespaces s).names := by
    intro name hname
    obtain ⟨e, he, rfl⟩ := List.mem_map.mp hname
    exact List.mem_map.mpr ⟨namespaceNode e, (hnodes _).mpr (Or.inr ⟨e, he, rfl⟩), rfl⟩
  refine ⟨⟨?_, ?_⟩, hsub⟩
  · intro n hn
    rw [List.append_nil]
    rcases (hnodes n).mp hn with hn | ⟨e, he, rfl⟩
    · exact (hs.hangs n hn).mono (List.append_subset.mpr ⟨hsub, hkeys⟩)
    · obtain ⟨habove, hparent⟩ := hchained e.1 (List.mem_map.mpr ⟨e, he, rfl⟩)
      exact Or.inr ⟨habove, hparent.imp_right fun h => hkeys h⟩
  · rw [hdemand]
    exact List.Subset.trans hs.onDemand hsub

/-! ## Types -/

/-- A type that is met below a name is nested in the type of that name. -/
def Below (ctx : WalkContext) (declaring : String) (id : Nat) : Prop :=
  ∃ ns nesting, declaring = ctx.ownTypeName ns nesting ∧
    ∀ symbol, ctx.view.typeSymbol ctx.index id = .ok symbol →
      symbol.ns = ns ∧ ∃ raw, symbol.nesting = nesting ++ [raw]

structure TypesHang (ctx : WalkContext) (state : TypeWalkState)
    (pending : List (Nat × Option String)) : Prop where
  closed : ctx.Closed state.namespaces.keys state.sink
  chained : Chained ctx.root state.namespaces.keys
  named : ∀ type ∈ state.walk.named, type.1 ≠ "" ∧ type.1 ∈ state.sink.names
  pending : ∀ id declaring, (id, some declaring) ∈ pending → declaring ∈ state.sink.names ∧
    ctx.Below declaring id

section Types

variable (hw : ctx.WellNamed)

include hw

theorem ownTypeName_ne_empty (ns : String) (nesting : List String) :
    ctx.ownTypeName ns nesting ≠ "" :=
  Name.join_ne_empty (Or.inl hw.root.1)

theorem nesting_ne_nil {id : Nat} {symbol : TypeSymbol}
    (hsymbol : ctx.view.typeSymbol ctx.index id = .ok symbol) :
    symbol.nesting ≠ [] := by
  intro hnil
  have hname : symbol.name = "" := by simp [TypeSymbol.name, hnil]
  obtain ⟨-, hraw⟩ := hw.type id symbol hsymbol
  exact (hraw symbol.name List.mem_cons_self).ne_empty (by rw [hname, Name.canonicalize_empty])

/-- A type lies below its namespace, and below the type around it. -/
theorem isAbove_ownTypeName {id : Nat} {symbol : TypeSymbol}
    (hsymbol : ctx.view.typeSymbol ctx.index id = .ok symbol) {declaring : Option String}
    (hbelow : ∀ name, declaring = some name → ctx.Below name id) :
    Name.isAbove (declaring.getD (Name.join ctx.root symbol.ns))
      (ctx.ownTypeName symbol.ns symbol.nesting) = true := by
  obtain ⟨-, hraw⟩ := hw.type id symbol hsymbol
  cases declaring with
  | none =>
      have hpath : Name.typePath "" symbol.nesting ≠ "" :=
        Name.typePath_ne_empty (nesting_ne_nil hw hsymbol) fun raw h =>
          (hraw raw (List.mem_cons_of_mem _ h)).ne_empty
      rw [Option.getD_none, ownTypeName, Name.typePath_eq_join, ← Name.join_assoc]
      exact Name.isAbove_join (Name.join_ne_empty (Or.inl hw.root.1)) hpath
  | some name =>
      obtain ⟨ns, nesting, hname, hsub⟩ := hbelow name rfl
      obtain ⟨hns, raw, hnesting⟩ := hsub symbol hsymbol
      have hsegment : Name.typeSegment raw ≠ "" :=
        Name.moduleSegment_ne_empty (hraw raw (by simp [hnesting])).ne_empty
      have hown : ctx.ownTypeName symbol.ns symbol.nesting =
          Name.join name (Name.typeSegment raw) := by
        rw [hns, hnesting, ownTypeName, Name.typePath_append, ← Name.join_assoc, hname]
        rfl
      rw [Option.getD_some, hown]
      exact Name.isAbove_join (hname ▸ ownTypeName_ne_empty hw ns nesting) hsegment

theorem TypesHang.sent {state : TypeWalkState} {id : Nat} {declaring : Option String}
    {pending : List (Nat × Option String)} {symbol : TypeSymbol}
    (h : ctx.TypesHang state ((id, declaring) :: pending))
    (hsymbol : ctx.view.typeSymbol ctx.index id = .ok symbol) :
    ctx.TypesHang (ctx.sendType state declaring symbol)
      ((ctx.view.nested id).map (·, some (ctx.ownTypeName symbol.ns symbol.nesting)) ++ pending) := by
  obtain ⟨hns, -⟩ := hw.type id symbol hsymbol
  have hdeclaring : ∀ name, declaring = some name → name ∈ state.sink.names ∧
      ctx.Below name id := by
    rintro name rfl
    exact h.pending id name List.mem_cons_self
  have hkeys : state.namespaces.keys ⊆ (ctx.sendType state declaring symbol).namespaces.keys := by
    intro key hkey
    simp only [sendType]
    split
    · exact (Namespaces.mem_keys_register _ _ _ _).mpr (Or.inl hkey)
    · exact hkey
  have hnode : ctx.Hangs (state.sink.names ++ (ctx.sendType state declaring symbol).namespaces.keys)
      (ctx.typeNode (declaring.getD (Name.join ctx.root symbol.ns)) symbol) := by
    refine Or.inr ⟨isAbove_ownTypeName hw hsymbol fun name hname => (hdeclaring name hname).2, ?_⟩
    cases declaring with
    | none =>
        exact (Namespaces.mem_keys_register_self state.namespaces ctx.root hns).imp_right
          (List.mem_append_right _)
    | some name => exact Or.inr (List.mem_append_left _ (hdeclaring name rfl).1)
  have hsent := Grown.node (h.closed.mono hkeys) hnode
  have hlinks := (keeps_grown hw _).links.sendTypeLinks hsymbol
    (ctx.ownTypeName symbol.ns symbol.nesting) _ hsent.closed
  have hgrown := hsent.trans hlinks
  have hname : ctx.ownTypeName symbol.ns symbol.nesting ∈ (ctx.sendType state declaring symbol).sink.names :=
    hlinks.names (mem_names_node _)
  refine ⟨hgrown.closed, ?_, ?_, ?_⟩
  · simp only [sendType]
    split
    · exact Namespaces.chained_register hw.root hns h.chained
    · exact h.chained
  · intro type htype
    simp only [sendType, named_push_sent, List.mem_append, List.mem_singleton] at htype
    rcases htype with htype | rfl
    · exact ⟨(h.named type htype).1, hgrown.names (h.named type htype).2⟩
    · exact ⟨ownTypeName_ne_empty hw _ _, hname⟩
  · intro child name hmem
    rcases List.mem_append.mp hmem with hmem | hmem
    · simp only [List.mem_map, Prod.mk.injEq, Option.some.injEq] at hmem
      obtain ⟨child, hchild, rfl, rfl⟩ := hmem
      exact ⟨hname, symbol.ns, symbol.nesting, rfl, fun inner hinner =>
        hw.nested id symbol hsymbol child hchild inner hinner⟩
    · obtain ⟨hsent, hbelow⟩ := h.pending child name (List.mem_cons_of_mem _ hmem)
      exact ⟨hgrown.names hsent, hbelow⟩

theorem TypesHang.doc {state : TypeWalkState} {id : Nat} {pending : List (Nat × Option String)}
    {symbol : TypeSymbol} (h : ctx.TypesHang state pending)
    (hsymbol : ctx.view.typeSymbol ctx.index id = .ok symbol) (hns : symbol.ns ≠ "") :
    ctx.TypesHang (ctx.describeNamespace state symbol) pending := by
  obtain ⟨hnamespace, -⟩ := hw.type id symbol hsymbol
  have hself : Name.join ctx.root symbol.ns ∈ (state.namespaces.register ctx.root symbol.ns).keys := by
    refine (Namespaces.mem_keys_register_self state.namespaces ctx.root hnamespace).resolve_left fun heq => ?_
    have habove := Name.isAbove_join hw.root.1 hns
    rw [heq, Name.isAbove_self] at habove
    exact Bool.false_ne_true habove
  have hkeys : ∀ name, name ∈ (ctx.describeNamespace state symbol).namespaces.keys ↔
      name ∈ (state.namespaces.register ctx.root symbol.ns).keys := by
    intro name
    simp only [describeNamespace, Dict.mem_keys_insert, or_iff_right_iff_imp]
    rintro rfl
    exact hself
  refine ⟨h.closed.mono ?_, ?_, h.named, h.pending⟩
  · intro name hname
    exact (hkeys name).mpr ((Namespaces.mem_keys_register _ _ _ _).mpr (Or.inl hname))
  · have hregistered := Namespaces.chained_register hw.root hnamespace h.chained
    exact hregistered.of_mem_iff hregistered fun name => by rw [hkeys, or_self]

theorem TypesHang.step {state : TypeWalkState} {id : Nat} {declaring : Option String}
    {pending : List (Nat × Option String)} {result : TypeWalkState × List (Nat × Option String)}
    (hmet : ctx.TypeMet state id declaring result)
    (h : ctx.TypesHang state ((id, declaring) :: pending)) :
    ctx.TypesHang result.1 (result.2 ++ pending) := by
  have hrest : ctx.TypesHang state pending :=
    ⟨h.closed, h.chained, h.named, fun child name hmem =>
      h.pending child name (List.mem_cons_of_mem _ hmem)⟩
  cases hmet with
  | unread | madeUp | globalDoc => exact hrest
  | async symbol =>
      refine ⟨hrest.closed, hrest.chained, ?_, hrest.pending⟩
      simpa only [rememberAsync, named_push_async] using hrest.named
  | doc symbol hsymbol _ _ hns => exact hrest.doc hw hsymbol hns
  | sent symbol hsymbol => exact h.sent hw hsymbol

omit hw in
theorem TypesHang.rotate {state : TypeWalkState} {types rest : List (Nat × Option String)}
    (h : ctx.TypesHang state (types ++ rest)) : ctx.TypesHang state (rest ++ types) :=
  ⟨h.closed, h.chained, h.named, fun id declaring hmem =>
    h.pending id declaring (List.mem_append.mpr (List.mem_append.mp hmem).symm)⟩

theorem walkTypes_hang (s : Sink) (hs : ctx.Closed [] s) :
    ctx.Closed [] (ctx.walkTypes s).2 ∧
      ∀ type ∈ (ctx.walkTypes s).1.named, type.1 ≠ "" ∧ type.1 ∈ (ctx.walkTypes s).2.names := by
  have start : ctx.TypesHang ⟨.empty, .empty, s⟩ (ctx.view.topLevel.map (·, none) ++ []) := by
    refine ⟨hs, ?_, ?_, ?_⟩
    · simp [Chained]
    · simp [TypeWalk.named, TypeWalk.empty]
    · simp
  obtain ⟨left, h, -⟩ := ctx.walkNested_invariant (P := ctx.TypesHang)
    (fun _ _ _ _ _ hmet h => TypesHang.step hw hmet h) (fun _ _ _ h => h.rotate)
    (ctx.view.typeCount + 1) _ _ [] start
  obtain ⟨hclosed, hnames⟩ := sendNamespaces_closed h.chained h.closed
  exact ⟨hclosed, fun type htype => ⟨(h.named type htype).1, hnames (h.named type htype).2⟩⟩

end Types

/-- Every node that a walk over one module sends is the group of the modules outside the input, or it lies
strictly below the node that it names as its parent, and that one was sent too or is the root. -/
theorem walk_hangs (hw : ctx.WellNamed) :
    ∀ n ∈ (ctx.walk .empty).nodes, ctx.Hangs (ctx.walk .empty).names n := by
  have hempty : ctx.Closed [] .empty := ⟨by simp [Sink.nodes, Sink.empty], by simp [Sink.empty]⟩
  obtain ⟨htypes, hnamed⟩ := walkTypes_hang hw .empty hempty
  have hwalk : ctx.Closed [] (ctx.walk .empty) := (walkMembers_grown hw _ htypes hnamed).closed
  intro n hn
  simpa using hwalk.hangs n hn

end WalkContext

namespace Sample

theorem typeSymbol_eq {id : Nat} {symbol : TypeSymbol}
    (h : context.view.typeSymbol context.index id = .ok symbol) :
    id < 3 ∧ typeSymbol id = symbol := by
  simp only [context, view] at h
  split at h
  · next hid => exact ⟨hid, Except.ok.inj h⟩
  · cases h

theorem memberSymbol_eq {id : Nat} {symbol : MemberSymbol}
    (h : context.view.memberSymbol context.index id = .ok symbol) :
    id < 5 ∧ memberSymbol id = symbol := by
  simp only [context, view] at h
  split at h
  · next hid => exact ⟨hid, Except.ok.inj h⟩
  · cases h

theorem references_plain {n : NamedType} (h : n.args = []) :
    (TypeRef.named n).references = [.type n] := by
  simp [TypeRef.references, TypeRef.namedTypes, TypeRef.namedTypesFrom, TypeRef.pushArgs, h]

theorem refers_cases {ref : Reference} (h : context.Refers ref) :
    (∃ n ∈ [object, stateMachine, named 0, named 1, named 2], ref = .type n) ∨
      ∃ m ∈ [memberRef 2, memberRef 3, closureCtor], ref = .member m := by
  rcases h with ⟨id, symbol, hsymbol, h⟩ | ⟨id, symbol, hsymbol, h⟩ | ⟨id, r, hr, h⟩
  · obtain ⟨hid, rfl⟩ := typeSymbol_eq hsymbol
    have hcases : id = 0 ∨ id = 1 ∨ id = 2 := by omega
    rcases hcases with rfl | rfl | rfl
    · have heq : (typeSymbol 0).references = (TypeRef.named object).references ++ [] := rfl
      rw [heq, references_plain rfl] at h
      exact Or.inl ⟨object, by simp, List.mem_singleton.mp h⟩
    · have heq : (typeSymbol 1).references = (TypeRef.named stateMachine).references ++ [] := rfl
      rw [heq, references_plain rfl] at h
      exact Or.inl ⟨stateMachine, by simp, List.mem_singleton.mp h⟩
    · exact absurd h List.not_mem_nil
  · obtain ⟨-, rfl⟩ := memberSymbol_eq hsymbol
    exact absurd h List.not_mem_nil
  · have hmention := mentions_subset id hr
    simp only [List.mem_cons, List.not_mem_nil, or_false] at hmention
    rcases hmention with rfl | rfl | rfl | rfl
    · rw [BodyRef.references, references_plain rfl] at h
      exact Or.inl ⟨named 1, by simp, List.mem_singleton.mp h⟩
    · rcases List.mem_cons.mp h with rfl | h
      · exact Or.inr ⟨memberRef 2, by simp, rfl⟩
      · exact Or.inl ⟨named 0, by simp, List.mem_singleton.mp h⟩
    · rcases List.mem_cons.mp h with rfl | h
      · exact Or.inr ⟨closureCtor, by simp, rfl⟩
      · exact Or.inl ⟨named 2, by simp, List.mem_singleton.mp h⟩
    · rcases List.mem_cons.mp h with rfl | h
      · exact Or.inr ⟨memberRef 3, by simp, rfl⟩
      · exact Or.inl ⟨named 1, by simp, List.mem_singleton.mp h⟩

theorem wellNamed : context.WellNamed where
  root := by decide +kernel
  externalsRoot := by decide +kernel
  type := by
    intro id symbol h
    obtain ⟨hid, rfl⟩ := typeSymbol_eq h
    have hall : ∀ id < 3, Name.IsNamespace (typeSymbol id).ns ∧
        ∀ raw ∈ (typeSymbol id).name :: (typeSymbol id).nesting, Name.IsTypeName raw := by
      decide +kernel
    exact hall id hid
  nested := by
    intro id symbol h child hchild inner hinner
    obtain ⟨hid, rfl⟩ := typeSymbol_eq h
    obtain ⟨-, rfl⟩ := typeSymbol_eq hinner
    have hcases : id = 0 ∧ (child = 1 ∨ child = 2) := by
      by_cases h0 : id = 0 <;> simp_all [context, view]
    obtain ⟨rfl, rfl | rfl⟩ := hcases
    · exact ⟨rfl, _, rfl⟩
    · exact ⟨rfl, _, rfl⟩
  member := by
    intro id symbol h
    obtain ⟨hid, rfl⟩ := memberSymbol_eq h
    have hall : ∀ id < 5, (memberSymbol id).segment ≠ "" ∧
        Name.IsUndotted (memberSymbol id).segment := by
      decide +kernel
    exact hall id hid
  typeRef := by
    intro target h
    rcases refers_cases h with ⟨n, hn, heq⟩ | ⟨m, -, heq⟩
    · cases heq
      have hall : ∀ n ∈ [object, stateMachine, named 0, named 1, named 2],
          n.HasNames := by decide +kernel
      exact hall target hn
    · cases heq
  memberRef := by
    intro target h
    rcases refers_cases h with ⟨n, -, heq⟩ | ⟨m, hm, heq⟩
    · cases heq
    · cases heq
      have hall : ∀ m ∈ [memberRef 2, memberRef 3, closureCtor], m.segment ≠ "" ∧
          Name.IsUndotted m.segment := by
        decide +kernel
      exact hall target hm

end Sample

theorem WalkContext.walk_hangs_run :
    Sample.context.WellNamed ∧
      ∀ n ∈ (Sample.context.walk .empty).nodes,
        Sample.context.Hangs (Sample.context.walk .empty).names n :=
  ⟨Sample.wellNamed, WalkContext.walk_hangs Sample.wellNamed⟩

end CodeGraph
