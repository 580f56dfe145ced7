import CodeGraph.Proofs.Walk.Scripts

namespace CodeGraph

/-!
# Chains of nodes outside

Whoever links to a module that was not opened asks for the nodes down to his target: for the group of all
such modules, for a module, for a type or for a member. All of them share the names that were sent, so that
what one request covers the next one leaves out. Every request goes from the group downward, and therefore
the parent of each node was sent before it, whoever asked for that.
-/

theorem Name.parent_join_of_isUndotted {a b : String} (ha : Balanced a) (hb : b ≠ "") (h : IsUndotted b) :
    parent (join a b) = a := by
  by_cases hne : a = ""
  · rw [hne, join_empty_left, parent, splitLast, isUndotted_iff.mp h]
    rfl
  · exact parent_join hne hb ha h

theorem Name.isUndotted_moduleSegment (name : String) : IsUndotted (moduleSegment name) := by
  apply isUndotted_of_notMem
  rw [moduleSegment, String.toList_ofList, escapeDots, List.mem_map]
  rintro ⟨c, -, hc⟩
  split at hc
  · cases hc
  · next hne => exact hne hc

/-! ## Requests -/

inductive Request where
  | group
  | module (name : String)
  | type (t : NamedType)
  | member (declaring : NamedType) (name : String) (kind : MemberKind)

namespace Modules

def groupNode (m : Modules) : Node :=
  .plain m.externalsRoot (Name.parent m.externalsRoot) .external

/-- The module is not opened, and its name can be a segment. -/
structure IsUnopened (m : Modules) (name : String) : Prop where
  notOpened : m.isOpened name = false
  ne_empty : name ≠ ""
  balanced : Name.Balanced name

/-- The names in a reference to a type outside can be parts of names. A segment may be empty. -/
structure IsReference (m : Modules) (t : NamedType) : Prop where
  owner : ∀ owner ∈ t.owner, m.IsUnopened owner
  ns : Name.IsNamespace t.ns
  nesting : ∀ raw ∈ t.nesting, Name.Balanced (Name.canonicalize raw)

/-- The nodes that have to be there for a type. -/
def typeNodes (m : Modules) (t : NamedType) : List Node :=
  t.owner.elim [] (m.neededNodes · t)

/-- The names from the group down to a type. -/
def typeChain (m : Modules) (t : NamedType) : List String :=
  match t.owner with
  | none => []
  | some owner =>
    [m.externalsRoot, m.rootOf owner] ++ chainBelow (m.rootOf owner) (Sink.namespaceParts t.ns) ++
      chainBelow (Name.join (m.rootOf owner) t.ns) (t.nesting.map Name.typeSegment)

end Modules

namespace Request

variable (m : Modules)

def serve (s : Sink) : Request → Sink
  | group => s.demandGroup m
  | module name => s.demandModule m name
  | type t => s.demandType m t
  | member declaring name kind => s.demandMember m declaring name kind

/-- The names from the group down to what is asked for. -/
def chain : Request → List String
  | group => [m.externalsRoot]
  | module name => [m.externalsRoot, m.rootOf name]
  | type t => m.typeChain t
  | member declaring name _ => m.typeChain declaring ++ [name]

/-- What is asked for has a name, a member that of its type with a segment behind it. -/
inductive IsNamed : Request → Prop
  | group : IsNamed group
  | module {name : String} (h : m.IsUnopened name) : IsNamed (module name)
  | type {t : NamedType} (h : m.IsReference t) : IsNamed (type t)
  | member {t : NamedType} (h : m.IsReference t) {typeName segment : String}
      (htype : m.typeName t = some typeName) (hne : segment ≠ "") (hundotted : Name.IsUndotted segment)
      (kind : MemberKind) : IsNamed (member t (Name.join typeName segment) kind)

/-- The nodes that have to be there for the request, in the order in which they are demanded. -/
def nodes : Request → List Node
  | group => [m.groupNode]
  | module name => [m.groupNode, .plain (m.rootOf name) m.externalsRoot .external]
  | type t => m.typeNodes t
  | member declaring name kind => m.typeNodes declaring ++ [.ofMember name (Name.parent name) kind false]

end Request

theorem Sink.demandType_eq_foldl (s : Sink) (m : Modules) (t : NamedType) :
    s.demandType m t = (m.typeNodes t).foldl demand s := by
  cases howner : t.owner with
  | none => simp [demandType, Modules.typeNodes, howner]
  | some owner =>
      rw [demandType_eq s m howner, Modules.typeNodes, howner]
      rfl

theorem Request.serve_eq (m : Modules) (s : Sink) (r : Request) :
    r.serve m s = (r.nodes m).foldl Sink.demand s := by
  cases r with
  | group | module => rfl
  | type t => exact s.demandType_eq_foldl m t
  | member declaring name kind =>
      rw [serve, Sink.demandMember, Sink.demandType_eq_foldl, nodes, List.foldl_append]
      rfl

/-! ## Names of the chain -/

theorem Modules.names_chainNodes (kind : NodeKind) (parent : String) (segments : List String) :
    (chainNodes kind parent segments).map (·.name) = chainBelow parent segments := by
  induction segments generalizing parent with
  | nil => rfl
  | cons segment more ih =>
      rw [chainNodes, List.map_cons, ih]
      rfl

theorem Modules.names_typeNodes {m : Modules} {t : NamedType} (h : m.IsReference t) :
    (m.typeNodes t).map (·.name) = m.typeChain t := by
  rw [typeNodes, typeChain]
  cases t.owner with
  | none => rfl
  | some owner =>
      rw [Option.elim_some, neededNodes, Sink.foldl_join_namespaceParts h.ns, List.map_append,
        List.map_append, names_chainNodes, names_chainNodes]
      rfl

theorem Request.names_nodes {m : Modules} {r : Request} (h : r.IsNamed m) :
    (r.nodes m).map (·.name) = r.chain m := by
  cases h with
  | group | module => rfl
  | type h => exact Modules.names_typeNodes h
  | member h =>
      rw [nodes, chain, List.map_append, Modules.names_typeNodes h]
      rfl

/-! ## From the group downward -/

namespace Modules

variable {m : Modules} {known known' : List String}

/-- The node is the group, or the name above its own is that of a node that is known. -/
def Stands (m : Modules) (known : List String) (n : Node) : Prop :=
  n = m.groupNode ∨ n.parent = Name.parent n.name ∧ n.parent ∈ known

/-- When its turn comes, each node is known or stands on one that is. -/
def Descends (m : Modules) : List String → List Node → Prop
  | _, [] => True
  | known, n :: more => (n.name ∈ known ∨ m.Stands known n) ∧ m.Descends (known ++ [n.name]) more

theorem Stands.mono {n : Node} (h : m.Stands known n) (hsub : known ⊆ known') : m.Stands known' n :=
  h.imp_right fun h => ⟨h.1, hsub h.2⟩

theorem Descends.mono {ns : List Node} (h : m.Descends known ns) (hsub : known ⊆ known') :
    m.Descends known' ns := by
  induction ns generalizing known known' with
  | nil => trivial
  | cons n ns ih =>
      have hnext : known ++ [n.name] ⊆ known' ++ [n.name] := List.append_subset.mpr
        ⟨List.subset_append_of_subset_left _ hsub, List.subset_append_right _ _⟩
      exact ⟨h.1.imp (fun hmem => hsub hmem) fun h => h.mono hsub, ih h.2 hnext⟩

theorem Descends.append {ns more : List Node} (h : m.Descends known ns)
    (hmore : m.Descends (known ++ ns.map (·.name)) more) : m.Descends known (ns ++ more) := by
  induction ns generalizing known with
  | nil => simpa using hmore
  | cons n ns ih =>
      refine ⟨h.1, ih h.2 ?_⟩
      simpa [List.append_assoc] using hmore

/-- Segments one behind the other, of which some may be empty and lead nowhere. -/
theorem descends_chainNodes (kind : NodeKind) {parent : String} {segments : List String}
    (hparent : Name.Balanced parent) (hmem : parent ∈ known)
    (h : ∀ segment ∈ segments, Name.Balanced segment ∧ Name.IsUndotted segment) :
    m.Descends known (chainNodes kind parent segments) := by
  induction segments generalizing parent known with
  | nil => trivial
  | cons segment more ih =>
      obtain ⟨⟨hbalanced, hundotted⟩, hmore⟩ := List.forall_mem_cons.mp h
      refine ⟨?_, ih (hparent.join hbalanced) (List.mem_append_right _ List.mem_cons_self) hmore⟩
      by_cases hne : segment = ""
      · left
        rw [hne]
        simpa [Node.plain] using hmem
      · right
        exact .inr ⟨(Name.parent_join_of_isUndotted hparent hne hundotted).symm, hmem⟩

theorem IsUnopened.rootOf_eq {name : String} (h : m.IsUnopened name) :
    m.rootOf name = Name.join m.externalsRoot (Name.moduleSegment name) := by
  have hentry : m.get? name = none := Dict.get?_eq_none h.notOpened
  rw [rootOf, hentry]

section Balanced

variable (hroot : Name.Balanced m.externalsRoot)

include hroot

theorem IsUnopened.balanced_rootOf {name : String} (h : m.IsUnopened name) :
    Name.Balanced (m.rootOf name) := by
  rw [h.rootOf_eq]
  exact hroot.join h.balanced.moduleSegment

theorem descends_module {name : String} (h : m.IsUnopened name) :
    m.Descends [] [m.groupNode, .plain (m.rootOf name) m.externalsRoot .external] := by
  have hparent : Name.parent (m.rootOf name) = m.externalsRoot := by
    rw [h.rootOf_eq]
    exact Name.parent_join_of_isUndotted hroot (Name.moduleSegment_ne_empty h.ne_empty)
      (Name.isUndotted_moduleSegment name)
  refine ⟨.inr (.inl rfl), .inr (.inr ⟨hparent.symm, ?_⟩), trivial⟩
  exact List.mem_append_right _ List.mem_cons_self

theorem descends_typeNodes {t : NamedType} (h : m.IsReference t) : m.Descends [] (m.typeNodes t) := by
  rw [typeNodes]
  cases howner : t.owner with
  | none => trivial
  | some owner =>
      have hunopened := h.owner owner howner
      have hbalanced := hunopened.balanced_rootOf hroot
      have hparts : ∀ part ∈ Sink.namespaceParts t.ns, Name.Balanced part ∧ Name.IsUndotted part :=
        fun part hpart => (Sink.of_mem_namespaceParts h.ns hpart).2
      have hsegments : ∀ segment ∈ t.nesting.map Name.typeSegment,
          Name.Balanced segment ∧ Name.IsUndotted segment := by
        intro segment hsegment
        obtain ⟨raw, hraw, rfl⟩ := List.mem_map.mp hsegment
        exact ⟨(h.nesting raw hraw).moduleSegment, Name.isUndotted_moduleSegment _⟩
      have hplace : Name.Balanced ((Sink.namespaceParts t.ns).foldl Name.join (m.rootOf owner)) := by
        rw [Sink.foldl_join_namespaceParts h.ns]
        exact hbalanced.join h.ns.balanced
      rw [Option.elim_some, neededNodes]
      refine (Descends.append (descends_module hroot hunopened) ?_).append ?_
      · exact descends_chainNodes _ hbalanced (by simp [Node.plain]) hparts
      · refine descends_chainNodes _ hplace ?_ hsegments
        rw [List.map_append, List.nil_append]
        rcases foldl_join_mem_chainNodes .namespacePart (m.rootOf owner) (Sink.namespaceParts t.ns)
          with heq | hmem
        · rw [heq]
          exact List.mem_append_left _ (by simp [Node.plain])
        · exact List.mem_append_right _ hmem

/-- The chain of a type ends in the type's own name. -/
theorem mem_names_typeNodes {t : NamedType} {name : String} (h : m.IsReference t)
    (hname : m.typeName t = some name) : Name.Balanced name ∧ name ∈ (m.typeNodes t).map (·.name) := by
  unfold typeName at hname
  cases howner : t.owner with
  | none => simp [howner] at hname
  | some owner =>
      simp only [howner, Option.ite_none_left_eq_some, Option.some.injEq] at hname
      have hpath : (t.nesting.map Name.typeSegment).foldl Name.join
          ((Sink.namespaceParts t.ns).foldl Name.join (m.rootOf owner)) = name := by
        rw [Sink.foldl_join_namespaceParts h.ns, ← hname.2, List.foldl_map, Name.foldl_join, Name.typePath]
      constructor
      · rw [← hname.2]
        refine ((h.owner owner howner).balanced_rootOf hroot).join ?_
        exact Name.foldl_join_balanced (fun raw hraw => (h.nesting raw hraw).moduleSegment) h.ns.balanced
      · rw [typeNodes, howner, ← hpath]
        exact m.path_mem_neededNodes owner t

theorem descends_nodes {r : Request} (h : r.IsNamed m) : m.Descends [] (r.nodes m) := by
  cases h with
  | group => exact ⟨.inr (.inl rfl), trivial⟩
  | module h => exact descends_module hroot h
  | type h => exact descends_typeNodes hroot h
  | member h htype hne hundotted kind =>
      obtain ⟨hbalanced, hmem⟩ := mem_names_typeNodes hroot h htype
      have hparent := Name.parent_join_of_isUndotted hbalanced hne hundotted
      refine (descends_typeNodes hroot h).append ⟨.inr (.inr ⟨rfl, ?_⟩), trivial⟩
      rw [Node.ofMember, hparent]
      exact hmem

end Balanced

end Modules

/-! ## Runs of requests -/

/-- In the order in which they were sent, every node stands on one before it. -/
def Modules.ParentsFirst (m : Modules) (ns : List Node) : Prop :=
  ∀ before n after, ns = before ++ n :: after → m.Stands (before.map (·.name)) n

theorem Modules.ParentsFirst.concat {m : Modules} {ns : List Node} {n : Node} (h : m.ParentsFirst ns)
    (hn : m.Stands (ns.map (·.name)) n) : m.ParentsFirst (ns ++ [n]) := by
  intro before k after hsplit
  rcases List.eq_nil_or_concat after with rfl | ⟨middle, last, rfl⟩
  · obtain ⟨rfl, hk⟩ := List.append_inj' hsplit rfl
    obtain rfl := List.singleton_inj.mp hk
    exact hn
  · rw [List.concat_eq_append, ← List.cons_append, ← List.append_assoc] at hsplit
    exact h before k middle (List.append_inj' hsplit rfl).1

namespace Sink

variable {m : Modules} {s : Sink}

/-- What was sent is on demand, each name once and behind the node above it. -/
structure Tidy (m : Modules) (s : Sink) : Prop where
  onDemand : s.onDemand = s.names.reverse
  nodup : s.names.Nodup
  parentsFirst : m.ParentsFirst s.nodes

theorem tidy_empty (m : Modules) : Tidy m .empty :=
  ⟨rfl, List.nodup_nil, fun before n after h => by simp [nodes, empty] at h⟩

/-- A node that stands on one that was sent keeps a sink tidy, and is there afterwards. -/
theorem Tidy.demand {n : Node} (h : Tidy m s) (hn : n.name ∈ s.names ∨ m.Stands s.names n) :
    Tidy m (s.demand n) ∧ s.names ++ [n.name] ⊆ (s.demand n).names := by
  by_cases hmem : n.name ∈ s.names
  · rw [demand_of_mem (by simpa [h.onDemand] using hmem)]
    have hlast : [n.name] ⊆ s.names := List.cons_subset.mpr ⟨hmem, List.nil_subset _⟩
    exact ⟨h, List.append_subset.mpr ⟨List.Subset.refl _, hlast⟩⟩
  · have hnodes : nodes { s.node n with onDemand := n.name :: s.onDemand } = s.nodes ++ [n] :=
      s.nodes_node n
    have hnames : names { s.node n with onDemand := n.name :: s.onDemand } = s.names ++ [n.name] := by
      rw [names, hnodes, List.map_append]
      rfl
    rw [demand_of_notMem (by simpa [h.onDemand] using hmem)]
    refine ⟨⟨?_, ?_, ?_⟩, hnames ▸ List.Subset.refl _⟩
    · rw [hnames, h.onDemand, List.reverse_append]
      rfl
    · rw [hnames, List.nodup_append]
      refine ⟨h.nodup, by simp, ?_⟩
      rintro name hname last hlast rfl
      exact hmem (List.mem_singleton.mp hlast ▸ hname)
    · rw [hnodes]
      exact h.parentsFirst.concat (hn.resolve_left hmem)

theorem Tidy.foldl {ns : List Node} (h : Tidy m s) (hns : m.Descends s.names ns) :
    Tidy m (ns.foldl Sink.demand s) ∧ s.names ++ ns.map (·.name) ⊆ (ns.foldl Sink.demand s).names := by
  induction ns generalizing s with
  | nil => simpa using h
  | cons n ns ih =>
      obtain ⟨hfirst, hsub⟩ := h.demand hns.1
      obtain ⟨hmore, hall⟩ := ih hfirst (hns.2.mono hsub)
      refine ⟨hmore, ?_⟩
      rw [List.map_cons, ← List.singleton_append, ← List.append_assoc]
      exact List.Subset.trans (List.append_subset.mpr
        ⟨List.subset_append_of_subset_left _ hsub, List.subset_append_right _ _⟩) hall

/-- A request adds its chain. -/
theorem Tidy.serve (hroot : Name.Balanced m.externalsRoot) {r : Request} (h : Tidy m s) (hr : r.IsNamed m) :
    Tidy m (r.serve m s) ∧ s.names ++ r.chain m ⊆ (r.serve m s).names := by
  rw [Request.serve_eq, ← Request.names_nodes hr]
  exact h.foldl ((Modules.descends_nodes hroot hr).mono (List.nil_subset _))

end Sink

/-- What was sent on the requests, one after the other. -/
def served (m : Modules) (requests : List Request) : Sink :=
  requests.foldl (Request.serve m) .empty

theorem tidy_served {m : Modules} (hroot : Name.Balanced m.externalsRoot) {requests : List Request}
    (h : ∀ r ∈ requests, r.IsNamed m) : Sink.Tidy m (served m requests) := by
  have hrun : ∀ s, Sink.Tidy m s → Sink.Tidy m (requests.foldl (Request.serve m) s) := by
    induction requests with
    | nil => exact fun s hs => hs
    | cons r requests ih =>
        obtain ⟨hr, hmore⟩ := List.forall_mem_cons.mp h
        exact fun s hs => ih hmore _ (hs.serve hroot hr).1
  exact hrun _ (Sink.tidy_empty m)

/-- Whatever is asked for outside, no name is sent twice, the node above each node is sent before it, and
after each request all of its chain was sent. -/
theorem served_chains (m : Modules) (requests : List Request) (hroot : Name.Balanced m.externalsRoot)
    (h : ∀ r ∈ requests, r.IsNamed m) :
    (served m requests).names.Nodup ∧
      (∀ before n after, (served m requests).nodes = before ++ n :: after →
        n = m.groupNode ∨ n.parent = Name.parent n.name ∧ n.parent ∈ before.map (·.name)) ∧
      ∀ earlier r later, requests = earlier ++ r :: later →
        r.chain m ⊆ (served m (earlier ++ [r])).names := by
  have htidy := tidy_served hroot h
  refine ⟨htidy.nodup, htidy.parentsFirst, ?_⟩
  rintro earlier r later rfl
  have hearlier : Sink.Tidy m (served m earlier) :=
    tidy_served hroot fun q hq => h q (List.mem_append_left _ hq)
  obtain ⟨-, hsub⟩ := hearlier.serve hroot (h r (List.mem_append_right _ List.mem_cons_self))
  rw [served, List.foldl_concat]
  exact (List.append_subset.mp hsub).2

namespace Sample

def nothingOpened : Modules :=
  .new "Sln.$Externals" ⟨[]⟩

def vendorType (nesting : List String) : NamedType :=
  { owner := some "Vendor.Lib", ns := "V.W", nesting, args := [], handle := none }

/-- The second type has no name of its own, and the member comes before its type. -/
def vendorRequests : List Request :=
  [.module "Vendor.Lib", .type (vendorType ["Outer", ""]),
    .member (vendorType ["Outer", "Inner"])
      (Name.join "Sln.$Externals.Vendor*Lib.V.W.Outer.Inner" "Run(Int32)") .method,
    .type (vendorType ["Outer", "Inner"]), .group]

end Sample

open Sample

theorem served_chains_vendor :
    (∀ r ∈ vendorRequests, r.IsNamed nothingOpened) ∧
      (served nothingOpened vendorRequests).names.Nodup ∧
      (∀ before n after, (served nothingOpened vendorRequests).nodes = before ++ n :: after →
        n = nothingOpened.groupNode ∨
          n.parent = Name.parent n.name ∧ n.parent ∈ before.map (·.name)) ∧
      nothingOpened.typeChain (vendorType ["Outer", "Inner"]) ⊆
        (served nothingOpened (vendorRequests.take 4)).names := by
  have hvendor : nothingOpened.IsUnopened "Vendor.Lib" :=
    ⟨by decide +kernel, by decide +kernel, by decide +kernel⟩
  have hreference : ∀ nesting ∈ [["Outer", ""], ["Outer", "Inner"]],
      nothingOpened.IsReference (vendorType nesting) := by
    intro nesting hnesting
    refine ⟨?_, ?_, ?_⟩
    · rintro owner howner
      obtain rfl := Option.some.inj howner
      exact hvendor
    · exact (by decide +kernel : Name.IsNamespace "V.W")
    · revert nesting
      decide +kernel
  have hnamed : ∀ r ∈ vendorRequests, r.IsNamed nothingOpened := by
    simp only [vendorRequests, List.forall_mem_cons]
    have hinner := hreference ["Outer", "Inner"] (by simp)
    refine ⟨.module hvendor, .type (hreference _ (by simp)), ?_, .type hinner, .group, by simp⟩
    exact .member hinner (by decide +kernel) (by decide +kernel) (by decide +kernel) .method
  obtain ⟨hnodup, hparents, hchains⟩ :=
    served_chains nothingOpened vendorRequests (by decide +kernel) hnamed
  exact ⟨hnamed, hnodup, hparents,
    hchains (vendorRequests.take 3) (.type (vendorType ["Outer", "Inner"])) [.group] rfl⟩

example : (served nothingOpened vendorRequests).names =
    ["Sln.$Externals", "Sln.$Externals.Vendor*Lib", "Sln.$Externals.Vendor*Lib.V",
      "Sln.$Externals.Vendor*Lib.V.W", "Sln.$Externals.Vendor*Lib.V.W.Outer",
      "Sln.$Externals.Vendor*Lib.V.W.Outer.Inner",
      "Sln.$Externals.Vendor*Lib.V.W.Outer.Inner.Run(Int32)"] := by decide +kernel

end CodeGraph
