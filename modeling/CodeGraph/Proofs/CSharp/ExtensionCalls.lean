import CodeGraph.Proofs.CSharp.OverloadChoice
import Mathlib.Data.List.Forall2

namespace CodeGraph

/-!
# Extension calls and the order of types

A table does not say in which order its types are enumerated. An extension call searches the module's own
table and then those that it sees, in a fixed order. In the nearest table with a candidate that no other
outranks it takes the type that is enumerated first. So the order counts if and only if two types of that
table offer different answers.
-/

/-- The same entries under the same keys, with other values. -/
def Dict.mapValues {α : Type} (d : Dict α) (f : α → α) : Dict α :=
  ⟨d.entries.map fun e => (e.1, f e.2)⟩

theorem Dict.get?_mapValues {α : Type} (d : Dict α) (f : α → α) (key : String) :
    (d.mapValues f).get? key = (d.get? key).map f := by
  rw [get?, get?, mapValues]
  induction d.entries with
  | nil => rfl
  | cons e entries ih =>
      rw [List.map_cons, List.lookup_cons, List.lookup_cons]
      split
      · rfl
      · exact ih

/-! ## Orders of the types of a table -/

/-- The same table with its types in another order. -/
structure Exports.Reordered (e e' : Exports) : Prop where
  owner : e'.owner = e.owner
  types : e'.types.entries.Perm e.types.entries

theorem Exports.Reordered.mem_values {e e' : Exports} (h : e.Reordered e') {t : ExportedType} :
    t ∈ e'.types.values ↔ t ∈ e.types.values :=
  (h.types.map _).mem_iff

/-- The types of a table that are wanted first stand before the others. -/
def Exports.bringForward (first : String → ExportedType → Bool) (e : Exports) : Exports :=
  let wanted (entry : String × ExportedType) : Bool := first e.owner entry.2
  ⟨e.owner, ⟨e.types.entries.filter wanted ++ e.types.entries.filter (!wanted ·)⟩⟩

theorem Exports.reordered_bringForward (first : String → ExportedType → Bool) (e : Exports) :
    e.Reordered (e.bringForward first) where
  owner := rfl
  types := List.filter_append_perm (fun entry : String × ExportedType => first e.owner entry.2) _

theorem Exports.values_bringForward (first : String → ExportedType → Bool) (e : Exports) :
    (e.bringForward first).types.values =
      e.types.values.filter (first e.owner) ++ e.types.values.filter (!first e.owner ·) := by
  rw [Dict.values, Dict.values, List.filter_map, List.filter_map, ← List.map_append]
  rfl

namespace CSharp

namespace Viewpoint

/-- The same view, with the types of each table in another order. -/
structure Reordered (v w : Viewpoint) : Prop where
  own : v.own.Reordered w.own
  references : w.references = v.references
  mentioned : ∀ owner, w.index.references.get? owner = v.index.references.get? owner
  tables : ∀ owner, Option.Rel Exports.Reordered (v.index.tables.get? owner) (w.index.tables.get? owner)

/-- The tables that are searched for extension methods, the module's own first. -/
def extensionTables (v : Viewpoint) : List Exports :=
  v.own :: (v.index.visibleFrom v.own.owner).filter (·.owner != v.own.owner)

/-- The extension methods of a name that a type of a module offers to a scope. -/
def extensionsOf (v : Viewpoint) (scope : Scope) (name owner : String) (t : ExportedType) :
    List (NamedType × ExportedMember) :=
  if t.nesting.length == 1 && (scope.namespaces ++ scope.usings).contains t.ns then
    ((t.membersNamed name).filter (·.isExtension)).map (v.mention owner t, ·)
  else []

variable {v w : Viewpoint}

theorem map_extensionMethods (e : Exports) (scope : Scope) (name : String) :
    (e.extensionMethods (scope.namespaces ++ scope.usings) name).map
        (fun (t, m) => (v.mention e.owner t, m)) =
      e.types.values.flatMap (v.extensionsOf scope name e.owner) := by
  rw [Exports.extensionMethods]
  induction e.types.values with
  | nil => rfl
  | cons t types ih =>
      rw [List.filter_cons, List.flatMap_cons, extensionsOf]
      split
      · rw [List.flatMap_cons, List.map_append, ih, List.map_map]
        rfl
      · exact ih

/-- The candidates of an extension call come type by type and table by table. -/
theorem extensionMethods_eq (v : Viewpoint) (scope : Scope) (name : String) :
    v.extensionMethods scope name = v.extensionTables.flatMap fun e =>
      e.types.values.flatMap (v.extensionsOf scope name e.owner) := by
  rw [extensionMethods, extensionTables, List.flatMap_cons, ← map_extensionMethods,
    ExportIndex.extensionMethods]
  congr 1
  induction v.index.visibleFrom v.own.owner with
  | nil => rfl
  | cons e tables ih =>
      rw [List.flatMap_cons, List.filter_append, List.map_append, ih, List.filter_cons]
      split
      · next h =>
          rw [List.flatMap_cons, ← map_extensionMethods, List.filter_map]
          simp [Function.comp_def, h]
      · next h => simp [List.filter_map, Function.comp_def, h]

theorem Reordered.mention (h : v.Reordered w) : w.mention = v.mention := by
  funext owner t
  rw [Viewpoint.mention, Viewpoint.mention, h.own.owner]

theorem Reordered.extensionsOf (h : v.Reordered w) : w.extensionsOf = v.extensionsOf := by
  funext scope name owner t
  rw [Viewpoint.extensionsOf, Viewpoint.extensionsOf, h.mention]

theorem Reordered.extensionTables (h : v.Reordered w) :
    List.Forall₂ Exports.Reordered v.extensionTables w.extensionTables := by
  refine .cons h.own ?_
  rw [ExportIndex.visibleFrom, ExportIndex.visibleFrom, h.own.owner, h.mentioned]
  induction v.own.owner :: (v.index.references.get? v.own.owner).getD [] with
  | nil => exact .nil
  | cons owner owners ih =>
      rw [List.filterMap_cons, List.filterMap_cons]
      have hrel := h.tables owner
      generalize v.index.tables.get? owner = a at hrel
      generalize w.index.tables.get? owner = b at hrel
      cases hrel with
      | none => exact ih
      | some he =>
          simp only [List.filter_cons, he.owner]
          split
          · exact .cons he ih
          · exact ih

theorem Reordered.mem_extensionMethods (h : v.Reordered w) {scope : Scope} {name : String}
    {c : NamedType × ExportedMember} :
    c ∈ w.extensionMethods scope name ↔ c ∈ v.extensionMethods scope name := by
  rw [extensionMethods_eq, extensionMethods_eq, h.extensionsOf]
  have htables := h.extensionTables
  generalize v.extensionTables = tables at htables
  generalize w.extensionTables = tables' at htables
  induction htables with
  | nil => rfl
  | cons he _ ih =>
      rw [List.flatMap_cons, List.flatMap_cons, List.mem_append, List.mem_append]
      refine or_congr ?_ ih
      rw [List.mem_flatMap, List.mem_flatMap, he.owner]
      simp only [he.mem_values]

/-! ## A chosen order -/

/-- The view in which every table has its types in the order that `order` gives it. -/
def withOrder (v : Viewpoint) (order : Exports → Exports) : Viewpoint :=
  { v with own := order v.own, index := ⟨v.index.tables.mapValues order, v.index.references⟩ }

variable {order : Exports → Exports}

theorem reordered_withOrder (h : ∀ e : Exports, e.Reordered (order e)) : v.Reordered (v.withOrder order) where
  own := h v.own
  references := rfl
  mentioned := fun _ => rfl
  tables := by
    intro owner
    rw [withOrder, Dict.get?_mapValues]
    cases v.index.tables.get? owner with
    | none => exact .none
    | some e => exact .some (h e)

theorem extensionTables_withOrder (h : ∀ e : Exports, e.Reordered (order e)) :
    (v.withOrder order).extensionTables = v.extensionTables.map order := by
  have hget : (v.withOrder order).index.tables.get? = fun owner => (v.index.tables.get? owner).map order :=
    funext fun owner => Dict.get?_mapValues v.index.tables order owner
  have howner : (v.withOrder order).own.owner = v.own.owner := (h v.own).owner
  have hvisible : (v.withOrder order).index.visibleFrom v.own.owner =
      (v.index.visibleFrom v.own.owner).map order := by
    rw [ExportIndex.visibleFrom, ExportIndex.visibleFrom, hget, List.map_filterMap]
    rfl
  rw [extensionTables, extensionTables, List.map_cons, howner, hvisible, List.filter_map]
  simp [Function.comp_def, (h _).owner, withOrder]

end Viewpoint

/-! ## Answers -/

namespace BodyPlace

/-- No candidate of the call outranks this one. -/
def leads (b : BodyPlace) (receiver : TypeRef) (name : String) (args : List (Option String))
    (c : NamedType × ExportedMember) : Bool :=
  (b.view.extensionMethods b.scope name).all fun d =>
    callRank d.2.signature (some receiver.display :: args) ≤
      callRank c.2.signature (some receiver.display :: args)

/-- What a type of a module offers to a call: its first candidate that no other outranks. -/
def answer? (b : BodyPlace) (receiver : TypeRef) (name : String) (args : List (Option String))
    (owner : String) (t : ExportedType) : Option MemberRef :=
  ((b.view.extensionsOf b.scope name owner t).find? (b.leads receiver name args)).map
    fun (declaring, m) => memberRef declaring m

/-- The first offer of a type in tables that are searched one after another. -/
def firstOffer (answer : String → ExportedType → Option MemberRef) (tables : List Exports) :
    Option MemberRef :=
  tables.findSome? fun e => e.types.values.findSome? (answer e.owner)

/-- What some type offers that stands in the first table that has an offer. -/
inductive Offered (answer : String → ExportedType → Option MemberRef) : List Exports → MemberRef → Prop
  | here {e : Exports} {tables : List Exports} {t : ExportedType} {m : MemberRef}
    (ht : t ∈ e.types.values) (h : answer e.owner t = some m) : Offered answer (e :: tables) m
  | behind {e : Exports} {tables : List Exports} {m : MemberRef}
    (hnone : ∀ t ∈ e.types.values, answer e.owner t = none) (h : Offered answer tables m) :
    Offered answer (e :: tables) m

/-- Some type of the nearest table with a candidate that no other outranks offers this member. -/
def IsAnswer (b : BodyPlace) (receiver : TypeRef) (name : String) (args : List (Option String))
    (m : MemberRef) : Prop :=
  Offered (b.answer? receiver name args) b.view.extensionTables m

section Offered

variable {answer : String → ExportedType → Option MemberRef} {tables tables' : List Exports}
  {m : MemberRef}

theorem firstOffer_cons (e : Exports) (tables : List Exports) :
    firstOffer answer (e :: tables) =
      (e.types.values.findSome? (answer e.owner)).or (firstOffer answer tables) := by
  rw [firstOffer, List.findSome?_cons]
  cases e.types.values.findSome? (answer e.owner) <;> rfl

theorem offered_of_firstOffer (h : firstOffer answer tables = some m) : Offered answer tables m := by
  induction tables with
  | nil => cases h
  | cons e tables ih =>
      rw [firstOffer_cons, Option.or_eq_some_iff] at h
      rcases h with h | ⟨hnone, h⟩
      · obtain ⟨t, ht, hanswer⟩ := List.exists_of_findSome?_eq_some h
        exact .here ht hanswer
      · exact .behind (List.findSome?_eq_none_iff.mp hnone) (ih h)

theorem Offered.isSome_firstOffer (h : Offered answer tables m) : (firstOffer answer tables).isSome := by
  induction h with
  | here ht h =>
      rw [firstOffer_cons, Option.isSome_or, Bool.or_eq_true, List.findSome?_isSome_iff]
      exact .inl ⟨_, ht, Option.isSome_of_eq_some h⟩
  | behind _ _ ih =>
      rw [firstOffer_cons, Option.isSome_or, Bool.or_eq_true]
      exact .inr ih

theorem offered_reordered (h : List.Forall₂ Exports.Reordered tables tables') :
    Offered answer tables' m ↔ Offered answer tables m := by
  induction h with
  | nil => rfl
  | @cons e e' _ _ he _ ih =>
      constructor
      · rintro (⟨ht, h⟩ | ⟨hnone, h⟩)
        · exact .here (he.mem_values.mp ht) (he.owner ▸ h)
        · refine .behind (fun t ht => ?_) (ih.mp h)
          rw [← he.owner]
          exact hnone t (he.mem_values.mpr ht)
      · rintro (⟨ht, h⟩ | ⟨hnone, h⟩)
        · exact .here (he.mem_values.mpr ht) (he.owner.symm ▸ h)
        · refine .behind (fun t ht => ?_) (ih.mpr h)
          rw [he.owner]
          exact hnone t (he.mem_values.mp ht)

/-- An offer is the first one when the types that make it stand before the others. -/
theorem Offered.firstOffer_bringForward (h : Offered answer tables m)
    {first : String → ExportedType → Bool}
    (hfirst : ∀ owner t, first owner t = true ↔ answer owner t = some m) :
    firstOffer answer (tables.map (Exports.bringForward first)) = some m := by
  induction h with
  | @here e tables t m ht h =>
      have hforward : (e.types.values.filter (first e.owner)).findSome? (answer e.owner) = some m := by
        have hall : ∀ t ∈ e.types.values.filter (first e.owner), answer e.owner t = some m :=
          fun t ht => (hfirst e.owner t).mp (List.mem_filter.mp ht).2
        have hmem := List.mem_filter.mpr ⟨ht, (hfirst e.owner t).mpr h⟩
        cases hl : e.types.values.filter (first e.owner) with
        | nil => exact absurd (hl ▸ hmem) List.not_mem_nil
        | cons t' types => rw [List.findSome?_cons, hall t' (hl ▸ List.mem_cons_self)]
      rw [List.map_cons, firstOffer_cons, Exports.values_bringForward, List.findSome?_append]
      simp only [Exports.bringForward, hforward, Option.some_or]
  | @behind e tables m hnone h ih =>
      have hvalues : (e.bringForward first).types.values.findSome? (answer e.owner) = none :=
        List.findSome?_eq_none_iff.mpr fun t ht =>
          hnone t ((Exports.reordered_bringForward first e).mem_values.mp ht)
      calc firstOffer answer ((e :: tables).map (Exports.bringForward first))
          = ((e.bringForward first).types.values.findSome? (answer e.owner)).or
              (firstOffer answer (tables.map (Exports.bringForward first))) := firstOffer_cons _ _
        _ = firstOffer answer (tables.map (Exports.bringForward first)) := by rw [hvalues, Option.none_or]
        _ = some m := ih hfirst

end Offered

/-! ## The call -/

variable {b : BodyPlace} {receiver : TypeRef} {name : String} {args : List (Option String)}
  {m : MemberRef} {w : Viewpoint}

theorem extensionCall_eq (b : BodyPlace) (receiver : TypeRef) (name : String)
    (args : List (Option String)) :
    b.extensionCall receiver name args =
      firstOffer (b.answer? receiver name args) b.view.extensionTables := by
  have hbest : (fun c : NamedType × ExportedMember => (b.view.extensionMethods b.scope name).all fun d =>
      decide (callRank d.2.signature (some receiver.display :: args) ≤
        callRank c.2.signature (some receiver.display :: args))) = b.leads receiver name args := rfl
  rw [extensionCall, chooseOverload_eq_firstBest, firstBest_eq_find?, hbest, Viewpoint.extensionMethods_eq]
  simp only [List.find?_flatMap, List.map_findSome?, Function.comp_def]
  rfl

theorem answer?_reordered (h : b.view.Reordered w) :
    ({ b with view := w } : BodyPlace).answer? receiver name args = b.answer? receiver name args := by
  have hleads : ({ b with view := w } : BodyPlace).leads receiver name args =
      b.leads receiver name args := by
    funext c
    rw [Bool.eq_iff_iff, leads, leads, List.all_eq_true, List.all_eq_true]
    simp only [h.mem_extensionMethods]
  funext owner t
  rw [answer?, answer?, hleads, h.extensionsOf]

theorem isAnswer_reordered (h : b.view.Reordered w) :
    ({ b with view := w } : BodyPlace).IsAnswer receiver name args m ↔
      b.IsAnswer receiver name args m := by
  rw [IsAnswer, IsAnswer, answer?_reordered h]
  exact offered_reordered h.extensionTables

theorem isAnswer_of_extensionCall (h : b.extensionCall receiver name args = some m) :
    b.IsAnswer receiver name args m :=
  offered_of_firstOffer (extensionCall_eq b receiver name args ▸ h)

theorem IsAnswer.isSome_extensionCall (h : b.IsAnswer receiver name args m) :
    (b.extensionCall receiver name args).isSome := by
  rw [extensionCall_eq]
  exact h.isSome_firstOffer

/-- Each answer is given in some order. -/
theorem IsAnswer.exists_reordered (h : b.IsAnswer receiver name args m) :
    ∃ w, b.view.Reordered w ∧
      ({ b with view := w } : BodyPlace).extensionCall receiver name args = some m := by
  classical
  let first (owner : String) (t : ExportedType) : Bool := b.answer? receiver name args owner t = some m
  have hfirst : ∀ owner t, first owner t = true ↔ b.answer? receiver name args owner t = some m :=
    fun _ _ => decide_eq_true_iff
  have horder := Exports.reordered_bringForward first
  have hw := Viewpoint.reordered_withOrder (v := b.view) horder
  refine ⟨_, hw, ?_⟩
  rw [extensionCall_eq, answer?_reordered hw, Viewpoint.extensionTables_withOrder horder]
  exact h.firstOffer_bringForward hfirst

/-- An extension call means the same in every order of the types of each table if and only if there is at
most one answer: in the nearest table with a candidate that no other outranks, every type that has one
offers the same member. -/
theorem extensionCall_orderFree_iff (b : BodyPlace) (receiver : TypeRef) (name : String)
    (args : List (Option String)) :
    (∀ w, b.view.Reordered w → ({ b with view := w } : BodyPlace).extensionCall receiver name args =
        b.extensionCall receiver name args) ↔
      ∀ m m', b.IsAnswer receiver name args m → b.IsAnswer receiver name args m' → m = m' := by
  constructor
  · intro hfree m m' hm hm'
    obtain ⟨w, hw, hcall⟩ := hm.exists_reordered
    obtain ⟨w', hw', hcall'⟩ := hm'.exists_reordered
    have hsame : some m = some m' := calc
      some m = b.extensionCall receiver name args := hcall.symm.trans (hfree w hw)
      _ = some m' := (hfree w' hw').symm.trans hcall'
    exact Option.some.inj hsame
  · intro hone w hw
    cases hcall : b.extensionCall receiver name args with
    | none =>
        refine Option.eq_none_iff_forall_ne_some.mpr fun m hm => ?_
        have hsome := ((isAnswer_reordered hw).mp (isAnswer_of_extensionCall hm)).isSome_extensionCall
        rw [hcall] at hsome
        exact absurd hsome (by decide)
    | some m =>
        have hm := isAnswer_of_extensionCall hcall
        obtain ⟨m', hm'⟩ := Option.isSome_iff_exists.mp ((isAnswer_reordered hw).mpr hm).isSome_extensionCall
        rw [hm', hone m' m ((isAnswer_reordered hw).mp (isAnswer_of_extensionCall hm')) hm]

/-- A candidate that outranks all others is called in every order. -/
theorem extensionCall_of_outranks {c : NamedType × ExportedMember}
    (hc : c ∈ b.view.extensionMethods b.scope name)
    (houtranks : ∀ d ∈ b.view.extensionMethods b.scope name, d ≠ c →
      callRank d.2.signature (some receiver.display :: args) <
        callRank c.2.signature (some receiver.display :: args))
    (h : b.view.Reordered w) :
    ({ b with view := w } : BodyPlace).extensionCall receiver name args = some (memberRef c.1 c.2) := by
  have hin : c ∈ w.extensionMethods b.scope name := h.mem_extensionMethods.mpr hc
  rw [extensionCall]
  cases hchosen : chooseOverload (fun d => d.2.signature) (w.extensionMethods b.scope name)
      (some receiver.display :: args) with
  | none =>
      rw [chooseOverload_eq_firstBest, firstBest_eq_none_iff] at hchosen
      exact absurd (hchosen ▸ hin) List.not_mem_nil
  | some d =>
      obtain ⟨hd, hbest⟩ := isBest_of_chooseOverload hchosen
      by_cases hne : d = c
      · rw [hne, Option.map_some]
      · have hless := houtranks d (h.mem_extensionMethods.mp hd) hne
        exact absurd (hbest c hin) (Nat.not_le_of_lt hless)

/-- A type with one extension method for values of the type `Thing`. -/
def spinner (id : Nat) (name : String) : ExportedType :=
  ⟨id, "N", [name], none, [⟨id, "Spin", .method, ["Thing"], none, false, true, true⟩], false, false⟩

def spinners : Exports :=
  ⟨"App", ⟨[("N.Left", spinner 0 "Left"), ("N.Right", spinner 1 "Right")]⟩⟩

def thing : TypeRef :=
  .named (.simple (some "App") "N" "Thing")

/-- A place that sees two extension methods between which nothing decides. -/
def amongSpinners (own : Exports) : BodyPlace where
  view := ⟨.empty, own, []⟩
  owner := .simple (some "App") "N" "Thing"
  scope := (Scope.outermost "App").inNamespace "N"
  functions := []
  locals := []

/-- The call means the method that is enumerated first. -/
theorem extensionCall_spinners :
    (amongSpinners spinners).view.Reordered
      (amongSpinners ⟨"App", ⟨spinners.types.entries.reverse⟩⟩).view ∧
    ((amongSpinners spinners).extensionCall thing "Spin" []).map (·.declaring.nesting) = some ["Left"] ∧
    ((amongSpinners ⟨"App", ⟨spinners.types.entries.reverse⟩⟩).extensionCall thing "Spin" []).map
      (·.declaring.nesting) = some ["Right"] := by
  refine ⟨⟨⟨rfl, List.reverse_perm _⟩, rfl, fun _ => rfl, fun _ => .none⟩, ?_, ?_⟩
  · decide +kernel
  · decide +kernel

end BodyPlace

end CSharp

end CodeGraph
