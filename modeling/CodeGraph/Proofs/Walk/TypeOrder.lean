import CodeGraph.Proofs.Walk.Scripts
import Mathlib.Data.List.Flatten
import Mathlib.Data.List.Nodup

namespace CodeGraph

/-!
# The order in which types are sent

Types wait on a stack: the one on top is taken off, and those nested in it are put in its place. Where
nesting makes a forest, this comes to the same as going through the trees one after the other, each type
before those nested in it. What a type is decides whether the trees inside of it are gone through.
-/

/-- A type with the types that are nested in it. -/
inductive TypeTree where
  | node (handle : Nat) (inside : List TypeTree)

namespace TypeTree

def handle : TypeTree → Nat
  | node handle _ => handle

@[induction_eliminator]
theorem induction {P : TypeTree → Prop}
    (node : ∀ handle inside, (∀ t ∈ inside, P t) → P (.node handle inside)) (t : TypeTree) : P t :=
  @TypeTree.rec P (fun trees => ∀ t ∈ trees, P t) node (List.forall_mem_nil P)
    (fun _ _ hfirst hmore => List.forall_mem_cons.mpr ⟨hfirst, hmore⟩) t

mutual

def handles : TypeTree → List Nat
  | node handle inside => handle :: handlesAll inside

def handlesAll : List TypeTree → List Nat
  | [] => []
  | t :: trees => handles t ++ handlesAll trees

end

mutual

/-- Inside of a type are the trees of the types nested in it, in their order. -/
def Unfolds (nested : Nat → List Nat) : TypeTree → Prop
  | node handle inside => inside.map TypeTree.handle = nested handle ∧ UnfoldAll nested inside

def UnfoldAll (nested : Nat → List Nat) : List TypeTree → Prop
  | [] => True
  | t :: trees => Unfolds nested t ∧ UnfoldAll nested trees

end

theorem handlesAll_eq (trees : List TypeTree) : handlesAll trees = trees.flatMap handles := by
  induction trees with
  | nil => rfl
  | cons t trees ih => rw [handlesAll, ih, List.flatMap_cons]

theorem mem_handlesAll {trees : List TypeTree} {x : Nat} :
    x ∈ handlesAll trees ↔ ∃ t ∈ trees, x ∈ t.handles := by
  rw [handlesAll_eq, List.mem_flatMap]

theorem nodup_handles {trees : List TypeTree} (hnodup : (handlesAll trees).Nodup) {t : TypeTree}
    (ht : t ∈ trees) : t.handles.Nodup := by
  rw [handlesAll_eq, List.nodup_flatMap] at hnodup
  exact hnodup.1 t ht

theorem unfoldAll_iff {nested : Nat → List Nat} {trees : List TypeTree} :
    UnfoldAll nested trees ↔ ∀ t ∈ trees, t.Unfolds nested := by
  induction trees with
  | nil => simp [UnfoldAll]
  | cons t trees ih => rw [UnfoldAll, ih, List.forall_mem_cons]

end TypeTree

open TypeTree

/-- The types of a module, unfolded from the top level: none occurs twice, and none lies inside of
itself. -/
structure ModuleView.IsForest (v : ModuleView) (trees : List TypeTree) : Prop where
  roots : trees.map handle = v.topLevel
  unfolds : UnfoldAll v.nested trees
  nodup : (handlesAll trees).Nodup

namespace TypeSymbol

/-- The type gets a node. -/
def IsShown (t : TypeSymbol) : Prop :=
  t.isMadeUp = false ∧ ¬ t.IsNamespaceDoc

instance (t : TypeSymbol) : Decidable t.IsShown :=
  inferInstanceAs (Decidable (_ ∧ _))

/-- The type drives an asynchronous method, and has no node. -/
def drivesAsync (t : TypeSymbol) : Bool :=
  t.isMadeUp && t.isAsyncStateMachine

end TypeSymbol

/-- A readable type that is met, with the name of the node of the type around it. -/
structure TypeVisit where
  handle : Nat
  declaring : Option String
  symbol : TypeSymbol

namespace Sink

/-- A sink that was sent before all that these actions demand. -/
def provided (actions : List Action) : Sink :=
  ⟨#[], actions.filterMap Action.demanded?⟩

theorem perform_provided (actions : List Action) :
    (provided actions).perform actions =
      ⟨(actions.filterMap Action.item?).toArray, (provided actions).onDemand⟩ := by
  rw [perform_of_known (List.Subset.refl _), provided, Array.empty_append]

end Sink

namespace WalkContext

section Visits

variable (ctx : WalkContext)

mutual

/-- The types that are met in a tree, each before those nested in it. -/
def visits (declaring : Option String) : TypeTree → List TypeVisit
  | .node handle inside =>
    match ctx.view.typeSymbol ctx.index handle with
    | .error _ => []
    | .ok symbol =>
      ⟨handle, declaring, symbol⟩ ::
        if symbol.IsShown then visitsAll (some (ctx.ownTypeName symbol.ns symbol.nesting)) inside else []

def visitsAll (declaring : Option String) : List TypeTree → List TypeVisit
  | [] => []
  | t :: trees => visits declaring t ++ visitsAll declaring trees

end

/-- The types that get a node, in the order of the nodes. -/
def shownVisits (trees : List TypeTree) : List TypeVisit :=
  (ctx.visitsAll none trees).filter (·.symbol.IsShown)

def visitName (v : TypeVisit) : String :=
  ctx.ownTypeName v.symbol.ns v.symbol.nesting

def visitNode (v : TypeVisit) : Node :=
  ctx.typeNode (v.declaring.getD (Name.join ctx.root v.symbol.ns)) v.symbol

def visitRecord? (v : TypeVisit) : Option TypeRecord :=
  if v.symbol.IsShown then some ⟨v.symbol, some (ctx.visitName v), false⟩
  else if v.symbol.drivesAsync then some ⟨v.symbol, none, true⟩
  else none

def registerVisit (namespaces : Namespaces) (v : TypeVisit) : Namespaces :=
  if v.symbol.IsShown then
    if v.declaring.isNone then namespaces.register ctx.root v.symbol.ns else namespaces
  else if v.symbol.isMadeUp ∨ v.symbol.ns = "" then namespaces
  else
    (namespaces.register ctx.root v.symbol.ns).insert (Name.join ctx.root v.symbol.ns) v.symbol.description

/-- The types that can be read are counted. -/
def CountsTypes : Prop :=
  ∀ handle symbol, ctx.view.typeSymbol ctx.index handle = .ok symbol → handle < ctx.view.typeCount

/-- The type is readable and gets a node, and so do all types around it. -/
inductive Reached : Nat → Prop
  | topLevel {handle : Nat} {symbol : TypeSymbol} (h : handle ∈ ctx.view.topLevel)
      (hsymbol : ctx.view.typeSymbol ctx.index handle = .ok symbol) (hs : symbol.IsShown) : Reached handle
  | nested {around handle : Nat} {symbol : TypeSymbol} (ha : Reached around)
      (h : handle ∈ ctx.view.nested around)
      (hsymbol : ctx.view.typeSymbol ctx.index handle = .ok symbol) (hs : symbol.IsShown) : Reached handle

/-- Types are taken off a stack until none is left. -/
inductive Pops : TypeWalkState → List (Nat × Option String) → TypeWalkState → Prop
  | done (state : TypeWalkState) : Pops state [] state
  | pop {state last : TypeWalkState} {handle : Nat} {declaring : Option String}
      {waiting : List (Nat × Option String)}
      (h : Pops (ctx.walkType state handle declaring).1
        ((ctx.walkType state handle declaring).2 ++ waiting) last) :
      Pops state ((handle, declaring) :: waiting) last

end Visits

variable {ctx : WalkContext} {declaring : Option String} {trees : List TypeTree}

/-- Modules of both kinds count their types. -/
theorem countsTypes_of_numbered (h : ctx.view.Numbered) : ctx.CountsTypes :=
  h.type_lt ctx.index

theorem visitsAll_eq (declaring : Option String) (trees : List TypeTree) :
    ctx.visitsAll declaring trees = trees.flatMap (ctx.visits declaring) := by
  induction trees with
  | nil => rfl
  | cons t trees ih => rw [visitsAll, ih, List.flatMap_cons]

/-! ## The stack -/

section Stack

variable {state last : TypeWalkState}

/-- Going down into each type before the next is a run of the stack. -/
theorem pops_walkNested {depth : Nat} {types rest : List (Nat × Option String)}
    (hnest : NestWithin ctx.inside depth (types.map (·.1)))
    (h : ctx.Pops (ctx.walkNested depth state types) rest last) : ctx.Pops state (types ++ rest) last := by
  induction depth generalizing state types rest with
  | zero =>
      obtain rfl := List.map_eq_nil_iff.mp hnest
      exact h
  | succ depth ih =>
      rw [walkNested] at h
      induction types generalizing state with
      | nil => exact h
      | cons type types ihTypes =>
          refine .pop (ih ?_ (ihTypes ?_ h))
          · rw [(ctx.walkType_met state type.1 type.2).inside_eq]
            exact hnest type.1 List.mem_cons_self
          · exact fun handle hhandle => hnest handle (List.mem_cons_of_mem _ hhandle)

def meet (ctx : WalkContext) (state : TypeWalkState) (v : TypeVisit) : TypeWalkState :=
  (ctx.walkType state v.handle v.declaring).1

theorem walkType_unread (state : TypeWalkState) (declaring : Option String) {handle : Nat}
    {e : SymbolError} (h : ctx.view.typeSymbol ctx.index handle = .error e) :
    ctx.walkType state handle declaring = (state, []) := by
  rw [walkType, h]

theorem walkType_snd (state : TypeWalkState) (declaring : Option String) {handle : Nat}
    {symbol : TypeSymbol} (h : ctx.view.typeSymbol ctx.index handle = .ok symbol) :
    (ctx.walkType state handle declaring).2 = if symbol.IsShown then
      (ctx.view.nested handle).map (·, some (ctx.ownTypeName symbol.ns symbol.nesting)) else [] := by
  have hmet := ctx.walkType_met state handle declaring
  generalize ctx.walkType state handle declaring = result at hmet
  cases hmet with
  | unread e he => exact absurd (h.symm.trans he) (by simp)
  | madeUp other hother hm | async other hother hm =>
      obtain rfl := Except.ok.inj (hother.symm.trans h)
      simp [TypeSymbol.IsShown, hm]
  | globalDoc other hother hm hd | doc other hother hm hd =>
      obtain rfl := Except.ok.inj (hother.symm.trans h)
      simp [TypeSymbol.IsShown, hd]
  | sent other hother hm hd =>
      obtain rfl := Except.ok.inj (hother.symm.trans h)
      exact (if_pos ⟨hm, hd⟩).symm

/-- What waits on the stack are the trees that are still to be gone through. -/
theorem Pops.eq_foldl {pending : List (Option String × TypeTree)}
    (h : ctx.Pops state (pending.map fun p => (p.2.handle, p.1)) last)
    (hunfolds : ∀ p ∈ pending, p.2.Unfolds ctx.view.nested) :
    last = (pending.flatMap fun p => ctx.visits p.1 p.2).foldl ctx.meet state := by
  generalize hwaiting : pending.map (fun p => (p.2.handle, p.1)) = waiting at h
  induction h generalizing pending with
  | done state =>
      obtain rfl := List.map_eq_nil_iff.mp hwaiting
      rfl
  | @pop state last handle declaring waiting h ih =>
      obtain ⟨⟨d, ⟨root, inside⟩⟩, rest, rfl, hhead, rfl⟩ := List.map_eq_cons_iff.mp hwaiting
      have hhead : (root, d) = (handle, declaring) := hhead
      obtain ⟨rfl, rfl⟩ := Prod.mk.inj hhead
      obtain ⟨htree, hrest⟩ := List.forall_mem_cons.mp hunfolds
      obtain ⟨hinside, hall⟩ := htree
      rw [List.flatMap_cons]
      cases hsymbol : ctx.view.typeSymbol ctx.index root with
      | error e =>
          have hpop := walkType_unread state d hsymbol
          have hlast := ih hrest (by rw [hpop, List.nil_append])
          simpa [visits, hsymbol, hpop] using hlast
      | ok symbol =>
          have hsnd := walkType_snd state d hsymbol
          by_cases hs : symbol.IsShown
          · rw [if_pos hs] at hsnd
            generalize hname : ctx.ownTypeName symbol.ns symbol.nesting = name at hsnd
            have hpending : (inside.map (some name, ·) ++ rest).map (fun p => (p.2.handle, p.1)) =
                (ctx.walkType state root d).2 ++ rest.map fun p => (p.2.handle, p.1) := by
              rw [hsnd, ← hinside, List.map_append, List.map_map, List.map_map]
              rfl
            have hunfolds' : ∀ p ∈ inside.map (some name, ·) ++ rest, p.2.Unfolds ctx.view.nested := by
              intro p hp
              rcases List.mem_append.mp hp with hp | hp
              · obtain ⟨t, ht, rfl⟩ := List.mem_map.mp hp
                exact unfoldAll_iff.mp hall t ht
              · exact hrest p hp
            have hlast := ih hunfolds' hpending
            rw [List.flatMap_append, List.flatMap_map, ← visitsAll_eq] at hlast
            simpa [visits, hsymbol, hs, hname, meet] using hlast
          · rw [if_neg hs] at hsnd
            have hlast := ih hrest (by rw [hsnd, List.nil_append])
            simpa [visits, hsymbol, hs, meet] using hlast

end Stack

/-! ## Forests -/

/-- Either nothing is met inside of a type, or all that is nested in it. -/
theorem inside_cases (ctx : WalkContext) (root : Nat) : ctx.inside root = [] ∨
    (∃ symbol, ctx.view.typeSymbol ctx.index root = .ok symbol) ∧
      ctx.inside root = ctx.view.nested root := by
  unfold WalkContext.inside
  cases ctx.view.typeSymbol ctx.index root with
  | error e => exact .inl rfl
  | ok symbol =>
      dsimp only
      split
      · exact .inl rfl
      · exact .inr ⟨⟨symbol, rfl⟩, rfl⟩

/-- In a forest each type on the way down is another one, so that no way is longer than there are types. -/
theorem nestWithin_of_forest (hcount : ctx.CountsTypes) {depth : Nat} {above : List Nat}
    (hunfolds : UnfoldAll ctx.view.nested trees) (hnodup : (handlesAll trees).Nodup)
    (habove : above.Nodup) (hread : ∀ x ∈ above, ∃ symbol, ctx.view.typeSymbol ctx.index x = .ok symbol)
    (hapart : ∀ x ∈ above, x ∉ handlesAll trees)
    (hdepth : depth + above.length = ctx.view.typeCount + 1) :
    NestWithin ctx.inside depth (trees.map handle) := by
  induction depth generalizing trees above with
  | zero =>
      have hlt : ∀ x ∈ above, x < ctx.view.typeCount := by
        intro x hx
        obtain ⟨symbol, hsymbol⟩ := hread x hx
        exact hcount x symbol hsymbol
      have hlength := length_le_of_forall_lt habove hlt
      omega
  | succ depth ih =>
      intro root hroot
      obtain ⟨⟨root, inside⟩, ht, rfl⟩ := List.mem_map.mp hroot
      change NestWithin ctx.inside depth (ctx.inside root)
      rcases ctx.inside_cases root with hnone | ⟨hreadable, hnested⟩
      · rw [hnone]
        exact nestWithin_nil _ _
      · obtain ⟨heq, hall⟩ := unfoldAll_iff.mp hunfolds _ ht
        have hself : root ∈ handlesAll trees := mem_handlesAll.mpr ⟨_, ht, List.mem_cons_self⟩
        have hsub : ∀ x ∈ handlesAll inside, x ∈ handlesAll trees :=
          fun x hx => mem_handlesAll.mpr ⟨_, ht, List.mem_cons_of_mem _ hx⟩
        obtain ⟨hfresh, hbelow⟩ := List.nodup_cons.mp (nodup_handles hnodup ht)
        rw [hnested, ← heq]
        apply ih hall hbelow (List.nodup_cons.mpr ⟨fun hmem => hapart root hmem hself, habove⟩)
        · exact List.forall_mem_cons.mpr ⟨hreadable, hread⟩
        · exact List.forall_mem_cons.mpr ⟨hfresh, fun x hx hmem => hapart x hx (hsub x hmem)⟩
        · rw [List.length_cons]
          omega

/-! ## What is met -/

theorem sublist_visits (declaring : Option String) (t : TypeTree) :
    ((ctx.visits declaring t).map (·.handle)).Sublist t.handles := by
  induction t generalizing declaring with
  | node root inside ih =>
      rw [visits, handles, handlesAll_eq]
      cases ctx.view.typeSymbol ctx.index root with
      | error e => exact List.nil_sublist _
      | ok symbol =>
          refine List.Sublist.cons_cons _ ?_
          split
          · rw [visitsAll_eq, List.map_flatMap]
            exact List.Sublist.flatMap_right _ fun t ht => ih t ht _
          · exact List.nil_sublist _

theorem nodup_visitsAll (hnodup : (handlesAll trees).Nodup) (declaring : Option String) :
    ((ctx.visitsAll declaring trees).map (·.handle)).Nodup := by
  refine List.Nodup.sublist ?_ hnodup
  rw [visitsAll_eq, handlesAll_eq, List.map_flatMap]
  exact List.Sublist.flatMap_right _ fun t _ => sublist_visits declaring t

/-- What is met in a tree is the type on top, and what is met inside if the type gets a node. -/
theorem mem_visits {handle : Nat} {inside : List TypeTree} {v : TypeVisit} :
    v ∈ ctx.visits declaring (.node handle inside) ↔
      ∃ symbol, ctx.view.typeSymbol ctx.index handle = .ok symbol ∧
        (v = ⟨handle, declaring, symbol⟩ ∨ symbol.IsShown ∧
          ∃ t ∈ inside, v ∈ ctx.visits (some (ctx.ownTypeName symbol.ns symbol.nesting)) t) := by
  rw [visits]
  cases ctx.view.typeSymbol ctx.index handle with
  | error e => simp
  | ok symbol =>
      by_cases hs : symbol.IsShown
      · simp [hs, visitsAll_eq, List.mem_flatMap]
      · simp [hs]

theorem typeSymbol_of_mem_visits {v : TypeVisit} {t : TypeTree} (hv : v ∈ ctx.visits declaring t) :
    ctx.view.typeSymbol ctx.index v.handle = .ok v.symbol := by
  induction t generalizing declaring with
  | node root inside ih =>
      obtain ⟨symbol, hsymbol, rfl | ⟨-, t, ht, hv⟩⟩ := mem_visits.mp hv
      · exact hsymbol
      · exact ih t ht hv

theorem visit_mem_visits {t : TypeTree} {symbol : TypeSymbol}
    (hsymbol : ctx.view.typeSymbol ctx.index t.handle = .ok symbol) :
    ⟨t.handle, declaring, symbol⟩ ∈ ctx.visits declaring t := by
  obtain ⟨root, inside⟩ := t
  exact mem_visits.mpr ⟨symbol, hsymbol, .inl rfl⟩

theorem reached_of_mem_visits {t : TypeTree} (hunfolds : t.Unfolds ctx.view.nested)
    (htop : ∀ symbol, ctx.view.typeSymbol ctx.index t.handle = .ok symbol → symbol.IsShown →
      ctx.Reached t.handle) {v : TypeVisit} (hv : v ∈ ctx.visits declaring t)
    (hshown : v.symbol.IsShown) : ctx.Reached v.handle := by
  induction t generalizing declaring with
  | node root inside ih =>
      obtain ⟨hinside, hall⟩ := hunfolds
      obtain ⟨symbol, hsymbol, rfl | ⟨hs, t, ht, hv⟩⟩ := mem_visits.mp hv
      · exact htop symbol hsymbol hshown
      · refine ih t ht (unfoldAll_iff.mp hall t ht) (fun inner hinner hi => ?_) hv
        have hnested : t.handle ∈ ctx.view.nested root := hinside ▸ List.mem_map_of_mem ht
        exact .nested (htop symbol hsymbol hs) hnested hinner hi

/-- Where a type gets a node, those nested in it are met. -/
theorem exists_visit_nested {t : TypeTree} (hunfolds : t.Unfolds ctx.view.nested) {v : TypeVisit}
    (hv : v ∈ ctx.visits declaring t) (hshown : v.symbol.IsShown) {child : Nat}
    (hchild : child ∈ ctx.view.nested v.handle) {symbol : TypeSymbol}
    (hsymbol : ctx.view.typeSymbol ctx.index child = .ok symbol) :
    ∃ w ∈ ctx.visits declaring t, w.handle = child ∧ w.symbol = symbol := by
  induction t generalizing declaring with
  | node root inside ih =>
      obtain ⟨hinside, hall⟩ := hunfolds
      obtain ⟨around, haround, rfl | ⟨hs, t, ht, hv⟩⟩ := mem_visits.mp hv
      · obtain ⟨t, ht, rfl⟩ := List.mem_map.mp (hinside ▸ hchild)
        exact ⟨_, mem_visits.mpr ⟨around, haround, .inr ⟨hshown, t, ht, visit_mem_visits hsymbol⟩⟩,
          rfl, rfl⟩
      · obtain ⟨w, hw, hhandle, heq⟩ := ih t ht (unfoldAll_iff.mp hall t ht) hv
        exact ⟨w, mem_visits.mpr ⟨around, haround, .inr ⟨hs, t, ht, hw⟩⟩, hhandle, heq⟩

theorem mem_shownVisits_iff {v : TypeVisit} :
    v ∈ ctx.shownVisits trees ↔ v.symbol.IsShown ∧ ∃ t ∈ trees, v ∈ ctx.visits none t := by
  rw [shownVisits, visitsAll_eq, List.mem_filter, List.mem_flatMap, decide_eq_true_eq, and_comm]

theorem mem_shown_iff (hforest : ctx.view.IsForest trees) {root : Nat} :
    root ∈ (ctx.shownVisits trees).map (·.handle) ↔ ctx.Reached root := by
  rw [List.mem_map]
  constructor
  · rintro ⟨v, hv, rfl⟩
    obtain ⟨hshown, t, ht, hv⟩ := mem_shownVisits_iff.mp hv
    have hunfolds := unfoldAll_iff.mp hforest.unfolds t ht
    refine reached_of_mem_visits hunfolds (fun symbol hsymbol hs => ?_) hv hshown
    exact .topLevel (hforest.roots ▸ List.mem_map_of_mem ht) hsymbol hs
  · intro hreached
    induction hreached with
    | topLevel h hsymbol hs =>
        obtain ⟨t, ht, rfl⟩ := List.mem_map.mp (hforest.roots ▸ h)
        exact ⟨_, mem_shownVisits_iff.mpr ⟨hs, t, ht, visit_mem_visits hsymbol⟩, rfl⟩
    | nested _ h hsymbol hs ih =>
        obtain ⟨v, hv, rfl⟩ := ih
        obtain ⟨hshown, t, ht, hv⟩ := mem_shownVisits_iff.mp hv
        obtain ⟨w, hw, hhandle, heq⟩ :=
          exists_visit_nested (unfoldAll_iff.mp hforest.unfolds t ht) hv hshown h hsymbol
        exact ⟨w, mem_shownVisits_iff.mpr ⟨heq ▸ hs, t, ht, hw⟩, hhandle⟩

/-! ## What a run comes to -/

section Runs

variable {state : TypeWalkState} {v : TypeVisit} {met : List TypeVisit}

def rememberVisit (ctx : WalkContext) (types : Dict Nat) (v : TypeVisit) : Dict Nat :=
  types.insert (ctx.visitName v) v.handle

def sendVisit (ctx : WalkContext) (s : Sink) (v : TypeVisit) : Sink :=
  ctx.sendTypeLinks (ctx.visitName v) v.symbol (s.node (ctx.visitNode v))

/-- The state after types were met, by what each of them adds to it. -/
def afterVisits (ctx : WalkContext) (state : TypeWalkState) (met : List TypeVisit) : TypeWalkState where
  walk := ⟨state.walk.records ++ (met.filterMap ctx.visitRecord?).toArray,
    (met.filter (·.symbol.drivesAsync)).foldl ctx.rememberVisit state.walk.asyncTypes⟩
  namespaces := met.foldl ctx.registerVisit state.namespaces
  sink := (met.filter (·.symbol.IsShown)).foldl ctx.sendVisit state.sink

theorem meet_eq (hv : ctx.view.typeSymbol ctx.index v.handle = .ok v.symbol) :
    ctx.meet state v = ctx.afterVisits state [v] := by
  have hmet := ctx.walkType_met state v.handle v.declaring
  unfold meet
  generalize ctx.walkType state v.handle v.declaring = result at hmet
  cases hmet with
  | unread e he => exact absurd (hv.symm.trans he) (by simp)
  | madeUp symbol h hm ha =>
      obtain rfl := Except.ok.inj (h.symm.trans hv)
      have hshown : ¬ v.symbol.IsShown := fun hs => by simp [hs.1] at hm
      have hasync : v.symbol.drivesAsync = false := by simp [TypeSymbol.drivesAsync, ha]
      simp [afterVisits, visitRecord?, registerVisit, hshown, hasync, hm]
  | async symbol h hm ha =>
      obtain rfl := Except.ok.inj (h.symm.trans hv)
      have hshown : ¬ v.symbol.IsShown := fun hs => by simp [hs.1] at hm
      have hasync : v.symbol.drivesAsync = true := by simp [TypeSymbol.drivesAsync, hm, ha]
      simp [afterVisits, visitRecord?, registerVisit, hshown, hasync, hm, rememberAsync, rememberVisit,
        visitName]
  | globalDoc symbol h hm hd hns =>
      obtain rfl := Except.ok.inj (h.symm.trans hv)
      have hshown : ¬ v.symbol.IsShown := fun hs => hs.2 hd
      have hasync : v.symbol.drivesAsync = false := by simp [TypeSymbol.drivesAsync, hm]
      simp [afterVisits, visitRecord?, registerVisit, hshown, hasync, hns]
  | doc symbol h hm hd hns =>
      obtain rfl := Except.ok.inj (h.symm.trans hv)
      have hshown : ¬ v.symbol.IsShown := fun hs => hs.2 hd
      have hasync : v.symbol.drivesAsync = false := by simp [TypeSymbol.drivesAsync, hm]
      simp [afterVisits, visitRecord?, registerVisit, hshown, hasync, hm, hns, describeNamespace]
  | sent symbol h hm hd =>
      obtain rfl := Except.ok.inj (h.symm.trans hv)
      have hshown : v.symbol.IsShown := ⟨hm, hd⟩
      have hasync : v.symbol.drivesAsync = false := by simp [TypeSymbol.drivesAsync, hm]
      simp [afterVisits, visitRecord?, registerVisit, hshown, hasync, sendType, sendVisit, visitName,
        visitNode]

theorem afterVisits_append (state : TypeWalkState) (met more : List TypeVisit) :
    ctx.afterVisits state (met ++ more) = ctx.afterVisits (ctx.afterVisits state met) more := by
  simp [afterVisits, List.foldl_append]

theorem foldl_meet (hmet : ∀ v ∈ met, ctx.view.typeSymbol ctx.index v.handle = .ok v.symbol) :
    met.foldl ctx.meet state = ctx.afterVisits state met := by
  induction met generalizing state with
  | nil => simp [afterVisits]
  | cons v met ih =>
      obtain ⟨hv, hmore⟩ := List.forall_mem_cons.mp hmet
      rw [List.foldl_cons, ih hmore, meet_eq hv, ← afterVisits_append, List.singleton_append]

theorem typeSymbol_of_mem_visitsAll {v : TypeVisit} (hv : v ∈ ctx.visitsAll declaring trees) :
    ctx.view.typeSymbol ctx.index v.handle = .ok v.symbol := by
  rw [visitsAll_eq] at hv
  obtain ⟨t, -, hv⟩ := List.mem_flatMap.mp hv
  exact typeSymbol_of_mem_visits hv

/-- The walk over a forest meets the types of its trees one after the other. -/
theorem typesMet_eq (hcount : ctx.CountsTypes) (hforest : ctx.view.IsForest trees) (s : Sink) :
    ctx.typesMet s = ctx.afterVisits ⟨.empty, .empty, s⟩ (ctx.visitsAll none trees) := by
  have hwaiting : ctx.view.topLevel.map (·, none) =
      (trees.map fun t => ((none : Option String), t)).map fun p => (p.2.handle, p.1) := by
    rw [← hforest.roots, List.map_map, List.map_map]
    rfl
  have hnest : NestWithin ctx.inside (ctx.view.typeCount + 1)
      ((ctx.view.topLevel.map fun root => (root, (none : Option String))).map (·.1)) := by
    have hroots : NestWithin ctx.inside (ctx.view.typeCount + 1) (trees.map handle) :=
      nestWithin_of_forest hcount hforest.unfolds hforest.nodup List.nodup_nil (by simp) (by simp) rfl
    simpa [Function.comp_def, hforest.roots] using hroots
  have hpops : ctx.Pops ⟨.empty, .empty, s⟩ (ctx.view.topLevel.map (·, none) ++ []) (ctx.typesMet s) :=
    pops_walkNested hnest (.done _)
  rw [List.append_nil, hwaiting] at hpops
  rw [hpops.eq_foldl, List.flatMap_map, ← visitsAll_eq, foldl_meet fun v => typeSymbol_of_mem_visitsAll]
  intro p hp
  obtain ⟨t, ht, rfl⟩ := List.mem_map.mp hp
  exact unfoldAll_iff.mp hforest.unfolds t ht

/-! ## What is sent -/

theorem eq_map_link {items : List Item} (h : items.filterMap Item.node? = []) :
    items = (items.filterMap Item.link?).map .link := by
  induction items with
  | nil => rfl
  | cons item items ih =>
      cases item with
      | node n => simp [Item.node?] at h
      | link l => exact congrArg (Item.link l :: ·) (ih h)

/-- Where all that is demanded was sent before, only the walk's own nodes go out. -/
theorem Sends.perm_of_provided {actions : List Action} {own demanded : List Node}
    (h : ctx.Sends own demanded (.provided actions) ((Sink.provided actions).perform actions)) :
    ((actions.filterMap Action.item?).filterMap Item.node?).Perm own := by
  have hdemand := h.onDemand
  have hnodes := h.nodes
  rw [Sink.perform_provided] at hdemand hnodes
  obtain rfl : demanded = [] := by simpa using hdemand
  simpa [Sink.nodes, Sink.provided] using hnodes

/-- The links of a type go out one after the other, between what their targets need on demand. -/
theorem exists_typeActions (hv : ctx.view.typeSymbol ctx.index v.handle = .ok v.symbol) :
    ∃ actions : List Action,
      actions.filterMap Action.item? =
        ((LinkDedup.new (ctx.visitName v)).passed (ctx.askedByBases (ctx.visitName v) v.symbol)).map .link ∧
      ∀ s, ctx.sendTypeLinks (ctx.visitName v) v.symbol s = s.perform actions := by
  obtain ⟨_, actions, hactions⟩ := ctx.sendTypeLinks_scripted () (ctx.visitName v) v.symbol
  have hperform : ∀ s, ctx.sendTypeLinks (ctx.visitName v) v.symbol s = s.perform actions :=
    fun s => (Prod.mk.inj (hactions s)).2
  refine ⟨actions, ?_, hperform⟩
  obtain ⟨demanded, hsends⟩ := keeps_sends.links.sendTypeLinks hv (ctx.visitName v) (.provided actions)
  have hlinks := ctx.sendTypeLinks_links (ctx.visitName v) v.symbol (.provided actions)
  rw [hperform] at hsends hlinks
  have hnone : (actions.filterMap Action.item?).filterMap Item.node? = [] :=
    hsends.perm_of_provided.eq_nil
  have hall : (actions.filterMap Action.item?).filterMap Item.link? =
      (LinkDedup.new (ctx.visitName v)).passed (ctx.askedByBases (ctx.visitName v) v.symbol) := by
    rw [Sink.perform_provided] at hlinks
    simpa [Sink.links, Sink.provided] using hlinks
  rw [eq_map_link hnone, hall]

theorem foldl_sendVisit {links : TypeVisit → List Action}
    (h : ∀ v ∈ met, ∀ s, ctx.sendTypeLinks (ctx.visitName v) v.symbol s = s.perform (links v)) (s : Sink) :
    met.foldl ctx.sendVisit s =
      s.perform (met.flatMap fun v => .send (.node (ctx.visitNode v)) :: links v) := by
  induction met generalizing s with
  | nil => rfl
  | cons v met ih =>
      obtain ⟨hv, hmore⟩ := List.forall_mem_cons.mp h
      rw [List.foldl_cons, ih hmore, sendVisit, hv, List.flatMap_cons, Sink.perform_append]
      rfl

theorem perform_nodes (nodes : List Node) (s : Sink) :
    nodes.foldl Sink.node s = s.perform (nodes.map fun n => .send (.node n)) := by
  rw [Sink.perform, List.foldl_map]
  rfl

theorem get?_foldl_rememberVisit (met : List TypeVisit) (types : Dict Nat) (name : String) :
    (met.foldl ctx.rememberVisit types).get? name =
      ((met.reverse.find? (ctx.visitName · = name)).map (·.handle)).or (types.get? name) := by
  induction met generalizing types with
  | nil => rfl
  | cons v met ih =>
      rw [List.foldl_cons, ih, List.reverse_cons, List.find?_append, rememberVisit, Dict.get?_insert]
      cases met.reverse.find? (ctx.visitName · = name) with
      | some w => rfl
      | none =>
          by_cases hname : ctx.visitName v = name
          · simp [hname]
          · simp [hname, Ne.symm hname]

end Runs

/-- The nodes that a walk over types sends are those of the types that are reached through types with
nodes, each once, each type before those nested in it and siblings in their order; behind each node and
before the next go the links of the type, and behind all types the namespaces. The records are the same
types, and in their places those that drive asynchronous methods; of these the last of each name is
remembered. -/
theorem walkTypes_preOrder (ctx : WalkContext) (hcount : ctx.CountsTypes) (trees : List TypeTree)
    (hforest : ctx.view.IsForest trees) :
    ((ctx.shownVisits trees).map (·.handle)).Nodup ∧
    (∀ handle, handle ∈ (ctx.shownVisits trees).map (·.handle) ↔ ctx.Reached handle) ∧
    (∃ links : TypeVisit → List Action,
      (∀ v ∈ ctx.shownVisits trees, (links v).filterMap Action.item? =
        ((LinkDedup.new (ctx.visitName v)).passed (ctx.askedByBases (ctx.visitName v) v.symbol)).map .link) ∧
      ∀ s, (ctx.walkTypes s).2 = s.perform
        ((ctx.shownVisits trees).flatMap (fun v => .send (.node (ctx.visitNode v)) :: links v) ++
          (namespaceNodes ((ctx.visitsAll none trees).foldl ctx.registerVisit .empty)).map
            fun n => .send (.node n))) ∧
    ∀ s, (ctx.walkTypes s).1.records.toList = (ctx.visitsAll none trees).filterMap ctx.visitRecord? ∧
      ∀ name, (ctx.walkTypes s).1.asyncTypes.get? name =
        (((ctx.visitsAll none trees).filter (·.symbol.drivesAsync)).reverse.find?
          (ctx.visitName · = name)).map (·.handle) := by
  refine ⟨?_, fun _ => mem_shown_iff hforest, ?_, fun s => ?_⟩
  · exact List.Nodup.sublist (List.filter_sublist.map _) (nodup_visitsAll hforest.nodup none)
  · have hread : ∀ v ∈ ctx.shownVisits trees, ctx.view.typeSymbol ctx.index v.handle = .ok v.symbol :=
      fun v hv => typeSymbol_of_mem_visitsAll (List.mem_filter.mp hv).1
    have hactions := fun v hv => exists_typeActions (hread v hv)
    choose! links hlinks hperform using hactions
    refine ⟨links, hlinks, fun s => ?_⟩
    have hsend : (ctx.typesMet s).sink = s.perform
        ((ctx.shownVisits trees).flatMap fun v => .send (.node (ctx.visitNode v)) :: links v) := by
      rw [typesMet_eq hcount hforest]
      exact foldl_sendVisit hperform s
    have hnamespaces : (ctx.typesMet s).namespaces =
        (ctx.visitsAll none trees).foldl ctx.registerVisit .empty := by
      rw [typesMet_eq hcount hforest]
      rfl
    change sendNamespaces (ctx.typesMet s).namespaces (ctx.typesMet s).sink = _
    rw [sendNamespaces_eq, hsend, hnamespaces, perform_nodes, Sink.perform_append]
  · change (ctx.typesMet s).walk.records.toList = _ ∧ ∀ name, (ctx.typesMet s).walk.asyncTypes.get? name = _
    rw [typesMet_eq hcount hforest]
    refine ⟨by simp [afterVisits, TypeWalk.empty], fun name => ?_⟩
    simp only [afterVisits, TypeWalk.empty, get?_foldl_rememberVisit, Dict.get?_empty, Option.or_none]

end WalkContext

namespace Mixed

def symbol (handle : Nat) (ns : String) (nesting : List String) (declaring : Option Nat) : TypeSymbol :=
  { id := handle
    ns := ns
    nesting := nesting
    declaring := declaring
    base := none
    interfaces := []
    isGenerated := false
    description := none
    location := none }

/-- A class with a class and a state machine inside of it, the comment of a namespace, and a class below
that namespace. -/
def typeSymbol : Nat → Except SymbolError TypeSymbol
  | 0 => .ok (symbol 0 "N" ["Outer"] none)
  | 1 => .ok { symbol 1 "N" ["Outer", "Inner"] (some 0) with base := some (.named Sample.object) }
  | 2 => .ok { symbol 2 "N" ["Outer", "<Run>d__0"] (some 0) with
      interfaces := [.named Sample.stateMachine]
      isGenerated := true }
  | 3 => .ok { symbol 3 "N.M" ["NamespaceDoc"] none with description := some "Parts." }
  | 4 => .ok (symbol 4 "N.M.K" ["Leaf"] none)
  | handle => .error (.unknownHandle handle)

def view : ModuleView :=
  { Sample.view with
    topLevel := [0, 3, 5, 4]
    nested := fun handle => if handle = 0 then [1, 2] else []
    typeSymbol := fun _ => typeSymbol
    typeCount := 5 }

def context : WalkContext :=
  { Sample.context with view := view }

def trees : List TypeTree :=
  [.node 0 [.node 1 [], .node 2 []], .node 3 [], .node 5 [], .node 4 []]

theorem isForest : view.IsForest trees where
  roots := rfl
  unfolds := by simp [trees, UnfoldAll, Unfolds, view, handle]
  nodup := by decide

theorem countsTypes : context.CountsTypes := by
  intro handle symbol h
  by_contra hge
  obtain ⟨k, rfl⟩ := Nat.exists_eq_add_of_le' (Nat.le_of_not_lt hge)
  cases h

end Mixed

theorem WalkContext.walkTypes_preOrder_mixed :
    Mixed.context.CountsTypes ∧ Mixed.context.view.IsForest Mixed.trees ∧
    (∀ handle, handle ∈ [0, 1, 4] ↔ Mixed.context.Reached handle) ∧
    ∀ s, (Mixed.context.walkTypes s).1.records.toList.map (·.node) =
      [some "lib.N.Outer", some "lib.N.Outer.Inner", none, some "lib.N.M.K.Leaf"] := by
  obtain ⟨-, hreached, -, hwalk⟩ :=
    walkTypes_preOrder Mixed.context Mixed.countsTypes Mixed.trees Mixed.isForest
  refine ⟨Mixed.countsTypes, Mixed.isForest, hreached, fun s => ?_⟩
  rw [(hwalk s).1]
  decide +kernel

end CodeGraph
