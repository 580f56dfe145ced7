import CodeGraph.Proofs.Symbol.Handles
import CodeGraph.Proofs.Walk.Asked

namespace CodeGraph

/-!
# Runs of the walk over types

A type that is met is passed over, remembered as driving an asynchronous method, taken as the comment
of its namespace, or sent. What one such step keeps, the whole walk keeps, however many types it
meets.
-/

namespace TypeSymbol

def isMadeUp (t : TypeSymbol) : Bool :=
  t.isGenerated || Name.isGenerated t.name

/-- The type only carries the comment of its namespace. -/
def IsNamespaceDoc (t : TypeSymbol) : Prop :=
  t.name = namespaceDoc ∧ t.declaring.isNone

instance (t : TypeSymbol) : Decidable t.IsNamespaceDoc :=
  inferInstanceAs (Decidable (_ ∧ _))

end TypeSymbol

/-- Going from types to those inside of them, and on, comes to an end within so many steps. -/
def NestWithin (inside : Nat → List Nat) : Nat → List Nat → Prop
  | 0, types => types = []
  | depth + 1, types => ∀ id ∈ types, NestWithin inside depth (inside id)

theorem nestWithin_nil (inside : Nat → List Nat) (depth : Nat) : NestWithin inside depth [] := by
  cases depth with
  | zero => rfl
  | succ depth => exact fun id h => absurd h List.not_mem_nil

namespace TypeWalk

/-- The types that have a node, each with the name of the node. -/
def named (w : TypeWalk) : List (String × TypeSymbol) :=
  w.records.toList.filterMap fun r => r.node.map (·, r.symbol)

end TypeWalk

namespace WalkContext

variable (ctx : WalkContext)

def typeNode (parent : String) (symbol : TypeSymbol) : Node :=
  ((Node.plain (ctx.ownTypeName symbol.ns symbol.nesting) parent .type).describedAs
    symbol.description).locatedAt symbol.location

def sendType (state : TypeWalkState) (declaring : Option String) (symbol : TypeSymbol) :
    TypeWalkState :=
  let name := ctx.ownTypeName symbol.ns symbol.nesting
  { walk := { state.walk with records := state.walk.records.push ⟨symbol, some name, false⟩ }
    namespaces :=
      if declaring.isNone then state.namespaces.register ctx.root symbol.ns else state.namespaces
    sink := ctx.sendTypeLinks name symbol
      (state.sink.node (ctx.typeNode (declaring.getD (Name.join ctx.root symbol.ns)) symbol)) }

def rememberAsync (state : TypeWalkState) (id : Nat) (symbol : TypeSymbol) : TypeWalkState :=
  { state with
    walk := ⟨state.walk.records.push ⟨symbol, none, true⟩,
      state.walk.asyncTypes.insert (ctx.ownTypeName symbol.ns symbol.nesting) id⟩ }

def describeNamespace (state : TypeWalkState) (symbol : TypeSymbol) : TypeWalkState :=
  let namespaces := state.namespaces.register ctx.root symbol.ns
  { state with namespaces := namespaces.insert (Name.join ctx.root symbol.ns) symbol.description }

/-- The types that are met after a type because they are nested in it. -/
def inside (id : Nat) : List Nat :=
  match ctx.view.typeSymbol ctx.index id with
  | .error _ => []
  | .ok symbol => if symbol.isMadeUp ∨ symbol.IsNamespaceDoc then [] else ctx.view.nested id

/-- What becomes of one type that is met. -/
inductive TypeMet (state : TypeWalkState) (id : Nat) (declaring : Option String) :
    TypeWalkState × List (Nat × Option String) → Prop
  | unread (e : SymbolError) (h : ctx.view.typeSymbol ctx.index id = .error e) :
      TypeMet state id declaring (state, [])
  | madeUp (symbol : TypeSymbol) (h : ctx.view.typeSymbol ctx.index id = .ok symbol)
      (hm : symbol.isMadeUp = true) (ha : symbol.isAsyncStateMachine = false) :
      TypeMet state id declaring (state, [])
  | async (symbol : TypeSymbol) (h : ctx.view.typeSymbol ctx.index id = .ok symbol)
      (hm : symbol.isMadeUp = true) (ha : symbol.isAsyncStateMachine = true) :
      TypeMet state id declaring (ctx.rememberAsync state id symbol, [])
  | globalDoc (symbol : TypeSymbol) (h : ctx.view.typeSymbol ctx.index id = .ok symbol)
      (hm : symbol.isMadeUp = false) (hd : symbol.IsNamespaceDoc) (hns : symbol.ns = "") :
      TypeMet state id declaring (state, [])
  | doc (symbol : TypeSymbol) (h : ctx.view.typeSymbol ctx.index id = .ok symbol)
      (hm : symbol.isMadeUp = false) (hd : symbol.IsNamespaceDoc) (hns : symbol.ns ≠ "") :
      TypeMet state id declaring (ctx.describeNamespace state symbol, [])
  | sent (symbol : TypeSymbol) (h : ctx.view.typeSymbol ctx.index id = .ok symbol)
      (hm : symbol.isMadeUp = false) (hd : ¬ symbol.IsNamespaceDoc) :
      TypeMet state id declaring (ctx.sendType state declaring symbol,
        (ctx.view.nested id).map (·, some (ctx.ownTypeName symbol.ns symbol.nesting)))

theorem walkType_met (state : TypeWalkState) (id : Nat) (declaring : Option String) :
    ctx.TypeMet state id declaring (ctx.walkType state id declaring) := by
  unfold walkType
  cases h : ctx.view.typeSymbol ctx.index id with
  | error e => exact .unread e h
  | ok symbol =>
      cases hm : symbol.isMadeUp with
      | true =>
          have hm' : (symbol.isGenerated || Name.isGenerated symbol.name) = true := hm
          cases ha : symbol.isAsyncStateMachine with
          | true =>
              simp only [hm', ha, if_true]
              exact .async symbol h hm ha
          | false =>
              simp only [hm', ha, Bool.false_eq_true, if_true, if_false]
              exact .madeUp symbol h hm ha
      | false =>
          have hm' : (symbol.isGenerated || Name.isGenerated symbol.name) = false := hm
          simp only [hm', Bool.false_eq_true, if_false]
          split
          · next hd =>
              split
              · next hns => exact .globalDoc symbol h hm hd (String.isEmpty_iff.mp hns)
              · next hns => exact .doc symbol h hm hd fun he => hns (String.isEmpty_iff.mpr he)
          · next hd => exact .sent symbol h hm hd

theorem TypeMet.inside_eq {state : TypeWalkState} {id : Nat} {declaring : Option String}
    {result : TypeWalkState × List (Nat × Option String)}
    (h : ctx.TypeMet state id declaring result) :
    result.2.map (·.1) = ctx.inside id := by
  cases h with
  | unread e h => simp [inside, h]
  | madeUp symbol h hm | async symbol h hm => simp [inside, h, hm]
  | globalDoc symbol h _ hd | doc symbol h _ hd => simp [inside, h, hd]
  | sent symbol h hm hd => simp [inside, h, hm, hd, Function.comp_def]

/-- What every step keeps is kept by the walk. What is left of the types to be met is nothing when they
do not nest too deep. -/
theorem walkNested_invariant {P : TypeWalkState → List (Nat × Option String) → Prop}
    (step : ∀ state id declaring pending result, ctx.TypeMet state id declaring result →
      P state ((id, declaring) :: pending) → P result.1 (result.2 ++ pending))
    (rotate : ∀ state types rest, P state (types ++ rest) → P state (rest ++ types))
    (depth : Nat) (state : TypeWalkState) (types rest : List (Nat × Option String))
    (h : P state (types ++ rest)) :
    ∃ left, P (ctx.walkNested depth state types) (rest ++ left) ∧
      (NestWithin ctx.inside depth (types.map (·.1)) → left = []) := by
  induction depth generalizing state types rest with
  | zero => exact ⟨types, rotate state types rest h, fun hnest => List.map_eq_nil_iff.mp hnest⟩
  | succ depth ih =>
      rw [walkNested]
      induction types generalizing state rest with
      | nil => exact ⟨[], by simpa using h, fun _ => rfl⟩
      | cons type types ihTypes =>
          obtain ⟨id, declaring⟩ := type
          have hmet := ctx.walkType_met state id declaring
          have hnext := step state id declaring (types ++ rest) _ hmet h
          obtain ⟨leftInside, hinside, hinsideNil⟩ := ih _ _ (types ++ rest) hnext
          rw [List.append_assoc] at hinside
          obtain ⟨left, hleft, hleftNil⟩ := ihTypes _ (rest ++ leftInside) hinside
          refine ⟨leftInside ++ left, by rw [← List.append_assoc]; exact hleft, fun hnest => ?_⟩
          have hnil : leftInside = [] := by
            apply hinsideNil
            rw [hmet.inside_eq]
            exact hnest id List.mem_cons_self
          rw [hnil, hleftNil fun other hother => hnest other (List.mem_cons_of_mem id hother)]
          rfl

/-- Types extend the nesting of the type that they are nested in, and lie in its namespace. -/
def ExtendsNesting : Prop :=
  ∀ id symbol, ctx.view.typeSymbol ctx.index id = .ok symbol → ∀ child ∈ ctx.view.nested id,
    ∀ inner, ctx.view.typeSymbol ctx.index child = .ok inner →
      inner.ns = symbol.ns ∧ ∃ raw, inner.nesting = symbol.nesting ++ [raw]

/-- Types that were gone through lie less deep than those that follow, so that none comes twice and the
depth is bounded by the number of types. -/
theorem nestWithin_of_seen (hnumbered : ctx.view.Numbered) (hextends : ctx.ExtendsNesting)
    {depth : Nat} {types seen : List Nat} (hnodup : seen.Nodup)
    (hseen : ∀ x ∈ seen, ∃ around, ctx.view.typeSymbol ctx.index x = .ok around ∧
      ∀ id ∈ types, ∀ symbol, ctx.view.typeSymbol ctx.index id = .ok symbol →
        around.nesting.length < symbol.nesting.length)
    (hdepth : depth + seen.length = ctx.view.typeCount + 1) :
    NestWithin ctx.inside depth types := by
  induction depth generalizing types seen with
  | zero =>
      -- one type more has been gone through than there are types
      have hlt : ∀ x ∈ seen, x < ctx.view.typeCount := by
        intro x hx
        obtain ⟨around, haround, -⟩ := hseen x hx
        exact hnumbered.type_lt ctx.index x around haround
      have hlength := length_le_of_forall_lt hnodup hlt
      omega
  | succ depth ih =>
      intro id hid
      cases hsymbol : ctx.view.typeSymbol ctx.index id with
      | error e =>
          have hinside : ctx.inside id = [] := by simp [inside, hsymbol]
          rw [hinside]
          exact nestWithin_nil _ _
      | ok symbol =>
          have hfresh : id ∉ seen := by
            intro hmem
            obtain ⟨around, haround, hdeeper⟩ := hseen id hmem
            obtain rfl := Except.ok.inj (haround.symm.trans hsymbol)
            exact Nat.lt_irrefl _ (hdeeper id hid around hsymbol)
          have hchild : ∀ child ∈ ctx.inside id, ∀ inner,
              ctx.view.typeSymbol ctx.index child = .ok inner →
              symbol.nesting.length < inner.nesting.length := by
            intro child hmem inner hinner
            have hnested : child ∈ ctx.view.nested id := by
              simp only [inside, hsymbol] at hmem
              split at hmem
              · exact absurd hmem List.not_mem_nil
              · exact hmem
            obtain ⟨-, raw, heq⟩ := hextends id symbol hsymbol child hnested inner hinner
            simp [heq]
          have hnodup' : (id :: seen).Nodup := List.nodup_cons.mpr ⟨hfresh, hnodup⟩
          apply ih hnodup'
          · intro x hx
            rcases List.mem_cons.mp hx with rfl | hx
            · exact ⟨symbol, hsymbol, hchild⟩
            · obtain ⟨around, haround, hdeeper⟩ := hseen x hx
              refine ⟨around, haround, fun child hmem inner hinner => ?_⟩
              exact Nat.lt_trans (hdeeper id hid symbol hsymbol) (hchild child hmem inner hinner)
          · rw [List.length_cons]
            omega

theorem nestWithin_topLevel (hnumbered : ctx.view.Numbered) (hextends : ctx.ExtendsNesting) :
    NestWithin ctx.inside (ctx.view.typeCount + 1) ctx.view.topLevel :=
  ctx.nestWithin_of_seen hnumbered hextends List.nodup_nil
    (fun _ hx => absurd hx List.not_mem_nil) rfl

/-! ## Links and remembered types -/

def typeLinks (types : List (String × TypeSymbol)) : List Link :=
  types.flatMap fun type => (LinkDedup.new type.1).passed (ctx.askedByBases type.1 type.2)

/-- Exactly the names of the types that were recorded as driving asynchronous methods are remembered. -/
def RemembersAsync (w : TypeWalk) : Prop :=
  ∀ name, w.asyncTypes.contains name = true ↔
    ∃ r ∈ w.records.toList, r.isAsync = true ∧ ctx.ownTypeName r.symbol.ns r.symbol.nesting = name

@[simp] theorem links_sendNamespaces (namespaces : Namespaces) (s : Sink) :
    (sendNamespaces namespaces s).links = s.links := by
  unfold sendNamespaces
  generalize namespaces.entries.mergeSort _ = entries
  induction entries generalizing s with
  | nil => rfl
  | cons e entries ih => rw [List.foldl_cons, ih, Sink.links_node]

theorem named_push_async (w : TypeWalk) (symbol : TypeSymbol) (d : Dict Nat) :
    TypeWalk.named ⟨w.records.push ⟨symbol, none, true⟩, d⟩ = w.named := by
  simp [TypeWalk.named]

theorem named_push_sent (w : TypeWalk) (name : String) (symbol : TypeSymbol) :
    TypeWalk.named { w with records := w.records.push ⟨symbol, some name, false⟩ } =
      w.named ++ [(name, symbol)] := by
  simp [TypeWalk.named]

theorem walkTypes_links (s : Sink) :
    (ctx.walkTypes s).2.links = s.links ++ ctx.typeLinks (ctx.walkTypes s).1.named := by
  let P : TypeWalkState → List (Nat × Option String) → Prop := fun state _ =>
    state.sink.links = s.links ++ ctx.typeLinks state.walk.named
  have step : ∀ state id declaring pending result, ctx.TypeMet state id declaring result →
      P state ((id, declaring) :: pending) → P result.1 (result.2 ++ pending) := by
    intro state id declaring pending result hmet h
    cases hmet with
    | unread | madeUp | globalDoc | doc => exact h
    | async symbol => simpa only [P, rememberAsync, named_push_async] using h
    | sent symbol =>
        have hlinks : state.sink.links = s.links ++ ctx.typeLinks state.walk.named := h
        simp only [P, sendType, sendTypeLinks_links, Sink.links_node, named_push_sent, hlinks]
        simp [typeLinks]
  have start : P ⟨.empty, .empty, s⟩ (ctx.view.topLevel.map (·, none)) := by
    simp [P, TypeWalk.named, TypeWalk.empty, typeLinks]
  obtain ⟨left, h, -⟩ :=
    ctx.walkNested_invariant step (fun _ _ _ h => h) (ctx.view.typeCount + 1) _ _ [] start
  simpa only [walkTypes, links_sendNamespaces] using h

theorem RemembersAsync.push_async {w : TypeWalk} (h : ctx.RemembersAsync w) (id : Nat)
    (symbol : TypeSymbol) :
    ctx.RemembersAsync ⟨w.records.push ⟨symbol, none, true⟩,
      w.asyncTypes.insert (ctx.ownTypeName symbol.ns symbol.nesting) id⟩ := by
  intro name
  rw [Dict.contains_iff_mem_keys, Dict.mem_keys_insert, ← Dict.contains_iff_mem_keys, h name]
  simp only [Array.toList_push, List.mem_append, List.mem_singleton]
  constructor
  · rintro (rfl | ⟨r, hr, hasync, hname⟩)
    · exact ⟨_, Or.inr rfl, rfl, rfl⟩
    · exact ⟨r, Or.inl hr, hasync, hname⟩
  · rintro ⟨r, hr | rfl, hasync, hname⟩
    · exact Or.inr ⟨r, hr, hasync, hname⟩
    · exact Or.inl hname.symm

theorem RemembersAsync.push_sent {w : TypeWalk} (h : ctx.RemembersAsync w) (name : String)
    (symbol : TypeSymbol) :
    ctx.RemembersAsync { w with records := w.records.push ⟨symbol, some name, false⟩ } := by
  intro other
  rw [h other]
  simp only [Array.toList_push, List.mem_append, List.mem_singleton]
  constructor
  · rintro ⟨r, hr, hasync, hname⟩
    exact ⟨r, Or.inl hr, hasync, hname⟩
  · rintro ⟨r, hr | rfl, hasync, hname⟩
    · exact ⟨r, hr, hasync, hname⟩
    · simp at hasync

theorem remembersAsync_walkTypes (s : Sink) : ctx.RemembersAsync (ctx.walkTypes s).1 := by
  let P : TypeWalkState → List (Nat × Option String) → Prop :=
      fun state _ => ctx.RemembersAsync state.walk
  have step : ∀ state id declaring pending result, ctx.TypeMet state id declaring result →
      P state ((id, declaring) :: pending) → P result.1 (result.2 ++ pending) := by
    intro state id declaring pending result hmet h
    cases hmet with
    | unread | madeUp | globalDoc | doc => exact h
    | async symbol => exact RemembersAsync.push_async ctx h id symbol
    | sent symbol => exact RemembersAsync.push_sent ctx h _ symbol
  have start : P ⟨.empty, .empty, s⟩ (ctx.view.topLevel.map (·, none)) := by
    intro name
    simp [TypeWalk.empty, Dict.contains, Dict.empty]
  obtain ⟨left, h, -⟩ :=
    ctx.walkNested_invariant step (fun _ _ _ h => h) (ctx.view.typeCount + 1) _ _ [] start
  exact h

end WalkContext

end CodeGraph
