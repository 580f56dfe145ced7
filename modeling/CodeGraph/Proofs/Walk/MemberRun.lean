import CodeGraph.Proofs.Walk.Bodies
import CodeGraph.Proofs.Walk.TypeRun

namespace CodeGraph

/-!
# Runs of the walk over members

The walk over members takes the types that have a node and of each the members that source code
declares. What it sends for one member depends on that member and on the types walked before, and not
on what was sent for others.
-/

/-- A member that gets a node, with the name of its type. -/
structure WalkedMember where
  typeName : String
  id : Nat
  symbol : MemberSymbol

namespace WalkedMember

def name (m : WalkedMember) : String :=
  Name.join m.typeName m.symbol.segment

def node (m : WalkedMember) : Node :=
  ((Node.ofMember m.name m.typeName m.symbol.kind m.symbol.isPrivate).describedAs
    m.symbol.description).locatedAt m.symbol.location

end WalkedMember

def MemberSymbol.isSkipped (m : MemberSymbol) : Bool :=
  m.isGenerated || m.isImplicitCtor || Name.isGenerated m.name

namespace WalkContext

/-- What is sent after a walk over the types of a module and then over its members. -/
def walk (ctx : WalkContext) (s : Sink) : Sink :=
  (ctx.walkMembers (ctx.walkTypes s).1 (ctx.walkTypes s).2).2

variable (ctx : WalkContext) (walk : TypeWalk)

def walkedMember? (typeName : String) (id : Nat) : Option WalkedMember :=
  match ctx.view.memberSymbol ctx.index id with
  | .error _ => none
  | .ok symbol => if symbol.isSkipped then none else some ⟨typeName, id, symbol⟩

/-- The members that get a node, in the order of their nodes. -/
def walkedMembers : List WalkedMember :=
  walk.named.flatMap fun type => (ctx.view.members type.2.id).filterMap (ctx.walkedMember? type.1)

theorem walkedMember?_eq_some_iff {typeName : String} {id : Nat} {m : WalkedMember} :
    ctx.walkedMember? typeName id = some m ↔ m.typeName = typeName ∧ m.id = id ∧
      ctx.view.memberSymbol ctx.index id = .ok m.symbol ∧ m.symbol.isSkipped = false := by
  unfold walkedMember?
  cases ctx.view.memberSymbol ctx.index id with
  | error e => simp
  | ok symbol =>
      simp only [Option.ite_none_left_eq_some, Option.some.injEq, Except.ok.injEq, Bool.not_eq_true]
      constructor
      · rintro ⟨hskip, rfl⟩
        exact ⟨rfl, rfl, rfl, hskip⟩
      · rintro ⟨rfl, rfl, rfl, hskip⟩
        exact ⟨hskip, rfl⟩

theorem mem_walkedMembers_iff {m : WalkedMember} :
    m ∈ ctx.walkedMembers walk ↔
      (∃ symbol, (m.typeName, symbol) ∈ walk.named ∧ m.id ∈ ctx.view.members symbol.id) ∧
      ctx.view.memberSymbol ctx.index m.id = .ok m.symbol ∧ m.symbol.isSkipped = false := by
  simp only [walkedMembers, List.mem_flatMap, List.mem_filterMap, walkedMember?_eq_some_iff]
  constructor
  · rintro ⟨⟨name, symbol⟩, hnamed, id, hid, rfl, rfl, hsymbol⟩
    exact ⟨⟨symbol, hnamed, hid⟩, hsymbol⟩
  · rintro ⟨⟨symbol, hnamed, hid⟩, hsymbol⟩
    exact ⟨_, hnamed, m.id, hid, rfl, rfl, hsymbol⟩

/-- The links that a member asks for: those of its signature, then those of the bodies read for it. -/
def askedByWalked (m : WalkedMember) : List Link :=
  ctx.askedBySignature m.typeName m.name m.symbol ++
    if ctx.view.hasBody m.id then ctx.askedByBodies m.name (ctx.bodiesRead walk m.id) else []

def memberLinks (m : WalkedMember) : List Link :=
  (LinkDedup.new m.name).passed (ctx.askedByWalked walk m)

def sendMember (m : WalkedMember) (s : Sink) : Sink :=
  let (d, s) := ctx.sendSignature m.typeName m.symbol (.new m.name, s.node m.node)
  if ctx.view.hasBody m.id then (ctx.analyzeBody walk m.id d s).2 else s

theorem walkMember_eq (typeName : String) (n : Nat) (s : Sink) (id : Nat) :
    ctx.walkMember walk typeName (n, s) id =
      match ctx.walkedMember? typeName id with
      | none => (n, s)
      | some m => (n + 1, ctx.sendMember walk m s) := by
  unfold walkMember walkedMember?
  cases ctx.view.memberSymbol ctx.index id with
  | error e => rfl
  | ok symbol =>
      cases hskip : symbol.isSkipped with
      | true =>
          have h : (symbol.isGenerated || symbol.isImplicitCtor || Name.isGenerated symbol.name) =
              true := hskip
          simp only [h, hskip, if_true]
      | false =>
          have h : (symbol.isGenerated || symbol.isImplicitCtor || Name.isGenerated symbol.name) =
              false := hskip
          simp only [h, hskip, Bool.false_eq_true, if_false, sendMember]
          split <;> rfl

theorem sendMember_links (m : WalkedMember) (s : Sink) :
    (ctx.sendMember walk m s).links = s.links ++ ctx.memberLinks walk m := by
  have hsignature : Forwards (ctx.askedBySignature m.typeName m.name m.symbol)
      (.new m.name, s.node m.node)
      (ctx.sendSignature m.typeName m.symbol (.new m.name, s.node m.node)) :=
    ctx.sendSignature_forwards m.typeName m.symbol (.new m.name, s.node m.node)
  have hsource : (ctx.sendSignature m.typeName m.symbol (.new m.name, s.node m.node)).1.source =
      m.name :=
    hsignature.source_eq
  unfold sendMember memberLinks askedByWalked
  by_cases hbody : ctx.view.hasBody m.id = true
  · have hbodies := ctx.analyzeBody_forwards walk m.id
      (ctx.sendSignature m.typeName m.symbol (.new m.name, s.node m.node)).1
      (ctx.sendSignature m.typeName m.symbol (.new m.name, s.node m.node)).2
    rw [hsource] at hbodies
    simpa [hbody] using (hsignature.trans hbodies).links
  · simpa [hbody] using hsignature.links

theorem foldl_walkMember_snd (typeName : String) (ids : List Nat) (state : Nat × Sink) :
    (ids.foldl (ctx.walkMember walk typeName) state).2 =
      (ids.filterMap (ctx.walkedMember? typeName)).foldl
        (fun s m => ctx.sendMember walk m s) state.2 := by
  induction ids generalizing state with
  | nil => rfl
  | cons id ids ih =>
      obtain ⟨n, s⟩ := state
      rw [List.foldl_cons, ih, walkMember_eq, List.filterMap_cons]
      cases ctx.walkedMember? typeName id <;> rfl

theorem walkMembers_eq (s : Sink) :
    (ctx.walkMembers walk s).2 =
      (ctx.walkedMembers walk).foldl (fun s m => ctx.sendMember walk m s) s := by
  unfold walkMembers walkedMembers TypeWalk.named
  rw [← Array.foldl_toList]
  change _ = List.foldl _ ((0, s) : Nat × Sink).2 _
  generalize ((0, s) : Nat × Sink) = state
  induction walk.records.toList generalizing state with
  | nil => rfl
  | cons r records ih =>
      rw [List.foldl_cons, ih]
      cases hnode : r.node with
      | none => simp [hnode]
      | some name => simp [hnode, foldl_walkMember_snd]

theorem walkMembers_links (s : Sink) :
    (ctx.walkMembers walk s).2.links =
      s.links ++ (ctx.walkedMembers walk).flatMap (ctx.memberLinks walk) := by
  rw [walkMembers_eq]
  induction ctx.walkedMembers walk generalizing s with
  | nil => simp
  | cons m members ih => simp [ih, sendMember_links]

end WalkContext

end CodeGraph
