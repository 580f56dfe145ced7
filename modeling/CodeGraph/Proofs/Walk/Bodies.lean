import CodeGraph.Proofs.Walk.Asked

namespace CodeGraph

/-!
# Reading bodies one after the other

A mention does one of three things: it takes in the code of a generated type, it takes in one
generated method, or it asks for links. The first two touch only the queue of bodies, the third only
the scope of links, so that which bodies are read does not depend on the links, and the links that go
out are those that the bodies ask for in the order in which they are read.
-/

namespace BodyRef

/-- The generated type whose code a mention takes in. -/
def unwraps? : BodyRef → Option NamedType
  | .type target usage => if usage = .local then target.asNamed?.filter (·.isGenerated) else none
  | .member target usage =>
    if target.isLocalFunction = false ∧ target.declaring.isGenerated ∧ usage = .creation then
      some target.declaring
    else none

def runs? : BodyRef → Option Nat
  | .type _ _ => none
  | .member target usage =>
    if target.isLocalFunction = false ∧ target.isGenerated ∧ target.kind = .method ∧
        ¬ (target.declaring.isGenerated ∧ usage = .creation) then
      target.handle
    else none

end BodyRef

/-- The part of the walk over bodies that says which bodies are read. -/
structure BodyQueue where
  pending : List Nat
  visited : List Nat
  unwrapped : List Nat

namespace BodyState

def queue (b : BodyState) : BodyQueue :=
  ⟨b.pending, b.visited, b.unwrapped⟩

def scope (b : BodyState) : LinkDedup × Sink :=
  (b.dedup, b.sink)

theorem queue_eq_iff {b c : BodyState} :
    b.queue = c.queue ↔
      b.pending = c.pending ∧ b.visited = c.visited ∧ b.unwrapped = c.unwrapped := by
  simp [queue]

def meet (b : BodyState) (member : Nat) (pending : List Nat) : BodyState :=
  { b with pending, visited := member :: b.visited }

end BodyState

namespace WalkContext

variable (ctx : WalkContext) (walk : TypeWalk)

/-- What a member's body mentions, nothing when it cannot be read. -/
def mentions (member : Nat) : List BodyRef :=
  match ctx.view.body ctx.index member with
  | .ok mentions => mentions
  | .error _ => []

def takeInType (n : NamedType) (q : BodyQueue) : BodyQueue :=
  match n.handle with
  | none => q
  | some type =>
    if type ∈ q.unwrapped then q
    else
      { q with
        unwrapped := type :: q.unwrapped
        pending := (ctx.generatedCode walk type n.ns n.nesting).reverse ++ q.pending }

def takeIn (q : BodyQueue) (r : BodyRef) : BodyQueue :=
  match r.unwraps? with
  | some n => ctx.takeInType walk n q
  | none => { q with pending := r.runs?.toList ++ q.pending }

def linkMention (a : LinkDedup × Sink) : BodyRef → LinkDedup × Sink
  | .type target usage =>
    match target.asNamed?.filter (·.isGenerated) with
    | some _ => a
    | none =>
      ctx.linkType (if usage = .generic then .genericArgument else .variableType) none a target
  | .member target usage =>
    if target.isLocalFunction ∨ target.isGenerated then a
    else
      let a := (target.args ++ target.declaring.args).foldl (ctx.linkType .genericArgument none) a
      if target.isImplicitCtor then a
      else (ctx.linkMember target usage ⟨a.1, a.2, [], [], []⟩).scope

theorem unwrap_queue (n : NamedType) (b : BodyState) :
    (ctx.unwrap walk n b).queue = ctx.takeInType walk n b.queue := by
  unfold unwrap takeInType
  cases n.handle with
  | none => rfl
  | some type =>
      by_cases h : type ∈ b.unwrapped
      · simp [h, BodyState.queue]
      · simp [h, BodyState.queue]

theorem unwrap_scope (n : NamedType) (b : BodyState) : (ctx.unwrap walk n b).scope = b.scope := by
  unfold unwrap
  split
  · rfl
  · split <;> rfl

theorem foldl_bodyLinkType_scope (kind : LinkKind) (ts : List TypeRef) (b : BodyState) :
    (ts.foldl (ctx.bodyLinkType kind) b).scope = ts.foldl (ctx.linkType kind none) b.scope := by
  induction ts generalizing b with
  | nil => rfl
  | cons t ts ih => rw [List.foldl_cons, List.foldl_cons, ih]; rfl

theorem foldl_bodyLinkType_queue (kind : LinkKind) (ts : List TypeRef) (b : BodyState) :
    (ts.foldl (ctx.bodyLinkType kind) b).queue = b.queue := by
  induction ts generalizing b with
  | nil => rfl
  | cons t ts ih => rw [List.foldl_cons, ih]; rfl

theorem linkMember_queue (target : MemberRef) (usage : MemberUsage) (b : BodyState) :
    (ctx.linkMember target usage b).queue = b.queue := by
  simp only [linkMember, memberTarget_fst]
  cases ctx.memberLinkName target with
  | none => rfl
  | some name =>
      by_cases hself : name = b.dedup.source
      · simp only [hself, if_true]; rfl
      · simp only [hself, if_false]; rfl

theorem linkMember_scope (target : MemberRef) (usage : MemberUsage) (b : BodyState) :
    (ctx.linkMember target usage b).scope =
      (ctx.linkMember target usage ⟨b.dedup, b.sink, [], [], []⟩).scope := by
  simp only [linkMember, memberTarget_fst]
  cases ctx.memberLinkName target with
  | none => rfl
  | some name =>
      by_cases hself : name = b.dedup.source
      · simp only [hself, if_true]; rfl
      · simp only [hself, if_false]; rfl

theorem linkMember_forwards (target : MemberRef) (usage : MemberUsage) (a : LinkDedup × Sink) :
    Forwards (ctx.askedByMember a.1.source target usage) a
      (ctx.linkMember target usage ⟨a.1, a.2, [], [], []⟩).scope := by
  obtain ⟨d, s⟩ := a
  have hlinks := ctx.links_memberTarget target.declaring target.segment target.kind s
  simp only [linkMember, askedByMember, memberTarget_fst]
  cases ctx.memberLinkName target with
  | none => exact .nothing hlinks
  | some name =>
      by_cases hself : name = d.source
      · simp only [hself, if_true]
        exact .nothing hlinks
      · simp only [hself, if_false]
        exact .one ⟨d.source, name, ctx.memberLinkKind target,
          if usage = .access then .memberAccess else .call⟩ hlinks

/-- The part of a mention that asks for links leaves the queue as it is. -/
theorem mention_queue (b : BodyState) (r : BodyRef) :
    (ctx.mention walk b r).queue = ctx.takeIn walk b.queue r := by
  cases r with
  | type target usage =>
      simp only [mention, typeMention, takeIn, BodyRef.unwraps?, BodyRef.runs?]
      cases target.asNamed?.filter (·.isGenerated) with
      | none => by_cases hu : usage = .local <;> simp only [hu, if_true, if_false] <;> rfl
      | some n =>
          by_cases hu : usage = .local
          · simpa only [hu, if_true] using ctx.unwrap_queue walk n b
          · simp only [hu, if_false]; rfl
  | member target usage =>
      simp only [mention, memberMention, takeIn, BodyRef.unwraps?, BodyRef.runs?]
      by_cases hlocal : target.isLocalFunction = true
      · simp [hlocal]
      by_cases hgenerated : target.isGenerated = true
      · by_cases hcreation : target.declaring.isGenerated = true ∧ usage = .creation
        · simpa [hlocal, hgenerated, hcreation] using ctx.unwrap_queue walk target.declaring b
        · cases target.handle <;> cases target.kind <;>
            simp [hlocal, hgenerated, hcreation, BodyState.queue]
      · have hdeclaring : target.declaring.isGenerated = false := by
          simp only [MemberRef.isGenerated, Bool.or_eq_true, not_or, Bool.not_eq_true] at hgenerated
          exact hgenerated.2
        have hargs := ctx.foldl_bodyLinkType_queue .genericArgument
          (target.args ++ target.declaring.args) b
        by_cases hctor : target.isImplicitCtor = true
        · simpa [hlocal, hgenerated, hdeclaring, hctor] using hargs
        · simpa [hlocal, hgenerated, hdeclaring, hctor, linkMember_queue] using hargs

/-- The part of a mention that takes in code leaves the scope as it is. -/
theorem mention_scope (b : BodyState) (r : BodyRef) :
    (ctx.mention walk b r).scope = ctx.linkMention b.scope r := by
  cases r with
  | type target usage =>
      simp only [mention, typeMention, linkMention]
      cases target.asNamed?.filter (·.isGenerated) with
      | none => rfl
      | some n =>
          by_cases hu : usage = .local
          · simpa only [hu, if_true] using ctx.unwrap_scope walk n b
          · simp only [hu, if_false]
  | member target usage =>
      simp only [mention, memberMention, linkMention]
      by_cases hlocal : target.isLocalFunction = true
      · simp [hlocal]
      by_cases hgenerated : target.isGenerated = true
      · by_cases hcreation : target.declaring.isGenerated = true ∧ usage = .creation
        · simpa [hlocal, hgenerated, hcreation] using ctx.unwrap_scope walk target.declaring b
        · cases target.handle <;> cases target.kind <;>
            simp [hlocal, hgenerated, hcreation, BodyState.scope]
      · have hargs :=
          ctx.foldl_bodyLinkType_scope .genericArgument (target.args ++ target.declaring.args) b
        by_cases hctor : target.isImplicitCtor = true
        · simpa [hlocal, hgenerated, hctor] using hargs
        · rw [← hargs, if_neg (by simp [hlocal]), if_neg (by simp [hgenerated]),
            if_neg (by simp [hctor]),
            if_neg (by simp [hlocal, hgenerated]), if_neg (by simp [hctor]), linkMember_scope]
          rfl

theorem linkMention_forwards (a : LinkDedup × Sink) (r : BodyRef) :
    Forwards (ctx.askedByMention a.1.source r) a (ctx.linkMention a r) := by
  cases r with
  | type target usage =>
      simp only [linkMention, askedByMention]
      cases target.asNamed?.filter (·.isGenerated) with
      | none => exact ctx.linkType_forwards _ none a target
      | some n => exact .nothing rfl
  | member target usage =>
      simp only [linkMention, askedByMention]
      by_cases hnone : target.isLocalFunction = true ∨ target.isGenerated = true
      · simp only [hnone, if_true]
        exact .nothing rfl
      · have hargs :=
          ctx.linkTypes_forwards .genericArgument none a (target.args ++ target.declaring.args)
        by_cases hctor : target.isImplicitCtor = true
        · simpa only [hnone, hctor, if_true, if_false, List.append_nil] using hargs
        · have hmember := ctx.linkMember_forwards target usage
            ((target.args ++ target.declaring.args).foldl (ctx.linkType .genericArgument none) a)
          rw [hargs.source_eq] at hmember
          simpa only [hnone, hctor, Bool.false_eq_true, if_false] using hargs.trans hmember

/-! ## The loop -/

theorem foldl_mention_queue (b : BodyState) (rs : List BodyRef) :
    (rs.foldl (ctx.mention walk) b).queue = rs.foldl (ctx.takeIn walk) b.queue := by
  induction rs generalizing b with
  | nil => rfl
  | cons r rs ih => rw [List.foldl_cons, List.foldl_cons, ih, mention_queue]

theorem foldl_mention_scope (b : BodyState) (rs : List BodyRef) :
    (rs.foldl (ctx.mention walk) b).scope = rs.foldl ctx.linkMention b.scope := by
  induction rs generalizing b with
  | nil => rfl
  | cons r rs ih => rw [List.foldl_cons, List.foldl_cons, ih, mention_scope]

theorem foldl_mention_forwards (b : BodyState) (rs : List BodyRef) :
    Forwards (rs.flatMap (ctx.askedByMention b.dedup.source)) b.scope
      (rs.foldl (ctx.mention walk) b).scope := by
  rw [foldl_mention_scope]
  refine Forwards.foldl ?_ rs b.scope rfl
  intro a r ha
  have hsource : a.1.source = b.dedup.source := ha
  exact hsource ▸ ctx.linkMention_forwards a r

theorem takeInType_visited (n : NamedType) (q : BodyQueue) :
    (ctx.takeInType walk n q).visited = q.visited := by
  unfold takeInType
  split
  · rfl
  · split <;> rfl

theorem takeIn_visited (q : BodyQueue) (r : BodyRef) :
    (ctx.takeIn walk q r).visited = q.visited := by
  unfold takeIn
  split
  · exact ctx.takeInType_visited walk _ q
  · rfl

theorem foldl_takeIn_visited (q : BodyQueue) (rs : List BodyRef) :
    (rs.foldl (ctx.takeIn walk) q).visited = q.visited := by
  induction rs generalizing q with
  | nil => rfl
  | cons r rs ih => rw [List.foldl_cons, ih, takeIn_visited]

theorem foldl_mention_visited (b : BodyState) (rs : List BodyRef) :
    (rs.foldl (ctx.mention walk) b).visited = b.visited := by
  have h := congrArg BodyQueue.visited (ctx.foldl_mention_queue walk b rs)
  rwa [foldl_takeIn_visited] at h

def isReadable (member : Nat) : Bool :=
  (ctx.view.body ctx.index member).isOk

section Steps

variable {n : Nat} {b : BodyState} {member : Nat} {pending : List Nat}

theorem readBodies_nil (hp : b.pending = []) : ctx.readBodies walk n b = b := by
  rw [readBodies]
  split
  · rfl
  · simp_all

theorem readBodies_skip (hp : b.pending = member :: pending) (hv : member ∈ b.visited) :
    ctx.readBodies walk n b = ctx.readBodies walk n { b with pending } := by
  rw [readBodies]
  split <;> simp_all

theorem readBodies_meet (hp : b.pending = member :: pending) (hv : member ∉ b.visited) :
    ctx.readBodies walk (n + (ctx.isReadable member).toNat) b =
      ctx.readBodies walk n
        ((ctx.mentions member).foldl (ctx.mention walk) (b.meet member pending)) := by
  rw [readBodies]
  split
  · simp_all
  · rename_i next more heq
    obtain ⟨rfl, rfl⟩ := List.cons.inj (hp.symm.trans heq)
    have hv' : ¬ b.visited.contains member = true := fun h => hv (List.contains_iff_mem.mp h)
    cases hbody : ctx.view.body ctx.index member with
    | error e =>
        simp only [hv', isReadable, mentions, hbody]
        rfl
    | ok refs =>
        simp only [hv', isReadable, mentions, hbody]
        rfl

theorem readBodies_stop (hp : b.pending = member :: pending) (hv : member ∉ b.visited)
    (hr : ctx.isReadable member) : ctx.readBodies walk 0 b = b := by
  rw [readBodies]
  split
  · rfl
  · rename_i next more heq
    obtain ⟨rfl, rfl⟩ := List.cons.inj (hp.symm.trans heq)
    have hv' : ¬ b.visited.contains member = true := fun h => hv (List.contains_iff_mem.mp h)
    cases hbody : ctx.view.body ctx.index member with
    | error e => simp [isReadable, hbody, Except.isOk, Except.toBool] at hr
    | ok refs => simp only [hv']; rfl

end Steps

/-- Induction along the loop: it ends with nothing pending, passes over a body that was met, meets the
next body, or stops for want of steps before a body that can be read. -/
theorem readBodies_induction {motive : Nat → BodyState → Prop}
    (nil : ∀ n b, b.pending = [] → motive n b)
    (skip : ∀ n b member pending, b.pending = member :: pending → member ∈ b.visited →
      motive n { b with pending } → motive n b)
    (meet : ∀ n b member pending, b.pending = member :: pending → member ∉ b.visited →
      motive n ((ctx.mentions member).foldl (ctx.mention walk) (b.meet member pending)) →
      motive (n + (ctx.isReadable member).toNat) b)
    (stop : ∀ b member pending, b.pending = member :: pending → member ∉ b.visited →
      ctx.isReadable member → motive 0 b)
    (n : Nat) (b : BodyState) : motive n b := by
  fun_induction ctx.readBodies walk n b with
  | case1 n b hp => exact nil n b hp
  | case2 n b member pending hp hv ih =>
      exact skip n b member pending hp (List.contains_iff_mem.mp hv) ih
  | case3 b member pending hp hv b' e n hbody ih =>
      have hnew : member ∉ b.visited := fun hm => hv (List.contains_iff_mem.mpr hm)
      have hstep := meet n b member pending hp hnew
      simp only [isReadable, mentions, hbody] at hstep
      exact hstep ih
  | case4 b member pending hp hv refs hbody =>
      have hnew : member ∉ b.visited := fun hm => hv (List.contains_iff_mem.mpr hm)
      have hreadable : ctx.isReadable member = true := by simp only [isReadable, hbody]; rfl
      exact stop b member pending hp hnew hreadable
  | case5 b member pending hp hv b' refs n hbody ih =>
      have hnew : member ∉ b.visited := fun hm => hv (List.contains_iff_mem.mpr hm)
      have hstep := meet n b member pending hp hnew
      simp only [isReadable, mentions, hbody] at hstep
      simp only [List.foldl_subtype, List.unattach_attach] at ih
      exact hstep ih

/-- The loop is over, or a body that can be read waits and no step is left. -/
def Ended (n : Nat) (b : BodyState) : Prop :=
  b.pending = [] ∨ n = 0 ∧ ∃ member ∈ b.pending, member ∉ b.visited ∧ ctx.isReadable member

/-- What holds before the loop and is kept by every step holds when the loop ends. -/
theorem readBodies_invariant {P : Nat → BodyState → Prop}
    (skip : ∀ n b member pending, b.pending = member :: pending → member ∈ b.visited → P n b →
      P n { b with pending })
    (meet : ∀ n b member pending, b.pending = member :: pending → member ∉ b.visited →
      P (n + (ctx.isReadable member).toNat) b →
      P n ((ctx.mentions member).foldl (ctx.mention walk) (b.meet member pending)))
    (n : Nat) (b : BodyState) (h : P n b) :
    ∃ k, P k (ctx.readBodies walk n b) ∧ ctx.Ended k (ctx.readBodies walk n b) := by
  induction n, b using ctx.readBodies_induction walk with
  | nil n b hp =>
      rw [ctx.readBodies_nil walk hp]
      exact ⟨n, h, Or.inl hp⟩
  | skip n b member pending hp hv ih =>
      rw [ctx.readBodies_skip walk hp hv]
      exact ih (skip n b member pending hp hv h)
  | meet n b member pending hp hv ih =>
      rw [ctx.readBodies_meet walk hp hv]
      exact ih (meet n b member pending hp hv h)
  | stop b member pending hp hv hr =>
      rw [ctx.readBodies_stop walk hp hv hr]
      exact ⟨0, h, Or.inr ⟨rfl, member, by simp [hp], hv, hr⟩⟩

/-- Which bodies are read does not depend on the links. -/
theorem readBodies_queue_congr (n : Nat) (b c : BodyState) (h : b.queue = c.queue) :
    (ctx.readBodies walk n b).queue = (ctx.readBodies walk n c).queue := by
  induction n, b using ctx.readBodies_induction walk generalizing c with
  | nil n b hp =>
      have hpc : c.pending = [] := (BodyState.queue_eq_iff.mp h).1 ▸ hp
      rwa [ctx.readBodies_nil walk hp, ctx.readBodies_nil walk hpc]
  | skip n b member pending hp hv ih =>
      obtain ⟨hpending, hvisited, hunwrapped⟩ := BodyState.queue_eq_iff.mp h
      rw [ctx.readBodies_skip walk hp hv, ctx.readBodies_skip walk (b := c) (hpending ▸ hp)
        (hvisited ▸ hv)]
      exact ih _ (BodyState.queue_eq_iff.mpr ⟨rfl, hvisited, hunwrapped⟩)
  | meet n b member pending hp hv ih =>
      obtain ⟨hpending, hvisited, hunwrapped⟩ := BodyState.queue_eq_iff.mp h
      rw [ctx.readBodies_meet walk hp hv, ctx.readBodies_meet walk (b := c) (hpending ▸ hp)
        (hvisited ▸ hv)]
      apply ih
      have hmeet : (b.meet member pending).queue = (c.meet member pending).queue :=
        BodyState.queue_eq_iff.mpr ⟨rfl, congrArg (member :: ·) hvisited, hunwrapped⟩
      rw [foldl_mention_queue, foldl_mention_queue, hmeet]
  | stop b member pending hp hv hr =>
      obtain ⟨hpending, hvisited, -⟩ := BodyState.queue_eq_iff.mp h
      rwa [ctx.readBodies_stop walk hp hv hr, ctx.readBodies_stop walk (hpending ▸ hp)
        (hvisited ▸ hv) hr]

def bodiesRead (member : Nat) : List Nat :=
  (ctx.readBodies walk (ctx.view.memberCount + 1)
    ⟨.new "", .empty, [member], [], []⟩).visited.reverse

theorem bodiesRead_eq (member : Nat) (d : LinkDedup) (s : Sink) :
    ctx.bodiesRead walk member =
      (ctx.readBodies walk (ctx.view.memberCount + 1) ⟨d, s, [member], [], []⟩).visited.reverse :=
  congrArg (·.visited.reverse)
    (ctx.readBodies_queue_congr walk (ctx.view.memberCount + 1) ⟨.new "", .empty, [member], [], []⟩
      ⟨d, s, [member], [], []⟩ rfl)

def askedByBodies (source : String) (bodies : List Nat) : List Link :=
  bodies.flatMap fun b => (ctx.mentions b).flatMap (ctx.askedByMention source)

/-- The walk over a member's bodies forwards what the bodies read ask for, in the order in which they
are read. -/
theorem analyzeBody_forwards (member : Nat) (d : LinkDedup) (s : Sink) :
    Forwards (ctx.askedByBodies d.source (ctx.bodiesRead walk member)) (d, s)
      (ctx.analyzeBody walk member d s) := by
  rw [ctx.bodiesRead_eq walk member d s]
  have hmeet : ∀ (n : Nat) (b : BodyState) (next : Nat) (pending : List Nat),
      b.pending = next :: pending →
      next ∉ b.visited → Forwards (ctx.askedByBodies d.source b.visited.reverse) (d, s) b.scope →
      Forwards (ctx.askedByBodies d.source
        ((ctx.mentions next).foldl (ctx.mention walk) (b.meet next pending)).visited.reverse) (d, s)
        ((ctx.mentions next).foldl (ctx.mention walk) (b.meet next pending)).scope := by
    intro n b next pending hp hv h
    have hread := ctx.foldl_mention_forwards walk (b.meet next pending) (ctx.mentions next)
    have hsource : (b.meet next pending).dedup.source = d.source := h.source_eq
    have hvisited := ctx.foldl_mention_visited walk (b.meet next pending) (ctx.mentions next)
    rw [hsource] at hread
    rw [hvisited, BodyState.meet, List.reverse_cons, askedByBodies, List.flatMap_append,
      List.flatMap_singleton]
    exact h.trans hread
  obtain ⟨k, h, -⟩ := ctx.readBodies_invariant walk
    (P := fun _ b => Forwards (ctx.askedByBodies d.source b.visited.reverse) (d, s) b.scope)
    (fun n b member pending hp hv h => h) hmeet (ctx.view.memberCount + 1) ⟨d, s, [member], [], []⟩
    (.nothing rfl)
  exact h

end WalkContext

end CodeGraph
