import CodeGraph.Proofs.Walk.MemberRun
import Mathlib.Logic.Relation

namespace CodeGraph

/-!
# The bodies that belong to a member

Compilers move parts of a body into generated methods and types. What a body pulls in is said here
without the queue that the walk keeps: the code of the generated types that it creates or holds in a
local, and the generated methods that it mentions. The walk reads exactly the bodies that are reached
this way, each once, and it ends also where generated bodies pull in each other.
-/

def BodyQueue.Holds (q : BodyQueue) (member : Nat) : Prop :=
  member ∈ q.visited ∨ member ∈ q.pending

theorem BodyRef.runs?_eq_none_of_unwraps? {r : BodyRef} {n : NamedType} (h : r.unwraps? = some n) :
    r.runs? = none := by
  cases r with
  | type target usage => rfl
  | member target usage =>
      simp only [unwraps?, Option.ite_none_right_eq_some] at h
      have hcreation := h.1.2
      simp [runs?, hcreation]

namespace WalkContext

variable (ctx : WalkContext) (walk : TypeWalk) (own : Nat → String × List String)

/-- The type is recorded, by its own name, as one that drives an asynchronous method. -/
def IsAsync (type : Nat) : Prop :=
  ∃ r ∈ walk.records.toList, r.isAsync = true ∧
    ctx.ownTypeName r.symbol.ns r.symbol.nesting = ctx.ownTypeName (own type).1 (own type).2

/-- The member holds code of a generated type: the entry point of an asynchronous method, else any
method that can be read. -/
def IsCodeOf (type member : Nat) : Prop :=
  (ctx.IsAsync walk own type ∧ ctx.view.findMethod type moveNext = some member) ∨
    (¬ ctx.IsAsync walk own type ∧ member ∈ ctx.view.members type ∧
      ∃ symbol, ctx.view.memberSymbol ctx.index member = .ok symbol ∧ symbol.kind = .method)

/-- A mention pulls in the code of a generated type, or one generated method. -/
def Pulls (r : BodyRef) (member : Nat) : Prop :=
  (∃ n type, r.unwraps? = some n ∧ n.handle = some type ∧ ctx.IsCodeOf walk own type member) ∨
    r.runs? = some member

def PullsIn (a b : Nat) : Prop :=
  ∃ r ∈ ctx.mentions a, ctx.Pulls walk own r b

def Reaches : Nat → Nat → Prop :=
  Relation.ReflTransGen (ctx.PullsIn walk own)

/-- References that take in a generated type carry the namespace and the nesting of that type. -/
def CarryOwnNames : Prop :=
  ∀ a, ∀ r ∈ ctx.mentions a, ∀ n type, r.unwraps? = some n → n.handle = some type →
    (n.ns, n.nesting) = own type

/-- The handles of bodies that can be read lie below the count of members. -/
def CountsBodies : Prop :=
  ∀ id mentions, ctx.view.body ctx.index id = .ok mentions → id < ctx.view.memberCount

theorem mem_generatedCode_iff (hasync : ctx.RemembersAsync walk) {n : NamedType} {type member : Nat}
    (hown : (n.ns, n.nesting) = own type) :
    member ∈ ctx.generatedCode walk type n.ns n.nesting ↔ ctx.IsCodeOf walk own type member := by
  have hiff : walk.asyncTypes.contains (ctx.ownTypeName n.ns n.nesting) = true ↔
      ctx.IsAsync walk own type := by
    rw [hasync, IsAsync, ← hown]
  unfold generatedCode IsCodeOf
  by_cases h : ctx.IsAsync walk own type
  · rw [if_pos (hiff.mpr h)]
    simp [h]
  · rw [if_neg (fun hc => h (hiff.mp hc))]
    simp only [h, false_and, not_false_iff, true_and, false_or, List.mem_filter,
      and_congr_right_iff]
    intro _
    cases ctx.view.memberSymbol ctx.index member <;> simp

/-! ## What mentions do to the queue -/

/-- The code of every type that was taken in was met or waits to be. -/
def HoldsUnwrapped (q : BodyQueue) : Prop :=
  ∀ type ∈ q.unwrapped, ∀ b, ctx.IsCodeOf walk own type b → q.Holds b

variable {ctx walk own} {q : BodyQueue}

theorem takeInType_holds (hasync : ctx.RemembersAsync walk) (hq : ctx.HoldsUnwrapped walk own q)
    {n : NamedType} {type : Nat} (hn : n.handle = some type) (hown : (n.ns, n.nesting) = own type) :
    ctx.HoldsUnwrapped walk own (ctx.takeInType walk n q) ∧
      ∀ b, (ctx.takeInType walk n q).Holds b ↔ q.Holds b ∨ ctx.IsCodeOf walk own type b := by
  unfold takeInType
  by_cases ht : type ∈ q.unwrapped
  · simp only [hn, ht, if_true]
    refine ⟨hq, fun b => ⟨Or.inl, ?_⟩⟩
    rintro (h | h)
    · exact h
    · exact hq type ht b h
  · simp only [hn, ht, if_false]
    have hcode : ∀ b, b ∈ ctx.generatedCode walk type n.ns n.nesting ↔
        ctx.IsCodeOf walk own type b :=
      fun b => ctx.mem_generatedCode_iff walk own hasync hown
    have hholds : ∀ b, BodyQueue.Holds
        { q with
          unwrapped := type :: q.unwrapped
          pending := (ctx.generatedCode walk type n.ns n.nesting).reverse ++ q.pending } b ↔
        q.Holds b ∨ ctx.IsCodeOf walk own type b := by
      intro b
      simp only [BodyQueue.Holds, List.mem_append, List.mem_reverse, hcode b]
      tauto
    refine ⟨?_, hholds⟩
    intro t ht b hb
    rw [hholds b]
    rcases List.mem_cons.mp ht with rfl | ht
    · exact Or.inr hb
    · exact Or.inl (hq t ht b hb)

theorem takeIn_holds (hasync : ctx.RemembersAsync walk) (hq : ctx.HoldsUnwrapped walk own q)
    {r : BodyRef}
    (hr : ∀ n type, r.unwraps? = some n → n.handle = some type → (n.ns, n.nesting) = own type) :
    ctx.HoldsUnwrapped walk own (ctx.takeIn walk q r) ∧
      ∀ b, (ctx.takeIn walk q r).Holds b ↔ q.Holds b ∨ ctx.Pulls walk own r b := by
  unfold takeIn
  cases hu : r.unwraps? with
  | none =>
      have hpulls : ∀ b, ctx.Pulls walk own r b ↔ r.runs? = some b := by
        intro b
        simp [Pulls, hu]
      have hholds : ∀ b, BodyQueue.Holds { q with pending := r.runs?.toList ++ q.pending } b ↔
          q.Holds b ∨ ctx.Pulls walk own r b := by
        intro b
        simp only [BodyQueue.Holds, List.mem_append, Option.mem_toList, hpulls b]
        tauto
      exact ⟨fun t ht b hb => (hholds b).mpr (Or.inl (hq t ht b hb)), hholds⟩
  | some n =>
      have hruns := BodyRef.runs?_eq_none_of_unwraps? hu
      cases hn : n.handle with
      | none =>
          have hsame : ctx.takeInType walk n q = q := by simp [takeInType, hn]
          have hpulls : ∀ b, ¬ ctx.Pulls walk own r b := by
            intro b
            simp [Pulls, hu, hn, hruns]
          simp only [hsame, hpulls, or_false, implies_true, and_true]
          exact hq
      | some type =>
          obtain ⟨hunwrapped, hholds⟩ := takeInType_holds hasync hq hn (hr n type hu hn)
          refine ⟨hunwrapped, fun b => (hholds b).trans (or_congr_right ?_)⟩
          simp [Pulls, hu, hn, hruns]

theorem foldl_takeIn_holds (hasync : ctx.RemembersAsync walk) (rs : List BodyRef)
    (hq : ctx.HoldsUnwrapped walk own q)
    (hrs : ∀ r ∈ rs, ∀ n type, r.unwraps? = some n → n.handle = some type →
      (n.ns, n.nesting) = own type) :
    ctx.HoldsUnwrapped walk own (rs.foldl (ctx.takeIn walk) q) ∧
      ∀ b, (rs.foldl (ctx.takeIn walk) q).Holds b ↔ q.Holds b ∨
        ∃ r ∈ rs, ctx.Pulls walk own r b := by
  induction rs generalizing q with
  | nil => exact ⟨hq, fun b => by simp⟩
  | cons r rs ih =>
      obtain ⟨hunwrapped, hholds⟩ := takeIn_holds hasync hq (hrs r List.mem_cons_self)
      obtain ⟨hunwrapped', hholds'⟩ := ih hunwrapped fun x hx => hrs x (List.mem_cons_of_mem r hx)
      refine ⟨hunwrapped', fun b => ?_⟩
      rw [List.foldl_cons, hholds' b, hholds b]
      simp only [List.mem_cons, exists_eq_or_imp, or_assoc]

/-! ## The loop -/

variable (ctx walk own)

/-- The queue while the bodies of one member are read. -/
structure Queued (start : Nat) (q : BodyQueue) : Prop where
  nodup : q.visited.Nodup
  reached : ∀ b, q.Holds b → ctx.Reaches walk own start b
  start : q.Holds start
  closed : ∀ a ∈ q.visited, ∀ b, ctx.PullsIn walk own a b → q.Holds b
  unwrapped : ctx.HoldsUnwrapped walk own q

variable {ctx walk own}

theorem Queued.skip {start member : Nat} {pending : List Nat} (h : ctx.Queued walk own start q)
    (hp : q.pending = member :: pending) (hv : member ∈ q.visited) :
    ctx.Queued walk own start { q with pending } := by
  have hholds : ∀ b, BodyQueue.Holds { q with pending } b ↔ q.Holds b := by
    intro b
    simp only [BodyQueue.Holds, hp, List.mem_cons]
    constructor
    · rintro (hb | hb)
      · exact Or.inl hb
      · exact Or.inr (Or.inr hb)
    · rintro (hb | rfl | hb)
      · exact Or.inl hb
      · exact Or.inl hv
      · exact Or.inr hb
  exact ⟨h.nodup, fun b hb => h.reached b ((hholds b).mp hb), (hholds start).mpr h.start,
    fun a ha b hab => (hholds b).mpr (h.closed a ha b hab),
    fun t ht b hb => (hholds b).mpr (h.unwrapped t ht b hb)⟩

theorem Queued.meet {start member : Nat} {pending : List Nat} (hasync : ctx.RemembersAsync walk)
    (hown : ctx.CarryOwnNames own) (h : ctx.Queued walk own start q)
    (hp : q.pending = member :: pending)
    (hv : member ∉ q.visited) :
    ctx.Queued walk own start ((ctx.mentions member).foldl (ctx.takeIn walk)
      { q with pending, visited := member :: q.visited }) := by
  have hmet : ∀ b, BodyQueue.Holds { q with pending, visited := member :: q.visited } b ↔
      q.Holds b := by
    intro b
    simp only [BodyQueue.Holds, hp, List.mem_cons]
    tauto
  have hunwrapped :
      ctx.HoldsUnwrapped walk own { q with pending, visited := member :: q.visited } :=
    fun t ht b hb => (hmet b).mpr (h.unwrapped t ht b hb)
  obtain ⟨hunwrapped', hholds⟩ :=
    foldl_takeIn_holds hasync (ctx.mentions member) hunwrapped (hown member)
  have hvisited := ctx.foldl_takeIn_visited walk { q with pending, visited := member :: q.visited }
    (ctx.mentions member)
  have hmember : ctx.Reaches walk own start member := h.reached member (Or.inr (by simp [hp]))
  refine ⟨?_, ?_, ?_, ?_, hunwrapped'⟩
  · rw [hvisited]
    exact List.nodup_cons.mpr ⟨hv, h.nodup⟩
  · intro b hb
    rcases (hholds b).mp hb with hb | hb
    · exact h.reached b ((hmet b).mp hb)
    · exact hmember.tail hb
  · exact (hholds start).mpr (Or.inl ((hmet start).mpr h.start))
  · intro a ha b hab
    rw [hvisited] at ha
    rw [hholds b, hmet b]
    rcases List.mem_cons.mp ha with rfl | ha
    · exact Or.inr hab
    · exact Or.inl (h.closed a ha b hab)

/-- Once nothing waits, the bodies met are those that the member reaches. -/
theorem Queued.mem_visited_iff {start : Nat} (h : ctx.Queued walk own start q) (hp : q.pending = [])
    (b : Nat) : b ∈ q.visited ↔ ctx.Reaches walk own start b := by
  have hvisited : ∀ b, q.Holds b → b ∈ q.visited := by
    rintro b (hb | hb)
    · exact hb
    · simp [hp] at hb
  constructor
  · exact fun hb => h.reached b (Or.inl hb)
  · intro hb
    induction hb with
    | refl => exact hvisited start h.start
    | tail _ hab ih => exact hvisited _ (h.closed _ ih _ hab)

/-- Modules of both kinds count their bodies. -/
theorem countsBodies_of_numbered (h : ctx.view.Numbered) : ctx.CountsBodies :=
  h.body_lt ctx.index

theorem isReadable_lt (hcount : ctx.CountsBodies) {a : Nat} (h : ctx.isReadable a = true) :
    a < ctx.view.memberCount := by
  unfold isReadable at h
  cases hbody : ctx.view.body ctx.index a with
  | error e =>
      rw [hbody] at h
      cases h
  | ok mentions => exact hcount a mentions hbody

/-- As many bodies can be read as there are handles, so that the loop is never cut. -/
theorem Queued.pending_eq_nil {start k : Nat} {b : BodyState} (hcount : ctx.CountsBodies)
    (h : ctx.Queued walk own start b.queue)
    (hsteps : k + (b.visited.filter ctx.isReadable).length = ctx.view.memberCount + 1)
    (hended : ctx.Ended k b) : b.pending = [] := by
  rcases hended with hnil | ⟨rfl, -⟩
  · exact hnil
  · have hlt : ∀ a ∈ b.visited.filter ctx.isReadable, a < ctx.view.memberCount := by
      intro a ha
      exact isReadable_lt hcount (List.mem_filter.mp ha).2
    have hnodup : b.visited.Nodup := h.nodup
    have hlength := length_le_of_forall_lt (hnodup.filter ctx.isReadable) hlt
    omega

theorem readBodies_queued (hasync : ctx.RemembersAsync walk) (hown : ctx.CarryOwnNames own)
    (start : Nat) (d : LinkDedup) (s : Sink) :
    ∃ k, (ctx.Queued walk own start
          (ctx.readBodies walk (ctx.view.memberCount + 1) ⟨d, s, [start], [], []⟩).queue ∧
        k + ((ctx.readBodies walk (ctx.view.memberCount + 1) ⟨d, s, [start], [], []⟩).visited.filter
          ctx.isReadable).length = ctx.view.memberCount + 1) ∧
      ctx.Ended k (ctx.readBodies walk (ctx.view.memberCount + 1) ⟨d, s, [start], [], []⟩) := by
  let P : Nat → BodyState → Prop := fun n b =>
    ctx.Queued walk own start b.queue ∧
      n + (b.visited.filter ctx.isReadable).length = ctx.view.memberCount + 1
  have skip : ∀ n b member pending, b.pending = member :: pending → member ∈ b.visited → P n b →
      P n { b with pending } := by
    rintro n b member pending hp hv ⟨hqueued, hcount⟩
    exact ⟨hqueued.skip hp hv, hcount⟩
  have meet : ∀ n b member pending, b.pending = member :: pending → member ∉ b.visited →
      P (n + (ctx.isReadable member).toNat) b →
      P n ((ctx.mentions member).foldl (ctx.mention walk) (b.meet member pending)) := by
    rintro n b member pending hp hv ⟨hqueued, hcount⟩
    refine ⟨?_, ?_⟩
    · rw [ctx.foldl_mention_queue]
      exact hqueued.meet hasync hown hp hv
    · rw [ctx.foldl_mention_visited]
      -- a body takes a step of the bound exactly when it can be read
      cases hr : ctx.isReadable member <;>
        simp only [hr, BodyState.meet, List.filter_cons, Bool.toNat_true, Bool.toNat_false, if_true,
          Bool.false_eq_true, if_false, List.length_cons] at hcount ⊢ <;> omega
  refine ctx.readBodies_invariant walk skip meet _ _ ⟨?_, rfl⟩
  refine ⟨List.nodup_nil, ?_, Or.inr List.mem_cons_self, ?_, ?_⟩
  · rintro b (hb | hb)
    · simp [BodyState.queue] at hb
    · obtain rfl : b = start := by simpa [BodyState.queue] using hb
      exact .refl
  · simp [BodyState.queue]
  · intro t ht
    simp [BodyState.queue] at ht

variable (ctx walk own)

/-- What the walk over the bodies of one member comes to. -/
structure ReadsReached (m : WalkedMember) (d : LinkDedup) (s : Sink) (last : BodyState) : Prop where
  ended : last.pending = []
  once : last.visited.Nodup
  reached : ∀ b, b ∈ last.visited ↔ ctx.Reaches walk own m.id b
  links : last.sink.links = s.links ++ d.passed (ctx.askedByBodies m.name last.visited.reverse)
  source_eq : ∀ l ∈ d.passed (ctx.askedByBodies m.name last.visited.reverse), l.source = m.name

/-- The walk over a member's bodies ends, whichever generated bodies pull in each other. It reads the
bodies that the member reaches and no others, each once, and sends what they ask for in the name of the
member. -/
theorem analyzeBody_readsReached (hcount : ctx.CountsBodies) (hown : ctx.CarryOwnNames own) (s₀ : Sink)
    (m : WalkedMember) (d : LinkDedup) (s : Sink) (hsource : d.source = m.name) :
    ∃ last : BodyState, ctx.analyzeBody (ctx.walkTypes s₀).1 m.id d s = last.scope ∧
      last = ctx.readBodies (ctx.walkTypes s₀).1 (ctx.view.memberCount + 1) ⟨d, s, [m.id], [], []⟩ ∧
      ctx.ReadsReached (ctx.walkTypes s₀).1 own m d s last := by
  obtain ⟨k, ⟨hqueued, hsteps⟩, hended⟩ :=
    readBodies_queued (ctx.remembersAsync_walkTypes s₀) hown m.id d s
  have hnil := hqueued.pending_eq_nil hcount hsteps hended
  have hforwards := ctx.analyzeBody_forwards (ctx.walkTypes s₀).1 m.id d s
  rw [ctx.bodiesRead_eq (ctx.walkTypes s₀).1 m.id d s, hsource] at hforwards
  refine ⟨_, rfl, rfl, hnil, hqueued.nodup, hqueued.mem_visited_iff hnil, hforwards.links, ?_⟩
  intro l hl
  rw [← hsource]
  exact LinkDedup.source_of_mem_passed hl

end WalkContext

/-! ## An asynchronous method whose code comes back to itself -/

namespace Sample

/-- A class, the state machine of its method `Run`, and a closure. -/
def nesting : Nat → List String
  | 0 => ["A"]
  | 1 => ["A", "<Run>d__0"]
  | _ => ["A", "<>c"]

def named (type : Nat) : NamedType :=
  ⟨some "lib", "N", nesting type, [], some type⟩

def object : NamedType :=
  .simple (some "core") "System" "Object"

def stateMachine : NamedType :=
  .simple (some "core") "System.Runtime.CompilerServices" "IAsyncStateMachine"

def typeSymbol (type : Nat) : TypeSymbol :=
  { id := type
    ns := "N"
    nesting := nesting type
    declaring := if type = 0 then none else some 0
    base := if type = 0 then some (.named object) else none
    interfaces := if type = 1 then [.named stateMachine] else []
    isGenerated := type != 0
    description := none
    location := none }

def declaring : Nat → Nat
  | 3 => 1
  | 4 => 2
  | _ => 0

def memberName : Nat → String
  | 0 => "Run"
  | 1 => "Go"
  | 2 => "Stop"
  | 3 => "MoveNext"
  | _ => "<Run>b__1"

def memberSymbol (member : Nat) : MemberSymbol :=
  { id := member
    declaring := declaring member
    name := memberName member
    kind := .method
    signature := []
    parameters := []
    value := none
    isConstructor := false
    isImplicitCtor := false
    isPrivate := false
    isGenerated := member == 4
    description := none
    location := none }

def memberRef (member : Nat) : MemberRef :=
  { MemberRef.plain (named (declaring member)) (memberName member) .method with
    handle := some member }

def closureCtor : MemberRef :=
  .plain (named 2) ".ctor" .method

/-- The state machine creates the closure, and the closure runs the state machine. -/
def body : Nat → Except SymbolError (List BodyRef)
  | 0 => .ok [.type (.named (named 1)) .local, .member (memberRef 2) .call]
  | 1 => .ok [.member (memberRef 2) .call]
  | 3 => .ok [.member closureCtor .creation]
  | 4 => .ok [.member (memberRef 3) .call, .member (memberRef 2) .call]
  | member => .error (.unknownHandle member)

def members : Nat → List Nat
  | 0 => [0, 1, 2]
  | 1 => [3]
  | 2 => [4]
  | _ => []

def view : ModuleView :=
  { name := "lib"
    references := []
    files := []
    exports := .empty "lib"
    topLevel := [0]
    nested := fun type => if type = 0 then [1, 2] else []
    typeSymbol := fun _ type =>
      if type < 3 then .ok (typeSymbol type) else .error (.unknownHandle type)
    members := members
    memberSymbol := fun _ member =>
      if member < 5 then .ok (memberSymbol member) else .error (.unknownHandle member)
    hasBody := fun member => (body member).isOk
    body := fun _ => body
    findMethod := fun type name => (members type).find? (memberName · == name)
    typeCount := 3
    memberCount := 5 }

def context : WalkContext :=
  ⟨view, "lib", .empty, (Modules.new Name.externals ⟨[]⟩).insert "lib" "lib" true⟩

def walked (member : Nat) : WalkedMember :=
  ⟨"lib.N.A", member, memberSymbol member⟩

theorem mentions_subset (member : Nat) : context.mentions member ⊆
    [.type (.named (named 1)) .local, .member (memberRef 2) .call, .member closureCtor .creation,
      .member (memberRef 3) .call] := by
  rcases member with _ | _ | _ | _ | _ | member <;> simp [WalkContext.mentions, context, view, body]

theorem carryOwnNames : context.CarryOwnNames fun type => ("N", nesting type) := by
  intro a r hr n type hn htype
  have hmention := mentions_subset a hr
  simp only [List.mem_cons, List.not_mem_nil, or_false] at hmention
  have hnamed : n = named 1 ∨ n = named 2 := by
    rcases hmention with rfl | rfl | rfl | rfl
    · simp only [BodyRef.unwraps?, if_true, TypeRef.asNamed?, Option.filter_eq_some_iff] at hn
      exact Or.inl (Option.some.inj hn.1).symm
    · simp [BodyRef.unwraps?] at hn
    · simp only [BodyRef.unwraps?, Option.ite_none_right_eq_some] at hn
      exact Or.inr (Option.some.inj hn.2).symm
    · simp [BodyRef.unwraps?] at hn
  rcases hnamed with rfl | rfl
  · cases htype
    rfl
  · cases htype
    rfl

theorem numbered : context.view.Numbered where
  type_id _ id symbol h := by
    simp only [context, view] at h
    split at h
    · cases h
      rfl
    · cases h
  type_lt _ id symbol h := by
    simp only [context, view] at h
    split at h
    · assumption
    · cases h
  body_lt _ id mentions h := by
    by_contra hge
    obtain ⟨k, rfl⟩ := Nat.exists_eq_add_of_le' (Nat.le_of_not_lt hge)
    cases h

theorem countsBodies : context.CountsBodies :=
  WalkContext.countsBodies_of_numbered numbered

end Sample

theorem WalkContext.analyzeBody_readsReached_run :
    ∃ last : BodyState,
      Sample.context.analyzeBody (Sample.context.walkTypes .empty).1 0
        (.new "lib.N.A.Run()") .empty = last.scope ∧
      last = Sample.context.readBodies (Sample.context.walkTypes .empty).1 (5 + 1)
        ⟨.new "lib.N.A.Run()", .empty, [0], [], []⟩ ∧
      Sample.context.ReadsReached (Sample.context.walkTypes .empty).1
        (fun type => ("N", Sample.nesting type))
        (Sample.walked 0) (.new "lib.N.A.Run()") .empty last := by
  have hsource : (LinkDedup.new "lib.N.A.Run()").source =
      (Sample.walked 0).name := by decide +kernel
  exact Sample.context.analyzeBody_readsReached
    (fun type => ("N", Sample.nesting type)) Sample.countsBodies
    Sample.carryOwnNames .empty (Sample.walked 0) (.new "lib.N.A.Run()") .empty hsource

end CodeGraph
