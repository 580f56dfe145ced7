import CodeGraph.Parse
import CodeGraph.Proofs.Walk.Schedules
import CodeGraph.Proofs.Walk.Scopes
import Mathlib.Data.Nat.Find

namespace CodeGraph

/-!
# Requests to stop

A request to stop is noticed by a check, and then by all later ones. Most stages end at the check that
notices it. The walks do not: each module has a check of its own, and one that notices leaves the
module out without a word. That no module is left out of a parse that succeeds is due to the check
behind each of the two stages.
-/

namespace Progress

def sent (p : Progress) : List Item :=
  p.sink.items.toList

end Progress

/-- One of the checks so far has noticed the request. -/
def Noticed (stop : StopRequest) (p : Progress) : Prop :=
  ∃ i < p.checks, stop.any (· ≤ i) = true

/-- Whatever the moment is at which a parse is asked to stop, there is a first check that notices. -/
theorem exists_stopRequest {notices : Nat → Bool} (h : ∀ i j, i ≤ j → notices i → notices j) :
    ∃ stop : StopRequest, ∀ i, stop.any (· ≤ i) = notices i := by
  by_cases hsome : ∃ i, notices i = true
  · refine ⟨some (Nat.find hsome), fun i => Bool.eq_iff_iff.mpr ?_⟩
    rw [Option.any_some, decide_eq_true_iff]
    exact ⟨fun hi => h _ i hi (Nat.find_spec hsome), fun hi => Nat.find_min' hsome hi⟩
  · refine ⟨none, fun i => ?_⟩
    rw [Option.any_none, eq_comm, Bool.eq_false_iff]
    exact fun hi => hsome ⟨i, hi⟩

theorem any_le_mono {stop : StopRequest} {i j : Nat} (hij : i ≤ j)
    (h : stop.any (· ≤ i) = true) : stop.any (· ≤ j) = true := by
  simp only [Option.any_eq_true, decide_eq_true_eq] at h ⊢
  obtain ⟨k, hk, hle⟩ := h
  exact ⟨k, hk, hle.trans hij⟩

/-- Once noticed, a request is noticed by the next check too. -/
theorem Noticed.any {stop : StopRequest} {p : Progress} (h : Noticed stop p) :
    stop.any (· ≤ p.checks) = true := by
  obtain ⟨i, hi, hnotices⟩ := h
  exact any_le_mono hi.le hnotices

theorem noticed_next_iff {stop : StopRequest} {sink : Sink} {checks : Nat} :
    Noticed stop ⟨sink, checks + 1⟩ ↔ stop.any (· ≤ checks) = true := by
  constructor
  · exact fun ⟨i, hi, hnotices⟩ => any_le_mono (Nat.le_of_lt_succ hi) hnotices
  · exact fun h => ⟨checks, Nat.lt_succ_self checks, h⟩

namespace Parsing

variable {α β : Type} {stop : StopRequest} {p : Progress}

def runFrom (x : Parsing α) (p : Progress) : Except Failure α × Progress :=
  x.run.run p

theorem runFrom_pure (a : α) (p : Progress) : runFrom (pure a) p = (.ok a, p) := rfl

theorem runFrom_bind (x : Parsing α) (f : α → Parsing β) (p : Progress) :
    runFrom (x >>= f) p =
      match runFrom x p with
      | (.ok a, p) => runFrom (f a) p
      | (.error e, p) => (.error e, p) := by
  simp only [runFrom, ExceptT.run_bind, StateT.run_bind]
  rcases x.run.run p with ⟨e | a, q⟩ <;> rfl

theorem runFrom_sending (send : Sink → α × Sink) (p : Progress) :
    runFrom (sending send) p = (.ok (send p.sink).1, ⟨(send p.sink).2, p.checks⟩) := rfl

theorem runFrom_noticesStop (stop : StopRequest) (p : Progress) :
    runFrom (noticesStop stop) p = (.ok (stop.any (· ≤ p.checks)), ⟨p.sink, p.checks + 1⟩) := rfl

theorem runFrom_goOn (stop : StopRequest) (p : Progress) :
    runFrom (goOn stop) p =
      (if stop.any (· ≤ p.checks) then .error .cancelled else .ok (), ⟨p.sink, p.checks + 1⟩) := by
  unfold goOn
  rw [runFrom_bind, runFrom_noticesStop]
  cases stop.any (· ≤ p.checks) <;> rfl

/-- The walk of one module, left out when its check notices. -/
def visit (stop : StopRequest) (send : Sink → α × Sink) : Parsing (Option α) :=
  noticesStop stop >>= fun noticed => if noticed then pure none else some <$> sending send

theorem runFrom_visit (stop : StopRequest) (send : Sink → α × Sink) (p : Progress) :
    runFrom (visit stop send) p =
      if stop.any (· ≤ p.checks) then (.ok none, ⟨p.sink, p.checks + 1⟩)
      else (.ok (some (send p.sink).1), ⟨(send p.sink).2, p.checks + 1⟩) := by
  unfold visit
  rw [runFrom_bind, runFrom_noticesStop]
  cases stop.any (· ≤ p.checks) <;> rfl

/-- What becomes of a run that starts before the request is noticed, next to the run without request.
It is the same run as long as no check notices; else it sends the beginning of what that one sends. -/
inductive Meets (ending : Except Failure α → Prop) (stop : StopRequest)
    (r r₀ : Except Failure α × Progress) : Prop
  | unnoticed (h : ¬ Noticed stop r.2) (heq : r = r₀)
  | noticed (h : Noticed stop r.2) (hending : ending r.1) (hsent : r.2.sent <+: r₀.2.sent)

def Grows (x : Parsing α) : Prop :=
  ∀ p, p.sent <+: (x.runFrom p).2.sent

/-- A computation that ends as soon as a check notices. -/
structure Heeds (f : StopRequest → Parsing α) : Prop where
  grows : ∀ stop, Grows (f stop)
  meets : ∀ stop p, ¬ Noticed stop p →
    Meets (· = .error .cancelled) stop ((f stop).runFrom p) ((f none).runFrom p)

/-- A computation that comes to its end, but sends nothing once a check has noticed. -/
structure Skips (f : StopRequest → Parsing α) : Prop where
  grows : ∀ stop, Grows (f stop)
  completes : ∀ stop p, ∃ a, ((f stop).runFrom p).1 = .ok a
  late : ∀ stop p, Noticed stop p → Noticed stop ((f stop).runFrom p).2 ∧
    ((f stop).runFrom p).2.sent = p.sent
  meets : ∀ stop p, ¬ Noticed stop p →
    Meets (fun _ => True) stop ((f stop).runFrom p) ((f none).runFrom p)

section Bind

variable {x : Parsing α} {g : α → Parsing β} {q : Progress}

theorem runFrom_bind_ok {a : α} (h : x.runFrom p = (.ok a, q)) :
    (x >>= g).runFrom p = (g a).runFrom q := by
  rw [runFrom_bind, h]

theorem runFrom_bind_error {e : Failure} (h : x.runFrom p = (.error e, q)) :
    (x >>= g).runFrom p = (.error e, q) := by
  rw [runFrom_bind, h]

/-- What was sent by a computation stays sent, whatever comes behind it. -/
theorem sent_bind (hg : ∀ a, Grows (g a)) (p : Progress) :
    (x.runFrom p).2.sent <+: ((x >>= g).runFrom p).2.sent := by
  rcases h : x.runFrom p with ⟨e | a, q⟩
  · simp only [runFrom_bind_error h, List.prefix_rfl]
  · rw [runFrom_bind_ok h]
    exact hg a q

theorem Grows.bind (hx : Grows x) (hg : ∀ a, Grows (g a)) : Grows (x >>= g) :=
  fun p => (hx p).trans (sent_bind hg p)

end Bind

namespace Heeds

variable {f : StopRequest → Parsing α} {g : α → StopRequest → Parsing β}

/-- What never checks runs its course. -/
theorem of_quiet {x : Parsing α} (hchecks : ∀ p, (x.runFrom p).2.checks = p.checks)
    (hgrows : Grows x) : Heeds fun _ => x where
  grows _ := hgrows
  meets stop p hp := by
    refine .unnoticed ?_ rfl
    rwa [Noticed, hchecks]

theorem of_result (r : Except Failure α) : Heeds fun _ => ofResult r :=
  of_quiet (fun _ => rfl) fun _ => List.prefix_rfl

theorem of_pure (a : α) : Heeds fun _ => (pure a : Parsing α) :=
  of_result (.ok a)

theorem of_sending {send : Sink → α × Sink} (h : Scripted send) : Heeds fun _ => sending send :=
  of_quiet (fun _ => rfl) fun p => h.items p.sink

theorem of_goOn : Heeds goOn where
  grows stop p := by
    rw [runFrom_goOn]
    exact List.prefix_rfl
  meets stop p hp := by
    rw [runFrom_goOn, runFrom_goOn]
    cases hstop : stop.any (· ≤ p.checks) with
    | true => exact .noticed (noticed_next_iff.mpr hstop) rfl List.prefix_rfl
    | false =>
        exact .unnoticed (fun h => Bool.false_ne_true (hstop.symm.trans (noticed_next_iff.mp h))) rfl

theorem bind (hf : Heeds f) (hg : ∀ a, Heeds (g a)) : Heeds fun stop => f stop >>= (g · stop) where
  grows stop := (hf.grows stop).bind fun a => (hg a).grows stop
  meets stop p hp := by
    have hmore := sent_bind (x := f none) (fun a => (hg a).grows none) p
    cases hf.meets stop p hp with
    | unnoticed h heq =>
        rcases hrun : (f none).runFrom p with ⟨e | a, q⟩
        · rw [runFrom_bind_error (heq.trans hrun), runFrom_bind_error hrun]
          rw [heq, hrun] at h
          exact .unnoticed h rfl
        · rw [runFrom_bind_ok (heq.trans hrun), runFrom_bind_ok hrun]
          rw [heq, hrun] at h
          exact (hg a).meets stop q h
    | noticed h hending hsent =>
        have hrun : (f stop).runFrom p = (.error .cancelled, ((f stop).runFrom p).2) :=
          Prod.ext hending rfl
        rw [runFrom_bind_error hrun]
        exact .noticed h rfl (hsent.trans hmore)

end Heeds

namespace Skips

variable {f : StopRequest → Parsing α} {g : α → StopRequest → Parsing β}

theorem of_pure (a : α) : Skips fun _ => (pure a : Parsing α) where
  grows _ _ := List.prefix_rfl
  completes _ _ := ⟨a, rfl⟩
  late _ _ h := ⟨h, rfl⟩
  meets _ _ h := .unnoticed h rfl

theorem bind (hf : Skips f) (hg : ∀ a, Skips (g a)) : Skips fun stop => f stop >>= (g · stop) where
  grows stop := (hf.grows stop).bind fun a => (hg a).grows stop
  completes stop p := by
    obtain ⟨a, ha⟩ := hf.completes stop p
    rw [runFrom_bind_ok (Prod.ext ha rfl)]
    exact (hg a).completes stop _
  late stop p hp := by
    obtain ⟨a, ha⟩ := hf.completes stop p
    obtain ⟨hnoticed, hsent⟩ := hf.late stop p hp
    rw [runFrom_bind_ok (Prod.ext ha rfl), ← hsent]
    exact (hg a).late stop _ hnoticed
  meets stop p hp := by
    have hmore := sent_bind (x := f none) (fun a => (hg a).grows none) p
    obtain ⟨a, ha⟩ := hf.completes stop p
    rw [runFrom_bind_ok (Prod.ext ha rfl)]
    cases hf.meets stop p hp with
    | unnoticed h heq =>
        rw [heq] at ha h ⊢
        rw [runFrom_bind_ok (Prod.ext ha rfl)]
        exact (hg a).meets stop _ h
    | noticed h _ hsent =>
        obtain ⟨hnoticed, heq⟩ := (hg a).late stop _ h
        refine .noticed hnoticed trivial ?_
        rw [heq]
        exact hsent.trans hmore

theorem of_visit {send : Sink → α × Sink} (h : Scripted send) : Skips (visit · send) where
  grows stop p := by
    rw [runFrom_visit]
    split
    · exact List.prefix_rfl
    · exact h.items p.sink
  completes stop p := by
    rw [runFrom_visit]
    split
    · exact ⟨_, rfl⟩
    · exact ⟨_, rfl⟩
  late stop p hp := by
    rw [runFrom_visit, if_pos hp.any]
    exact ⟨noticed_next_iff.mpr hp.any, rfl⟩
  meets stop p hp := by
    rw [runFrom_visit, runFrom_visit]
    by_cases hstop : stop.any (· ≤ p.checks) = true
    · rw [if_pos hstop]
      exact .noticed (noticed_next_iff.mpr hstop) trivial (h.items p.sink)
    · rw [if_neg hstop]
      exact .unnoticed (fun hnext => hstop (noticed_next_iff.mp hnext)) rfl

/-- A stage may leave something out when a check stands behind it. -/
theorem checked (hf : Skips f) :
    Heeds fun stop => f stop >>= fun a => goOn stop >>= fun _ => pure a where
  grows stop := (hf.grows stop).bind fun a => (Heeds.of_goOn.grows stop).bind fun _ =>
    (Heeds.of_pure a).grows stop
  meets stop p hp := by
    have hrest : ∀ a, Heeds fun stop => goOn stop >>= fun _ => (pure a : Parsing α) :=
      fun a => Heeds.of_goOn.bind fun _ => .of_pure a
    have hmore := sent_bind (x := f none) (fun a => (hrest a).grows none) p
    obtain ⟨a, ha⟩ := hf.completes stop p
    rw [runFrom_bind_ok (Prod.ext ha rfl)]
    cases hf.meets stop p hp with
    | unnoticed h heq =>
        rw [heq] at ha h ⊢
        rw [runFrom_bind_ok (Prod.ext ha rfl)]
        exact (hrest a).meets stop _ h
    | noticed h _ hsent =>
        -- what was left out does not show, as the check behind the stage notices too
        have hgoOn := runFrom_goOn stop ((f stop).runFrom p).2
        rw [if_pos h.any] at hgoOn
        rw [runFrom_bind_error hgoOn]
        exact .noticed (noticed_next_iff.mpr h.any) rfl (hsent.trans hmore)

end Skips

end Parsing

/-! ## The stages -/

theorem Scripted.demandModule {α : Type} (a : α) (m : Modules) (name : String) :
    Scripted fun s => (a, s.demandModule m name) :=
  (Scripted.demand () (.plain m.externalsRoot (Name.parent m.externalsRoot) .external)).bind
    fun _ => .demand a (.plain (m.rootOf name) m.externalsRoot .external)

theorem foldl_reference_scripted (m : Modules) (root : String) (references : List String) (n : Nat)
    (d : LinkDedup) :
    Scripted fun s =>
      let state := references.foldl (Sink.reference m root) (n, d, s)
      ((state.1, state.2.1), state.2.2) := by
  induction references generalizing n d with
  | nil => exact .nothing (n, d)
  | cons name references ih =>
      have hstep : Scripted fun s =>
          let state := Sink.reference m root (n, d, s) name
          ((state.1, state.2.1), state.2.2) := by
        unfold Sink.reference
        cases m.get? name with
        | none => exact .nothing (n, d)
        | some entry =>
            by_cases hroot : entry.root = root
            · simp only [hroot, if_true]
              exact .nothing (n, d)
            · simp only [hroot, if_false]
              exact .link? _ _
      exact hstep.bind fun state => ih state.1 state.2

namespace ModuleSet

theorem addInternal_scripted (s : ModuleSet) (parent : String) (m : OpenedModule) :
    Scripted (s.addInternal parent m) := by
  unfold addInternal
  split
  · exact .nothing s
  · exact .node _ _

theorem addExternal_scripted (s : ModuleSet) (view : ModuleView) : Scripted (s.addExternal view) :=
  .demandModule _ s.modules view.name

theorem addExternals_scripted (s : ModuleSet) (t : FileTree) (config : Config) :
    Scripted (s.addExternals t config) := by
  unfold addExternals
  split
  · have hfold : Scripted fun sink => (s.externalViews t config).foldl
        (fun state view => state.1.addExternal view state.2) (s, sink) :=
      .foldl addExternal_scripted (s.externalViews t config) s
    exact hfold.map admitExternals
  · exact .nothing s

theorem sendReferences_scripted (s : ModuleSet) :
    Scripted fun sink => ((), s.sendReferences sink) := by
  refine .foldl_snd (fun m => ?_) s.internal ()
  simp only [Sink.references_eq_foldl]
  exact (foldl_reference_scripted s.modules m.root m.view.references 0 (.new m.root)).map fun _ => ()

end ModuleSet

open Parsing

theorem readModules_heeds (t : FileTree) (withLocations : Bool) (planned : List PlannedModule) :
    Heeds fun stop => readModules t withLocations stop planned := by
  induction planned with
  | nil => exact .of_pure []
  | cons p more ih =>
      exact Heeds.of_goOn.bind fun _ => (Heeds.of_result (p.read t withLocations)).bind fun m =>
        ih.bind fun opened => .of_pure ((p.parent, m) :: opened)

theorem openModules_heeds (t : FileTree) (config : Config) (plan : Plan) :
    Heeds fun stop => openModules t config stop plan := by
  have hhierarchy : Scripted fun sink => ((), plan.hierarchy.foldl Sink.node sink) :=
    .foldl_snd (fun n => .node () n) plan.hierarchy ()
  refine (Heeds.of_sending hhierarchy).bind fun _ => ?_
  refine (readModules_heeds t config.debugSymbols plan.modules).bind fun opened => ?_
  have hinternal : Scripted fun sink => opened.foldl
      (fun state m => state.1.addInternal m.1 m.2 state.2)
      (ModuleSet.empty plan.externalsRoot config.ignored, sink) :=
    .foldl (fun s m => s.addInternal_scripted m.1 m.2) opened _
  refine (Heeds.of_sending hinternal).bind fun set => Heeds.of_goOn.bind fun _ => ?_
  refine (Heeds.of_sending (set.addExternals_scripted t config)).bind fun set => ?_
  exact (Heeds.of_sending set.sendReferences_scripted).bind fun _ => Heeds.of_goOn.bind fun _ =>
    .of_pure set

theorem walkAllTypes_cons (s : ModuleSet) (stop : StopRequest) (m : OpenedModule)
    (more : List OpenedModule) :
    walkAllTypes s stop (m :: more) =
      visit stop (m.context s.index s.modules).walkTypes >>= fun walk =>
        walkAllTypes s stop more >>= fun walks => pure (walk :: walks) := by
  rw [walkAllTypes, visit, bind_assoc]
  congr
  funext noticed
  cases noticed <;> rfl

theorem walkAllMembers_cons (s : ModuleSet) (stop : StopRequest) (m : OpenedModule) (walk : TypeWalk)
    (more : List (OpenedModule × Option TypeWalk)) :
    walkAllMembers s stop ((m, some walk) :: more) =
      visit stop ((m.context s.index s.modules).walkMembers walk) >>= fun _ =>
        walkAllMembers s stop more := by
  rw [walkAllMembers, visit, bind_assoc]
  congr
  funext noticed
  cases noticed <;> rfl

theorem walkAllTypes_skips (s : ModuleSet) (modules : List OpenedModule) :
    Skips fun stop => walkAllTypes s stop modules := by
  induction modules with
  | nil => exact .of_pure []
  | cons m more ih =>
      simp only [walkAllTypes_cons]
      exact (Skips.of_visit (m.context s.index s.modules).walkTypes_scripted).bind fun walk =>
        ih.bind fun walks => .of_pure (walk :: walks)

theorem walkAllMembers_skips (s : ModuleSet) (modules : List (OpenedModule × Option TypeWalk)) :
    Skips fun stop => walkAllMembers s stop modules := by
  induction modules with
  | nil => exact .of_pure ()
  | cons m more ih =>
      obtain ⟨m, walk⟩ := m
      cases walk with
      | none => exact ih
      | some walk =>
          simp only [walkAllMembers_cons]
          exact (Skips.of_visit ((m.context s.index s.modules).walkMembers_scripted walk)).bind
            fun _ => ih

theorem walkModules_heeds (set : ModuleSet) : Heeds fun stop => walkModules stop set := by
  have hstages := (walkAllTypes_skips set set.all).checked.bind fun walks =>
    (walkAllMembers_skips set (set.all.zip walks)).checked
  simpa [bind_assoc, walkModules] using hstages

/-! ## Walks without a request -/

namespace ModuleSet

def contexts (set : ModuleSet) : List WalkContext :=
  set.all.map (·.context set.index set.modules)

/-- The walks over all modules: their types in turn, and then the members of those types. -/
def walkInTurn (set : ModuleSet) (s : Sink) : Sink :=
  let walks := Schedule.walkTypesInTurn set.contexts s
  Schedule.walkMembersInTurn walks.1 walks.2

end ModuleSet

theorem runFrom_walkAllTypes (set : ModuleSet) (modules : List OpenedModule) (p : Progress) :
    (walkAllTypes set none modules).runFrom p =
      let walks := Schedule.walkTypesInTurn (modules.map (·.context set.index set.modules)) p.sink
      (.ok (walks.1.map (some ·.2)), ⟨walks.2, p.checks + modules.length⟩) := by
  induction modules generalizing p with
  | nil => rfl
  | cons m more ih =>
      have hvisit := runFrom_visit none (m.context set.index set.modules).walkTypes p
      rw [walkAllTypes_cons, runFrom_bind_ok hvisit, runFrom_bind_ok (ih _), runFrom_pure]
      simp [Schedule.walkTypesInTurn, Nat.add_assoc, Nat.add_comm 1]

theorem runFrom_walkAllMembers (set : ModuleSet) (modules : List OpenedModule)
    (walks : List (WalkContext × TypeWalk)) (p : Progress)
    (h : walks.map (·.1) = modules.map (·.context set.index set.modules)) :
    (walkAllMembers set none (modules.zip (walks.map (some ·.2)))).runFrom p =
      (.ok (), ⟨Schedule.walkMembersInTurn walks p.sink, p.checks + modules.length⟩) := by
  induction modules generalizing walks p with
  | nil =>
      obtain rfl : walks = [] := by simpa using h
      rfl
  | cons m more ih =>
      cases walks with
      | nil => cases h
      | cons walk walks =>
          obtain ⟨hfirst, hmore⟩ := List.cons.inj h
          have hvisit := runFrom_visit none
            ((m.context set.index set.modules).walkMembers walk.2) p
          rw [List.map_cons, List.zip_cons_cons, walkAllMembers_cons, runFrom_bind_ok hvisit,
            ih walks _ hmore]
          simp [Schedule.walkMembersInTurn, hfirst, Nat.add_assoc, Nat.add_comm 1]

/-- No module is left out of a walk that nobody asks to stop. -/
theorem map_fst_walkTypesInTurn (contexts : List WalkContext) (s : Sink) :
    (Schedule.walkTypesInTurn contexts s).1.map (·.1) = contexts := by
  induction contexts generalizing s with
  | nil => rfl
  | cons ctx more ih => exact congrArg (ctx :: ·) (ih _)

theorem runFrom_walkModules (set : ModuleSet) (p : Progress) :
    (walkModules none set).runFrom p =
      (.ok (), ⟨set.walkInTurn p.sink, p.checks + set.all.length + 1 + set.all.length + 1⟩) := by
  have hgoOn : ∀ sink checks,
      (goOn none).runFrom ⟨sink, checks⟩ = (.ok (), ⟨sink, checks + 1⟩) :=
    fun _ _ => runFrom_goOn none _
  have htypes : (walkAllTypes set none set.all).runFrom p =
      (.ok ((Schedule.walkTypesInTurn set.contexts p.sink).1.map (some ·.2)),
        ⟨(Schedule.walkTypesInTurn set.contexts p.sink).2, p.checks + set.all.length⟩) :=
    runFrom_walkAllTypes set set.all p
  have hcontexts : (Schedule.walkTypesInTurn set.contexts p.sink).1.map (·.1) = set.contexts :=
    map_fst_walkTypesInTurn _ _
  rw [walkModules, runFrom_bind_ok htypes, runFrom_bind_ok (hgoOn _ _),
    runFrom_bind_ok (runFrom_walkAllMembers set set.all _ _ hcontexts), hgoOn]
  rfl

/-! ## Parses -/

/-- A parse from its start on. -/
def parseRun (t : FileTree) (config : Config) (input : String) (stop : StopRequest) :
    Except Failure Summary × Progress :=
  (parsing t config input stop).runFrom ⟨.empty, 0⟩

/-- A parse walks all modules that it opens, each in both stages, and sends nothing behind that. -/
structure Completed (t : FileTree) (config : Config) (input : String) (stop : StopRequest)
    (summary : Summary) (plan : Plan) (set : ModuleSet) (p : Progress) : Prop where
  planned : Plan.ofInput t input config.mode = .ok plan
  opened : (openModules t config stop plan).runFrom ⟨.empty, 1⟩ = (.ok set, p)
  modules : summary.modules = set.internal.map (·.name)
  externals : summary.externals = set.external.map (·.name)
  walked : (Schedule.walkTypesInTurn set.contexts p.sink).1.map (·.1) = set.contexts
  items : (parse t config input stop).items = (set.walkInTurn p.sink).items.toList

/-- What a parse comes to that may be asked to stop at any moment. -/
structure StopsSafely (t : FileTree) (config : Config) (input : String) (stop : StopRequest) : Prop where
  unnoticed : ¬ Noticed stop (parseRun t config input stop).2 →
    parse t config input stop = parse t config input none
  noticed : Noticed stop (parseRun t config input stop).2 →
    (parse t config input stop).result = .error .cancelled ∧
      (parse t config input stop).items <+: (parse t config input none).items
  succeeded : ∀ summary, (parse t config input stop).result = .ok summary →
    ¬ Noticed stop (parseRun t config input stop).2 ∧
      ∃ plan set p, Completed t config input stop summary plan set p

theorem parsing_heeds (t : FileTree) (config : Config) (input : String) :
    Heeds fun stop => parsing t config input stop := by
  refine (Heeds.of_result (Plan.ofInput t input config.mode)).bind fun plan => ?_
  refine Heeds.of_goOn.bind fun _ => (openModules_heeds t config plan).bind fun set => ?_
  refine (walkModules_heeds set).bind fun _ => ?_
  exact .of_quiet (fun _ => rfl) fun _ => List.prefix_rfl

theorem Parsing.runFrom_bind_eq_ok {α β : Type} {x : Parsing α} {g : α → Parsing β} {p q : Progress}
    {b : β} (h : (x >>= g).runFrom p = (.ok b, q)) :
    ∃ a p', x.runFrom p = (.ok a, p') ∧ (g a).runFrom p' = (.ok b, q) := by
  rcases hrun : x.runFrom p with ⟨e | a, p'⟩
  · rw [runFrom_bind_error hrun] at h
    cases h
  · exact ⟨a, p', rfl, (runFrom_bind_ok hrun).symm.trans h⟩

/-- A stage that succeeds did so before the request was noticed, and as if there was none. -/
theorem Parsing.Heeds.of_ok {α : Type} {f : StopRequest → Parsing α} (hf : Heeds f)
    {stop : StopRequest} {p q : Progress} (hp : ¬ Noticed stop p) {a : α}
    (h : (f stop).runFrom p = (.ok a, q)) :
    ¬ Noticed stop q ∧ (f none).runFrom p = (.ok a, q) := by
  have hmeets := hf.meets stop p hp
  rw [h] at hmeets
  cases hmeets with
  | unnoticed hq heq => exact ⟨hq, heq.symm⟩
  | noticed _ hending => cases hending

theorem parse_completed {t : FileTree} {config : Config} {input : String} {stop : StopRequest}
    {summary : Summary} {q : Progress} (h : parseRun t config input stop = (.ok summary, q)) :
    ∃ plan set p, Completed t config input stop summary plan set p := by
  have hitems : (parse t config input stop).items = q.sent := congrArg (·.2.sent) h
  unfold parseRun parsing at h
  obtain ⟨plan, p₀, hresult, hplanned⟩ := runFrom_bind_eq_ok h
  obtain ⟨hplan, rfl⟩ := Prod.mk.inj hresult
  obtain ⟨_, p₁, hcheck, hchecked⟩ := runFrom_bind_eq_ok hplanned
  obtain rfl : ⟨.empty, 1⟩ = p₁ := (Prod.mk.inj ((runFrom_goOn stop _).symm.trans hcheck)).2
  obtain ⟨set, p, hopened, hmore⟩ := runFrom_bind_eq_ok hchecked
  obtain ⟨_, p₂, hwalked, hend⟩ := runFrom_bind_eq_ok hmore
  obtain ⟨hsummary, rfl⟩ := Prod.mk.inj hend
  obtain rfl := Except.ok.inj hsummary
  -- no check had noticed when the walks began, so that they ran as if there was no request
  have hstart : ¬ Noticed stop ⟨.empty, 0⟩ := by simp [Noticed]
  have hgoesOn := (Heeds.of_goOn.of_ok hstart hcheck).1
  have hunnoticed := ((openModules_heeds t config plan).of_ok hgoesOn hopened).1
  have hwalk := ((walkModules_heeds set).of_ok hunnoticed hwalked).2
  rw [runFrom_walkModules] at hwalk
  obtain rfl := (Prod.mk.inj hwalk).2
  exact ⟨plan, set, p, hplan, hopened, rfl, rfl, map_fst_walkTypesInTurn _ _, hitems⟩

/-- A parse that notices a request to stop ends as cancelled, and what it has sent by then is the beginning
of what it sends when it is left alone. A parse that notices none comes to the same as without a request. -/
theorem parse_stopsSafely (t : FileTree) (config : Config) (input : String) (stop : StopRequest) :
    StopsSafely t config input stop := by
  have hstart : ¬ Noticed stop ⟨.empty, 0⟩ := by simp [Noticed]
  have hmeets := (parsing_heeds t config input).meets stop ⟨.empty, 0⟩ hstart
  refine ⟨fun hnot => ?_, fun hnoticed => ?_, fun summary hsummary => ?_⟩
  · cases hmeets with
    | unnoticed _ heq => exact congrArg (fun r => Outcome.mk r.2.sent r.1) heq
    | noticed h => exact absurd h hnot
  · cases hmeets with
    | unnoticed h => exact absurd hnoticed h
    | noticed _ hending hsent => exact ⟨hending, hsent⟩
  · have hrun : parseRun t config input stop = (.ok summary, (parseRun t config input stop).2) :=
      Prod.ext hsummary rfl
    exact ⟨((parsing_heeds t config input).of_ok hstart hrun).1, parse_completed hrun⟩

end CodeGraph
