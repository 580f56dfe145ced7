import CodeGraph.Proofs.Walk.Scripts
import CodeGraph.Proofs.Walk.UniqueNames

namespace CodeGraph

/-!
# Schedules of walks

The walks over several modules run at the same time: first those over types, and when all of these are
over those over members. Each has its script, and they take turns in any order. To send is one step. A
node on demand takes two, its name is entered and then, if it was new, the node is sent, and others
may come in between.
-/

namespace Schedule

/-- What is left to one walk now, and behind the barrier. It may hold a node whose name it has just
entered. -/
structure Worker where
  held : Option Node
  todo : List Action
  later : List Action

namespace Worker

def own (w : Worker) : List Item :=
  (w.todo ++ w.later).filterMap Action.item?

def wanted (w : Worker) : List String :=
  (w.todo ++ w.later).filterMap Action.demanded?

def heldNodes (w : Worker) : List Node :=
  w.held.toList

def Waits (w : Worker) : Prop :=
  w.held = none ∧ w.todo = []

def Done (w : Worker) : Prop :=
  w.Waits ∧ w.later = []

def goOn (w : Worker) : Worker :=
  ⟨none, w.later, []⟩

def stop (w : Worker) : Worker :=
  ⟨none, [], w.later⟩

end Worker

inductive Event where
  | send (item : Item)
  | enter (node : Node)
  /-- The name is there, whoever entered it. -/
  | pass (node : Node)
  | deliver (node : Node)
  | barrier

namespace Event

def items : Event → List Item
  | send item => [item]
  | deliver node => [.node node]
  | _ => []

/-- What goes out for the module itself. -/
def own : Event → List Item
  | send item => [item]
  | _ => []

def entered : Event → List Node
  | enter node => [node]
  | _ => []

def delivered : Event → List Node
  | deliver node => [node]
  | _ => []

end Event

def sentItems (t : List Event) : List Item :=
  t.flatMap Event.items

def ownItems (t : List Event) : List Item :=
  t.flatMap Event.own

def enteredNodes (t : List Event) : List Node :=
  t.flatMap Event.entered

def deliveredNodes (t : List Event) : List Node :=
  t.flatMap Event.delivered

/-- What a worker does when it is its turn. -/
inductive Turn : Sink → Worker → Event → Sink → Worker → Prop
  | send (s : Sink) (item : Item) (todo later : List Action) :
      Turn s ⟨none, .send item :: todo, later⟩ (.send item) (s.act (.send item)) ⟨none, todo, later⟩
  | enter (s : Sink) (node : Node) (todo later : List Action) (h : node.name ∉ s.onDemand) :
      Turn s ⟨none, .demand node :: todo, later⟩ (.enter node)
        { s with onDemand := node.name :: s.onDemand } ⟨some node, todo, later⟩
  | pass (s : Sink) (node : Node) (todo later : List Action) (h : node.name ∈ s.onDemand) :
      Turn s ⟨none, .demand node :: todo, later⟩ (.pass node) s ⟨none, todo, later⟩
  | deliver (s : Sink) (node : Node) (todo later : List Action) :
      Turn s ⟨some node, todo, later⟩ (.deliver node) (s.node node) ⟨none, todo, later⟩

structure State where
  sink : Sink
  workers : List Worker

inductive Step : State → Event → State → Prop
  | turn {s s' : Sink} {w w' : Worker} {e : Event} (before after : List Worker)
      (h : Turn s w e s' w') : Step ⟨s, before ++ w :: after⟩ e ⟨s', before ++ w' :: after⟩
  | barrier (s : Sink) {workers : List Worker} (h : ∀ w ∈ workers, w.Waits) :
      Step ⟨s, workers⟩ .barrier ⟨s, workers.map Worker.goOn⟩

inductive Runs : State → List Event → State → Prop
  | nil (a : State) : Runs a [] a
  | cons {a b c : State} {e : Event} {t : List Event} (h : Step a e b) (more : Runs b t c) :
      Runs a (e :: t) c

variable {a b c : State} {s s' : Sink} {w w' : Worker} {e : Event} {t u : List Event}

theorem Runs.append (h : Runs a t b) (h' : Runs b u c) : Runs a (t ++ u) c := by
  induction h with
  | nil => exact h'
  | cons hstep _ ih => exact .cons hstep (ih h')

/-! ## Accounts of a run -/

namespace State

def own (a : State) : List Item :=
  a.workers.flatMap Worker.own

def heldNodes (a : State) : List Node :=
  a.workers.flatMap Worker.heldNodes

/-- The name is or will be among those of the nodes on demand. -/
def Wants (a : State) (name : String) : Prop :=
  name ∈ a.sink.onDemand ∨ ∃ w ∈ a.workers, name ∈ w.wanted

end State

/-- What a run sends, and what it leaves to be sent. -/
structure Accounts (a : State) (t : List Event) (b : State) : Prop where
  items : b.sink.items.toList = a.sink.items.toList ++ sentItems t
  own : a.own.Perm (ownItems t ++ b.own)
  held : (a.heldNodes ++ enteredNodes t).Perm (deliveredNodes t ++ b.heldNodes)
  onDemand : b.sink.onDemand = ((enteredNodes t).map (·.name)).reverse ++ a.sink.onDemand
  nodup : ((enteredNodes t).map (·.name)).Nodup
  fresh : ∀ n ∈ enteredNodes t, n.name ∉ a.sink.onDemand
  wanted : ∀ name, a.Wants name ↔ b.Wants name

namespace Turn

theorem items (h : Turn s w e s' w') : s'.items.toList = s.items.toList ++ e.items := by
  cases h <;> simp [Sink.act, Sink.node, Event.items]

theorem own (h : Turn s w e s' w') : w.own = e.own ++ w'.own := by
  cases h <;> rfl

theorem held (h : Turn s w e s' w') : w.heldNodes ++ e.entered = e.delivered ++ w'.heldNodes := by
  cases h <;> rfl

theorem onDemand (h : Turn s w e s' w') :
    s'.onDemand = (e.entered.map (·.name)).reverse ++ s.onDemand := by
  cases h <;> rfl

theorem nodup (h : Turn s w e s' w') : (e.entered.map (·.name)).Nodup := by
  cases h <;> simp [Event.entered]

theorem fresh (h : Turn s w e s' w') : ∀ n ∈ e.entered, n.name ∉ s.onDemand := by
  cases h with
  | enter node todo later hnew => simpa [Event.entered] using hnew
  | _ => simp [Event.entered]

theorem wanted (h : Turn s w e s' w') (name : String) :
    name ∈ s.onDemand ∨ name ∈ w.wanted ↔ name ∈ s'.onDemand ∨ name ∈ w'.wanted := by
  have hhead : ∀ (node : Node) (todo later : List Action),
      Worker.wanted ⟨none, .demand node :: todo, later⟩ =
        node.name :: Worker.wanted ⟨none, todo, later⟩ := fun _ _ _ => rfl
  cases h with
  | send | deliver => exact Iff.rfl
  | enter node todo later =>
      have hheld : Worker.wanted ⟨some node, todo, later⟩ = Worker.wanted ⟨none, todo, later⟩ := rfl
      rw [hhead, hheld, List.mem_cons, List.mem_cons]
      tauto
  | pass node todo later hknown =>
      rw [hhead, List.mem_cons]
      constructor
      · rintro (h | rfl | h)
        · exact .inl h
        · exact .inl hknown
        · exact .inr h
      · tauto

end Turn

/-- What holds of one worker holds of all of them, when the others stay as they are. -/
theorem flatMap_exchanged {α : Type} {f : Worker → List α} {gained lost : List α}
    (h : f w ++ gained = lost ++ f w') (before after : List Worker) :
    ((before ++ w :: after).flatMap f ++ gained).Perm (lost ++ (before ++ w' :: after).flatMap f) := by
  calc
    (before ++ w :: after).flatMap f ++ gained =
        before.flatMap f ++ (f w ++ (after.flatMap f ++ gained)) := by simp
    List.Perm _ (before.flatMap f ++ (f w ++ (gained ++ after.flatMap f))) :=
      ((List.perm_append_comm.append_left _).append_left _)
    _ = before.flatMap f ++ (lost ++ (f w' ++ after.flatMap f)) := by
      rw [← List.append_assoc (f w), h, List.append_assoc]
    List.Perm _ (lost ++ (before.flatMap f ++ (f w' ++ after.flatMap f))) :=
      List.perm_append_comm_assoc _ _ _
    _ = lost ++ (before ++ w' :: after).flatMap f := by simp

namespace Accounts

theorem refl (a : State) : Accounts a [] a :=
  ⟨by simp [sentItems], by simp [ownItems], by simp [enteredNodes, deliveredNodes],
    by simp [enteredNodes], by simp [enteredNodes], by simp [enteredNodes], fun _ => Iff.rfl⟩

theorem trans (h : Accounts a t b) (h' : Accounts b u c) : Accounts a (t ++ u) c where
  items := by
    rw [h'.items, h.items, List.append_assoc, sentItems, sentItems, sentItems,
      List.flatMap_append]
  own := by
    have hrest := h'.own.append_left (ownItems t)
    rw [← List.append_assoc] at hrest
    simpa [ownItems] using h.own.trans hrest
  held := by
    calc
      a.heldNodes ++ enteredNodes (t ++ u) = a.heldNodes ++ enteredNodes t ++ enteredNodes u := by
        simp [enteredNodes]
      List.Perm _ (deliveredNodes t ++ b.heldNodes ++ enteredNodes u) := h.held.append_right _
      List.Perm _ (deliveredNodes t ++ (deliveredNodes u ++ c.heldNodes)) := by
        rw [List.append_assoc]
        exact h'.held.append_left _
      _ = deliveredNodes (t ++ u) ++ c.heldNodes := by simp [deliveredNodes]
  onDemand := by
    rw [h'.onDemand, h.onDemand]
    simp [enteredNodes]
  nodup := by
    have happend : enteredNodes (t ++ u) = enteredNodes t ++ enteredNodes u :=
      List.flatMap_append
    rw [happend, List.map_append]
    refine List.nodup_append.mpr ⟨h.nodup, h'.nodup, ?_⟩
    rintro name hname _ hlater rfl
    obtain ⟨n, hn, rfl⟩ := List.mem_map.mp hlater
    apply h'.fresh n hn
    rw [h.onDemand]
    exact List.mem_append_left _ (List.mem_reverse.mpr hname)
  fresh := by
    intro n hn
    have happend : enteredNodes (t ++ u) = enteredNodes t ++ enteredNodes u :=
      List.flatMap_append
    rw [happend] at hn
    rcases List.mem_append.mp hn with hn | hn
    · exact h.fresh n hn
    · have hlater := h'.fresh n hn
      rw [h.onDemand] at hlater
      exact fun hmem => hlater (List.mem_append_right _ hmem)
  wanted name := (h.wanted name).trans (h'.wanted name)

end Accounts

theorem Turn.accounts (h : Turn s w e s' w') (before after : List Worker) :
    Accounts ⟨s, before ++ w :: after⟩ [e] ⟨s', before ++ w' :: after⟩ := by
  have hentered : enteredNodes [e] = e.entered := List.flatMap_singleton ..
  have hdelivered : deliveredNodes [e] = e.delivered := List.flatMap_singleton ..
  have hown : ownItems [e] = e.own := List.flatMap_singleton ..
  refine ⟨?_, ?_, ?_, ?_, ?_, ?_, ?_⟩
  · simpa [sentItems] using h.items
  · have hexchanged := flatMap_exchanged ((List.append_nil w.own).trans h.own) before after
    rwa [List.append_nil, ← hown] at hexchanged
  · rw [hentered, hdelivered]
    exact flatMap_exchanged h.held before after
  · rw [hentered]
    exact h.onDemand
  · exact hentered ▸ h.nodup
  · exact hentered ▸ h.fresh
  · intro name
    have hname := h.wanted name
    simp only [State.Wants, List.mem_append, List.mem_cons, or_and_right, exists_or, exists_eq_left]
    grind

/-- At the barrier every worker has as much left as before. -/
theorem Worker.Waits.goOn_eq (h : w.Waits) :
    w.goOn.own = w.own ∧ w.goOn.wanted = w.wanted ∧ w.goOn.heldNodes = w.heldNodes := by
  obtain ⟨held, todo, later⟩ := w
  obtain ⟨rfl, rfl⟩ : held = none ∧ todo = [] := h
  simp [Worker.goOn, Worker.own, Worker.wanted, Worker.heldNodes]

theorem accounts_barrier (s : Sink) {workers : List Worker} (h : ∀ w ∈ workers, w.Waits) :
    Accounts ⟨s, workers⟩ [.barrier] ⟨s, workers.map Worker.goOn⟩ := by
  have hown : (workers.map Worker.goOn).flatMap Worker.own = workers.flatMap Worker.own := by
    rw [List.flatMap_map]
    exact List.flatMap_congr fun w hw => (h w hw).goOn_eq.1
  have hheld : (workers.map Worker.goOn).flatMap Worker.heldNodes =
      workers.flatMap Worker.heldNodes := by
    rw [List.flatMap_map]
    exact List.flatMap_congr fun w hw => (h w hw).goOn_eq.2.2
  have hwanted : ∀ name,
      (∃ w ∈ workers.map Worker.goOn, name ∈ w.wanted) ↔ ∃ w ∈ workers, name ∈ w.wanted := by
    intro name
    simp only [List.mem_map, exists_exists_and_eq_and]
    exact exists_congr fun w => and_congr_right fun hw => by rw [(h w hw).goOn_eq.2.1]
  refine ⟨?_, .of_eq hown.symm, ?_, ?_, ?_, ?_, fun name => or_congr_right (hwanted name).symm⟩
  · simp [sentItems, Event.items]
  · exact .of_eq ((List.append_nil _).trans hheld.symm)
  · simp [enteredNodes, Event.entered]
  · simp [enteredNodes, Event.entered]
  · simp [enteredNodes, Event.entered]

theorem Step.accounts (h : Step a e b) : Accounts a [e] b := by
  cases h with
  | turn before after h => exact h.accounts before after
  | barrier s h => exact accounts_barrier s h

theorem Runs.accounts (h : Runs a t b) : Accounts a t b := by
  induction h with
  | nil a => exact .refl a
  | cons hstep _ ih => exact hstep.accounts.trans ih

/-! ## One after the other -/

theorem runs_alone (s : Sink) (todo later : List Action) (before after : List Worker) :
    ∃ t, Runs ⟨s, before ++ ⟨none, todo, later⟩ :: after⟩ t
      ⟨s.perform todo, before ++ ⟨none, [], later⟩ :: after⟩ := by
  induction todo generalizing s with
  | nil => exact ⟨[], .nil _⟩
  | cons action todo ih =>
      obtain ⟨t, hmore⟩ := ih (s.act action)
      cases action with
      | send item => exact ⟨_, .cons (.turn before after (.send s item todo later)) hmore⟩
      | demand node =>
          by_cases h : node.name ∈ s.onDemand
          · have hact : s.act (.demand node) = s := Sink.demand_of_mem h
            rw [hact] at hmore
            rw [Sink.perform, List.foldl_cons, hact, ← Sink.perform]
            exact ⟨_, .cons (.turn before after (.pass s node todo later h)) hmore⟩
          · have hact : s.act (.demand node) =
                { s with onDemand := node.name :: s.onDemand }.node node :=
              Sink.demand_of_notMem h
            rw [hact] at hmore
            rw [Sink.perform, List.foldl_cons, hact, ← Sink.perform]
            exact ⟨_, .cons (.turn before after (.enter s node todo later h))
              (.cons (.turn before after (.deliver _ node todo later)) hmore)⟩

theorem runs_inTurn (s : Sink) (ended workers : List Worker) (h : ∀ w ∈ workers, w.held = none) :
    ∃ t, Runs ⟨s, ended ++ workers⟩ t
      ⟨(workers.map (·.todo)).foldl Sink.perform s, ended ++ workers.map Worker.stop⟩ := by
  induction workers generalizing s ended with
  | nil => exact ⟨[], .nil _⟩
  | cons w workers ih =>
      obtain ⟨held, todo, later⟩ := w
      obtain rfl : held = none := h _ List.mem_cons_self
      obtain ⟨t, hfirst⟩ := runs_alone s todo later ended workers
      obtain ⟨u, hmore⟩ := ih (s.perform todo) (ended ++ [⟨none, [], later⟩])
        fun w hw => h w (List.mem_cons_of_mem _ hw)
      simp only [List.append_assoc, List.singleton_append] at hmore
      exact ⟨t ++ u, hfirst.append hmore⟩

/-- It does not matter in which order the workers are listed. -/
theorem Step.perm (h : Step a e b) {workers : List Worker} (hp : a.workers.Perm workers) :
    ∃ next, Step ⟨a.sink, workers⟩ e ⟨b.sink, next⟩ ∧ b.workers.Perm next := by
  cases h with
  | @turn s s' w w' e before after h =>
      have hmem : w ∈ workers := hp.mem_iff.mp (by simp)
      obtain ⟨before', after', rfl⟩ := List.append_of_mem hmem
      have hothers : (before ++ after).Perm (before' ++ after') :=
        (List.perm_cons w).mp (List.perm_middle.symm.trans (hp.trans List.perm_middle))
      exact ⟨_, .turn before' after' h,
        List.perm_middle.trans ((hothers.cons w').trans List.perm_middle.symm)⟩
  | barrier s h =>
      exact ⟨_, .barrier s fun w hw => h w (hp.mem_iff.mpr hw), hp.map _⟩

theorem Runs.perm (h : Runs a t b) {workers : List Worker} (hp : a.workers.Perm workers) :
    ∃ next, Runs ⟨a.sink, workers⟩ t ⟨b.sink, next⟩ ∧ b.workers.Perm next := by
  induction h generalizing workers with
  | nil a => exact ⟨workers, .nil _, hp⟩
  | cons hstep _ ih =>
      obtain ⟨middle, hfirst, hmiddle⟩ := hstep.perm hp
      obtain ⟨next, hmore, hnext⟩ := ih hmiddle
      exact ⟨next, .cons hfirst hmore, hnext⟩

/-- The scripts up to the barrier in one order, then those behind it in another. -/
theorem runs_orders (s : Sink) {workers order : List Worker} (hheld : ∀ w ∈ workers, w.held = none)
    (horder : order.Perm workers) :
    ∃ t ended, Runs ⟨s, workers⟩ t ⟨(order.map (·.later)).foldl Sink.perform
        ((workers.map (·.todo)).foldl Sink.perform s), ended⟩ ∧ ∀ w ∈ ended, w.Done := by
  let mid := (workers.map (·.todo)).foldl Sink.perform s
  let next := fun w : Worker => w.stop.goOn
  obtain ⟨t, hfirst⟩ : ∃ t, Runs ⟨s, workers⟩ t ⟨mid, workers.map Worker.stop⟩ := by
    simpa using runs_inTurn s [] workers hheld
  have hbarrier : Step ⟨mid, workers.map Worker.stop⟩ .barrier ⟨mid, workers.map next⟩ := by
    have hwaits : ∀ w ∈ workers.map Worker.stop, w.Waits := by simp [Worker.stop, Worker.Waits]
    simpa [Function.comp_def, next] using Step.barrier mid hwaits
  obtain ⟨u, hsecond⟩ : ∃ u, Runs ⟨mid, order.map next⟩ u
      ⟨(order.map (·.later)).foldl Sink.perform mid, (order.map next).map Worker.stop⟩ := by
    have hinTurn := runs_inTurn mid [] (order.map next) (by simp [next, Worker.goOn])
    rwa [List.map_map] at hinTurn
  -- the workers were listed anew for the second stage, and are listed as before again
  obtain ⟨ended, hsecond, hended⟩ := hsecond.perm (horder.map next)
  refine ⟨_, ended, hfirst.append (.cons hbarrier hsecond), fun w hw => ?_⟩
  obtain ⟨_, hmem, rfl⟩ := List.mem_map.mp (hended.mem_iff.mpr hw)
  obtain ⟨_, -, rfl⟩ := List.mem_map.mp hmem
  exact ⟨⟨rfl, rfl⟩, rfl⟩

/-! ## Walks and their scripts -/

/-- The walks over one module as scripts. -/
structure Walker where
  ctx : WalkContext
  walk : TypeWalk
  types : List Action
  members : List Action
  walkTypes_eq : ∀ s, ctx.walkTypes s = (walk, s.perform types)
  walkMembers_eq : ∀ s, (ctx.walkMembers walk s).2 = s.perform members

namespace Walker

def start (w : Walker) : Worker :=
  ⟨none, w.types, w.members⟩

def script (w : Walker) : List Action :=
  w.types ++ w.members

theorem exists_of_context (ctx : WalkContext) : ∃ w : Walker, w.ctx = ctx := by
  obtain ⟨walk, types, htypes⟩ := ctx.walkTypes_scripted
  obtain ⟨answer, members, hmembers⟩ := ctx.walkMembers_scripted walk
  exact ⟨⟨ctx, walk, types, members, htypes, fun s => congrArg Prod.snd (hmembers s)⟩, rfl⟩

theorem walk_eq (w : Walker) (s : Sink) : w.ctx.walk s = s.perform w.script := by
  rw [WalkContext.walk, w.walkTypes_eq, w.walkMembers_eq, script, Sink.perform_append]

end Walker

end Schedule

namespace WalkContext

variable (ctx : WalkContext)

/-- The names of the nodes on demand that the walks over a module need. -/
def neededNames : List String :=
  (ctx.walk .empty).onDemand

/-- What the walks send when all nodes on demand are there. -/
def ownItems : List Item :=
  (ctx.walk ⟨#[], ctx.neededNames⟩).items.toList

end WalkContext

namespace Schedule

namespace Walker

variable (w : Walker)

theorem mem_neededNames (name : String) :
    name ∈ w.ctx.neededNames ↔ name ∈ w.script.filterMap Action.demanded? := by
  rw [WalkContext.neededNames, walk_eq, Sink.mem_onDemand_perform]
  simp [Sink.empty]

theorem walk_known :
    w.ctx.walk ⟨#[], w.ctx.neededNames⟩ =
      ⟨(w.script.filterMap Action.item?).toArray, w.ctx.neededNames⟩ := by
  have hknown : w.script.filterMap Action.demanded? ⊆ w.ctx.neededNames :=
    fun name h => (w.mem_neededNames name).mpr h
  have hperform : Sink.perform ⟨#[], w.ctx.neededNames⟩ w.script = _ := Sink.perform_of_known hknown
  rw [walk_eq, hperform]
  simp

theorem ownItems_eq : w.ctx.ownItems = w.script.filterMap Action.item? := by
  rw [WalkContext.ownItems, walk_known]

end Walker

end Schedule

namespace WalkContext

variable (ctx : WalkContext)

/-- Which names a module's own nodes get is settled before its walk starts. -/
theorem ownNames_eq (s s' : Sink) : ctx.ownNames s = ctx.ownNames s' := by
  obtain ⟨walk, _, htypes⟩ := ctx.walkTypes_scripted
  obtain ⟨met, _, hmet⟩ := ctx.walkNested_scripted (ctx.view.typeCount + 1) .empty .empty
    (ctx.view.topLevel.map (·, none))
  have hnamespaces : ∀ s, (ctx.typesMet s).namespaces = met.2 :=
    fun s => congrArg (·.1.2) (hmet s)
  simp only [ownNames, htypes, hnamespaces]

/-- A module's own nodes are those of its types, its namespaces and its members. -/
theorem ownItems_names (s : Sink) :
    ((ctx.ownItems.filterMap Item.node?).map (·.name)).Perm (ctx.ownNames s) := by
  let known : Sink := ⟨#[], ctx.neededNames⟩
  obtain ⟨w, rfl⟩ := Schedule.Walker.exists_of_context ctx
  obtain ⟨types, demanded, hsends, hnames⟩ := w.ctx.walk_sends known
  have honDemand : (w.ctx.walk known).onDemand = known.onDemand := by rw [w.walk_known]
  have hdemanded : demanded = [] := by
    have hlength := congrArg List.length (honDemand.symm.trans hsends.onDemand)
    simpa using hlength
  have hperm := hsends.nodes.map (·.name)
  rw [hdemanded, List.append_nil, List.map_append, List.map_append, List.map_append, hnames,
    List.map_map] at hperm
  rw [w.ctx.ownNames_eq s known]
  exact hperm

end WalkContext

namespace Schedule

/-! ## All walks over a list of modules -/

/-- All walks over the modules are carried out, from one sink to another. -/
def Walks (contexts : List WalkContext) (s : Sink) (t : List Event) (s' : Sink) : Prop :=
  ∃ (walkers : List Walker) (ended : List Worker), walkers.map (·.ctx) = contexts ∧
    Runs ⟨s, walkers.map Walker.start⟩ t ⟨s', ended⟩ ∧ ∀ w ∈ ended, w.Done

def links (t : List Event) : List Link :=
  (sentItems t).filterMap Item.link?

def ownNodes (t : List Event) : List Node :=
  (ownItems t).filterMap Item.node?

def externalNames (t : List Event) : List String :=
  (deliveredNodes t).map (·.name)

/-- What walks over modules come to does not depend on their schedule. -/
structure Outcome (contexts : List WalkContext) (s : Sink) (t : List Event) (s' : Sink) : Prop where
  items : s'.items.toList = s.items.toList ++ sentItems t
  sent : (sentItems t).Perm (ownItems t ++ (deliveredNodes t).map .node)
  own : (ownItems t).Perm (contexts.flatMap WalkContext.ownItems)
  names : ((ownNodes t).map (·.name)).Perm (contexts.flatMap (·.ownNames s))
  externals : ∀ name, name ∈ externalNames t ↔
    name ∉ s.onDemand ∧ ∃ ctx ∈ contexts, name ∈ ctx.neededNames
  once : (externalNames t).Nodup

theorem sentItems_perm (t : List Event) :
    (sentItems t).Perm (ownItems t ++ (deliveredNodes t).map .node) := by
  induction t with
  | nil => exact .nil
  | cons e t ih =>
      cases e with
      | send item => exact ih.cons item
      | deliver node => exact (ih.cons _).trans List.perm_middle.symm
      | enter | pass | barrier => exact ih

theorem flatMap_nil_of_done {α : Type} {f : Worker → List α} (hf : f ⟨none, [], []⟩ = [])
    {ended : List Worker} (h : ∀ w ∈ ended, w.Done) : ended.flatMap f = [] := by
  rw [List.flatMap_eq_nil_iff]
  intro w hw
  obtain ⟨held, todo, later⟩ := w
  obtain ⟨⟨rfl, rfl⟩, rfl⟩ : (held = none ∧ todo = []) ∧ later = [] := h _ hw
  exact hf

theorem Walks.outcome {contexts : List WalkContext} (h : Walks contexts s t s') :
    Outcome contexts s t s' := by
  obtain ⟨walkers, ended, rfl, hruns, hended⟩ := h
  -- nothing is left or held at the end, so that the accounts speak of the events alone
  have haccounts := hruns.accounts
  have hown : (ownItems t).Perm ((walkers.map (·.ctx)).flatMap WalkContext.ownItems) := by
    have hleft : State.own ⟨s', ended⟩ = [] := flatMap_nil_of_done rfl hended
    have hstart : State.own ⟨s, walkers.map Walker.start⟩ =
        (walkers.map (·.ctx)).flatMap WalkContext.ownItems := by
      simp only [State.own, List.flatMap_map, Walker.ownItems_eq]
      rfl
    have hperm := haccounts.own
    rw [hleft, hstart, List.append_nil] at hperm
    exact hperm.symm
  have hentered : (enteredNodes t).Perm (deliveredNodes t) := by
    have hleft : State.heldNodes ⟨s', ended⟩ = [] := flatMap_nil_of_done rfl hended
    have hstart : State.heldNodes ⟨s, walkers.map Walker.start⟩ = [] := by
      simp [State.heldNodes, Walker.start, Worker.heldNodes]
    have hperm := haccounts.held
    rwa [hleft, hstart, List.append_nil, List.nil_append] at hperm
  have hexternal : ((enteredNodes t).map (·.name)).Perm (externalNames t) := hentered.map _
  refine ⟨haccounts.items, sentItems_perm t, hown, ?_, ?_, hexternal.nodup_iff.mp haccounts.nodup⟩
  · refine ((hown.filterMap Item.node?).map _).trans ?_
    simp only [List.filterMap_flatMap, List.map_flatMap]
    exact List.Perm.flatMap_left _ fun ctx _ => ctx.ownItems_names s
  · intro name
    have hneeded : (∃ w ∈ walkers.map Walker.start, name ∈ w.wanted) ↔
        ∃ ctx ∈ walkers.map (·.ctx), name ∈ ctx.neededNames := by
      simp only [List.mem_map, exists_exists_and_eq_and, Walker.mem_neededNames]
      rfl
    have hleft : ¬ ∃ w ∈ ended, name ∈ w.wanted := by
      have hnil : ended.flatMap Worker.wanted = [] := flatMap_nil_of_done rfl hended
      rw [← List.mem_flatMap, hnil]
      exact List.not_mem_nil
    have hwanted : (name ∈ s.onDemand ∨ _) ↔ (name ∈ s'.onDemand ∨ _) := haccounts.wanted name
    have honDemand : s'.onDemand = _ ++ s.onDemand := haccounts.onDemand
    rw [hneeded, or_iff_left hleft, honDemand, List.mem_append, List.mem_reverse,
      hexternal.mem_iff] at hwanted
    have hfresh : name ∈ externalNames t → name ∉ s.onDemand := by
      intro hname
      obtain ⟨n, hn, rfl⟩ := List.mem_map.mp hname
      exact haccounts.fresh n (hentered.mem_iff.mpr hn)
    constructor
    · exact fun hname =>
        ⟨hfresh hname, (hwanted.mpr (.inl hname)).resolve_left (hfresh hname)⟩
    · exact fun ⟨hnew, hctx⟩ => (hwanted.mp (.inr hctx)).resolve_right hnew

/-- Two schedules come to the same. -/
structure Agree (t u : List Event) : Prop where
  links : (links t).Perm (links u)
  nodes : (ownNodes t).Perm (ownNodes u)
  externals : ∀ name, name ∈ externalNames t ↔ name ∈ externalNames u

theorem links_perm (t : List Event) : (links t).Perm ((ownItems t).filterMap Item.link?) := by
  have hperm := (sentItems_perm t).filterMap Item.link?
  have hnone : ((deliveredNodes t).map Item.node).filterMap Item.link? = [] := by
    simp [List.filterMap_map, Function.comp_def, Item.link?]
  rwa [List.filterMap_append, hnone, List.append_nil] at hperm

theorem Outcome.agree {contexts : List WalkContext} {s₁ s₂ : Sink} (h : Outcome contexts s t s₁)
    (h' : Outcome contexts s u s₂) : Agree t u where
  links :=
    (links_perm t).trans (((h.own.trans h'.own.symm).filterMap _).trans (links_perm u).symm)
  nodes := (h.own.trans h'.own.symm).filterMap _
  externals name := (h.externals name).trans (h'.externals name).symm

/-! ## Modules in turn -/

def walkTypesInTurn : List WalkContext → Sink → List (WalkContext × TypeWalk) × Sink
  | [], s => ([], s)
  | ctx :: more, s =>
    let (walk, s) := ctx.walkTypes s
    let (walks, s) := walkTypesInTurn more s
    ((ctx, walk) :: walks, s)

def walkMembersInTurn (walks : List (WalkContext × TypeWalk)) (s : Sink) : Sink :=
  walks.foldl (fun s module => (module.1.walkMembers module.2 s).2) s

section InTurn

variable {walker : WalkContext → Walker} (h : ∀ ctx, (walker ctx).ctx = ctx)

include h

theorem walkTypesInTurn_eq (contexts : List WalkContext) (s : Sink) :
    walkTypesInTurn contexts s = (contexts.map fun ctx => (ctx, (walker ctx).walk),
      (contexts.map fun ctx => (walker ctx).types).foldl Sink.perform s) := by
  induction contexts generalizing s with
  | nil => rfl
  | cons ctx more ih =>
      have htypes := (walker ctx).walkTypes_eq s
      rw [h] at htypes
      simp only [walkTypesInTurn, htypes, ih, List.map_cons, List.foldl_cons]

theorem walkMembersInTurn_eq (contexts : List WalkContext) (s : Sink) :
    walkMembersInTurn (contexts.map fun ctx => (ctx, (walker ctx).walk)) s =
      (contexts.map fun ctx => (walker ctx).members).foldl Sink.perform s := by
  induction contexts generalizing s with
  | nil => rfl
  | cons ctx more ih =>
      have hmembers := (walker ctx).walkMembers_eq s
      rw [h] at hmembers
      rw [List.map_cons, walkMembersInTurn, List.foldl_cons, hmembers, ← walkMembersInTurn, ih]
      rfl

end InTurn

/-- Modules one after the other, the types in one order and the members in another. -/
theorem walks_inTurn {contexts types : List WalkContext} (htypes : types.Perm contexts) (s : Sink)
    {members : List (WalkContext × TypeWalk)} (hmembers : members.Perm (walkTypesInTurn types s).1) :
    ∃ t, Walks contexts s t (walkMembersInTurn members (walkTypesInTurn types s).2) := by
  choose walker hwalker using Walker.exists_of_context
  rw [walkTypesInTurn_eq hwalker] at hmembers ⊢
  obtain ⟨order, rfl, horder⟩ : ∃ order : List WalkContext,
      members = (order.map fun ctx => (ctx, (walker ctx).walk)) ∧ order.Perm types := by
    refine ⟨members.map (·.1), ?_, by simpa [Function.comp_def] using hmembers.map (·.1)⟩
    rw [List.map_map]
    refine (List.map_id members).symm.trans (List.map_congr_left fun p hp => ?_)
    obtain ⟨ctx, -, rfl⟩ := List.mem_map.mp (hmembers.mem_iff.mp hp)
    rfl
  rw [walkMembersInTurn_eq hwalker]
  let start := fun ctx => (walker ctx).start
  have hheld : ∀ w ∈ types.map start, w.held = none := by simp [start, Walker.start]
  obtain ⟨t, ended, hruns, hended⟩ := runs_orders s hheld (horder.map start)
  obtain ⟨ended', hruns, hended'⟩ := hruns.perm (htypes.map start)
  simp only [List.map_map] at hruns
  refine ⟨t, contexts.map walker, ended', ?_, ?_, fun w hw => hended w (hended'.mem_iff.mpr hw)⟩
  · simp [Function.comp_def, hwalker]
  · rw [List.map_map]
    exact hruns

/-- Walks over modules come to the same in any order and under any schedule. -/
structure OrderFree (contexts : List WalkContext) (s : Sink) : Prop where
  /-- Modules may be walked one after the other, the types in any order and the members in another. -/
  inTurn : ∀ types members, types.Perm contexts → members.Perm (walkTypesInTurn types s).1 →
    ∃ t, Walks contexts s t (walkMembersInTurn members (walkTypesInTurn types s).2)
  outcome : ∀ t s', Walks contexts s t s' → Outcome contexts s t s'
  agree : ∀ t u s₁ s₂, Walks contexts s t s₁ → Walks contexts s u s₂ → Agree t u

/-- Workers that share one sink send the same links and nodes however their steps are mixed. -/
theorem walks_orderFree (contexts : List WalkContext) (s : Sink) : OrderFree contexts s where
  inTurn _ _ htypes hmembers := walks_inTurn htypes s hmembers
  outcome _ _ h := h.outcome
  agree _ _ _ _ h h' := h.outcome.agree h'.outcome

end Schedule

end CodeGraph
