import CodeGraph.Graph.Channel

namespace CodeGraph.Channel

/-!
# Delivery through a channel

Any number of senders and one receiver take turns at a channel. A call of a sender is one step. A
drain and a collect take the items one by one, so that senders may come in between; a drain ends when
nothing waits, and a collect when no sender is left either.
-/

/-- What the receiver is at. A drain or a collect holds what it took so far. -/
inductive Task where
  | idle
  | draining (taken : List Item)
  | collecting (taken : List Item)
  | gone

def Task.taken : Task → List Item
  | idle => []
  | draining taken => taken
  | collecting taken => taken
  | gone => []

def Task.isGone : Task → Bool
  | gone => true
  | _ => false

def Task.isIdle : Task → Bool
  | idle => true
  | _ => false

structure Session where
  channel : Channel
  task : Task

def Session.start : Session :=
  ⟨.new, .idle⟩

/-- A step as the party that takes it sees it. -/
inductive Event where
  | clone
  | send (item : Item) (accepted : Bool)
  | dropSender
  /-- A sender reads the counters. -/
  | read (nodes links : Nat)
  | startDrain
  | startCollect
  | take (item : Item)
  | drained (items : List Item)
  /-- A collect hands out what it took, and the receiver goes with it. -/
  | collected (items : List Item)
  | dropReceiver
  deriving DecidableEq

namespace Event

def accepted : Event → List Item
  | send item true => [item]
  | _ => []

def handedOut : Event → List Item
  | drained items => items
  | collected items => items
  | _ => []

end Event

def acceptedItems (t : List Event) : List Item :=
  t.flatMap Event.accepted

def handedOutItems (t : List Event) : List Item :=
  t.flatMap Event.handedOut

def nodeCount (items : List Item) : Nat :=
  items.countP (·.node?.isSome)

def linkCount (items : List Item) : Nat :=
  items.countP (·.link?.isSome)

inductive Step : Session → Event → Session → Prop
  | clone {c : Channel} {task : Task} (h : 0 < c.senders) : Step ⟨c, task⟩ .clone ⟨c.clone, task⟩
  | send {c : Channel} {task : Task} (item : Item) (h : 0 < c.senders) :
      Step ⟨c, task⟩ (.send item (c.send item).1) ⟨(c.send item).2, task⟩
  | dropSender {c : Channel} {task : Task} (h : 0 < c.senders) :
      Step ⟨c, task⟩ .dropSender ⟨c.dropSender, task⟩
  | read {c : Channel} {task : Task} (h : 0 < c.senders) :
      Step ⟨c, task⟩ (.read c.nodes c.links) ⟨c, task⟩
  | startDrain {c : Channel} : Step ⟨c, .idle⟩ .startDrain ⟨c, .draining []⟩
  | startCollect {c : Channel} : Step ⟨c, .idle⟩ .startCollect ⟨c, .collecting []⟩
  | takeToDrain {c c' : Channel} {item : Item} {taken : List Item}
      (h : c.receive? = some (item, c')) :
      Step ⟨c, .draining taken⟩ (.take item) ⟨c', .draining (taken ++ [item])⟩
  | takeToCollect {c c' : Channel} {item : Item} {taken : List Item}
      (h : c.receive? = some (item, c')) :
      Step ⟨c, .collecting taken⟩ (.take item) ⟨c', .collecting (taken ++ [item])⟩
  | drained {c : Channel} {taken : List Item} (h : c.receive? = none) :
      Step ⟨c, .draining taken⟩ (.drained taken) ⟨c, .idle⟩
  | collected {c : Channel} {taken : List Item} (h : c.receive? = none)
      (hc : c.isComplete = true) :
      Step ⟨c, .collecting taken⟩ (.collected taken) ⟨c.dropReceiver, .gone⟩
  | dropReceiver {c : Channel} : Step ⟨c, .idle⟩ .dropReceiver ⟨c.dropReceiver, .gone⟩

inductive Runs : Session → List Event → Session → Prop
  | nil (s : Session) : Runs s [] s
  | cons {s s' s'' : Session} {e : Event} {t : List Event} (h : Step s e s') (more : Runs s' t s'') :
      Runs s (e :: t) s''

variable {c c' : Channel} {s s' s'' : Session} {e : Event} {t u : List Event}

namespace Runs

theorem append (h : Runs s t s') (h' : Runs s' u s'') : Runs s (t ++ u) s'' := by
  induction h with
  | nil => exact h'
  | cons hstep _ ih => exact .cons hstep (ih h')

theorem split (h : Runs s (t ++ e :: u) s'') :
    ∃ a b, Runs s t a ∧ Step a e b ∧ Runs b u s'' := by
  induction t generalizing s with
  | nil =>
      cases h with
      | cons hstep more => exact ⟨_, _, .nil s, hstep, more⟩
  | cons first t ih =>
      cases h with
      | cons hstep more =>
          obtain ⟨a, b, hbefore, he, hafter⟩ := ih more
          exact ⟨a, b, .cons hstep hbefore, he, hafter⟩

end Runs

/-! ## Calls of the channel -/

theorem receive?_eq_some {item : Item} (h : c.receive? = some (item, c')) :
    c.hasReceiver = true ∧ c.waiting = item :: c'.waiting ∧ c' = { c with waiting := c'.waiting } := by
  unfold receive? at h
  split at h
  · next more hreceiver hwaiting =>
      cases h
      exact ⟨hreceiver, hwaiting, rfl⟩
  · cases h

theorem waiting_of_receive?_eq_none (h : c.receive? = none) (hreceiver : c.hasReceiver = true) :
    c.waiting = [] := by
  unfold receive? at h
  split at h
  · cases h
  · next hnone =>
      cases hwaiting : c.waiting with
      | nil => rfl
      | cons item more => exact absurd hwaiting (hnone item more hreceiver)

/-- An accepted item waits behind all others and is counted once; a refused one leaves no trace. -/
theorem send_cases (c : Channel) (item : Item) :
    (c.hasReceiver = true ∧ (c.send item).1 = true ∧
      (c.send item).2 = { c with
        waiting := c.waiting ++ [item]
        nodes := c.nodes + nodeCount [item]
        links := c.links + linkCount [item] }) ∨
    (c.hasReceiver = false ∧ c.send item = (false, c)) := by
  cases hreceiver : c.hasReceiver with
  | false => exact .inr ⟨rfl, by simp [send, hreceiver]⟩
  | true =>
      refine .inl ⟨rfl, by simp [send, hreceiver], ?_⟩
      cases item <;> simp [send, hreceiver, nodeCount, linkCount, Item.node?, Item.link?]

/-- The events of a drain that no sender interrupts. -/
def drainEvents (c : Channel) : List Event :=
  .startDrain :: c.waiting.map .take ++ [.drained c.waiting]

/-- The events of a collect that all senders leave room for. -/
def collectEvents (c : Channel) : List Event :=
  List.replicate c.senders .dropSender ++ .startCollect :: c.waiting.map .take ++
    [.collected c.waiting]

theorem runs_take (c : Channel) (task : List Item → Task)
    (step : ∀ {c c' : Channel} {item taken}, c.receive? = some (item, c') →
      Step ⟨c, task taken⟩ (.take item) ⟨c', task (taken ++ [item])⟩)
    (hreceiver : c.hasReceiver = true) (taken : List Item) :
    Runs ⟨c, task taken⟩ (c.waiting.map .take)
      ⟨{ c with waiting := [] }, task (taken ++ c.waiting)⟩ := by
  obtain ⟨senders, hasReceiver, waiting, nodes, links⟩ := c
  obtain rfl : hasReceiver = true := hreceiver
  induction waiting generalizing taken with
  | nil => simpa using Runs.nil _
  | cons item more ih =>
      have hstep : Step ⟨⟨senders, true, item :: more, nodes, links⟩, task taken⟩ (.take item)
          ⟨⟨senders, true, more, nodes, links⟩, task (taken ++ [item])⟩ := step rfl
      exact .cons hstep (by simpa using ih (taken ++ [item]))

theorem drain_eq (hreceiver : c.hasReceiver = true) :
    c.drain = (some c.waiting, { c with waiting := [] }) :=
  if_pos hreceiver

/-- A drain hands out all that waits. -/
theorem runs_drain (hreceiver : c.hasReceiver = true) :
    c.drain.1 = some c.waiting ∧ Runs ⟨c, .idle⟩ c.drainEvents ⟨c.drain.2, .idle⟩ := by
  have htake := runs_take c .draining (fun h => .takeToDrain h) hreceiver []
  have hend : Step ⟨{ c with waiting := [] }, .draining c.waiting⟩ (.drained c.waiting)
      ⟨{ c with waiting := [] }, .idle⟩ := .drained (by simp [receive?])
  rw [drain_eq hreceiver]
  exact ⟨rfl, .cons .startDrain (htake.append (.cons hend (.nil _)))⟩

theorem runs_dropSenders (c : Channel) (task : Task) :
    Runs ⟨c, task⟩ (List.replicate c.senders .dropSender) ⟨{ c with senders := 0 }, task⟩ := by
  obtain ⟨senders, hasReceiver, waiting, nodes, links⟩ := c
  induction senders with
  | zero => exact .nil _
  | succ senders ih => exact .cons (.dropSender (Nat.succ_pos senders)) ih

/-- A collect ends once the senders are gone, and hands out all that waits. -/
theorem runs_collect (hreceiver : c.hasReceiver = true) :
    c.collect.1 = some c.waiting ∧ Runs ⟨c, .idle⟩ c.collectEvents ⟨c.collect.2, .gone⟩ := by
  have htake : Runs ⟨{ c with senders := 0 }, .collecting []⟩ (c.waiting.map .take)
      ⟨{ c with senders := 0, waiting := [] }, .collecting c.waiting⟩ :=
    runs_take { c with senders := 0 } .collecting (fun h => .takeToCollect h) hreceiver []
  have hend : Step ⟨{ c with senders := 0, waiting := [] }, .collecting c.waiting⟩
      (.collected c.waiting) ⟨{ c with senders := 0, waiting := [] }.dropReceiver, .gone⟩ :=
    .collected (by simp [receive?]) rfl
  rw [collect, drain_eq hreceiver, collectEvents, List.append_assoc]
  exact ⟨rfl, (runs_dropSenders c .idle).append
    (.cons .startCollect (htake.append (.cons hend (.nil _))))⟩

/-! ## What one step does -/

/-- What was accepted and not yet handed out. -/
def Session.held (s : Session) : List Item :=
  s.task.taken ++ s.channel.waiting

def Session.Attended (s : Session) : Prop :=
  s.channel.hasReceiver = !s.task.isGone

/-- The receiver is gone behind the event. -/
def Event.ends : Event → Bool
  | collected _ => true
  | dropReceiver => true
  | _ => false

namespace Step

theorem attended (h : Step s e s') (hs : s.Attended) : s'.Attended := by
  cases h with
  | @send c task item =>
      rcases c.send_cases item with ⟨-, -, heq⟩ | ⟨-, heq⟩ <;> simpa [Session.Attended, heq] using hs
  | takeToDrain hr | takeToCollect hr =>
      obtain ⟨-, -, heq⟩ := receive?_eq_some hr
      rw [heq]
      exact hs
  | collected | dropReceiver => rfl
  | _ => exact hs

theorem isGone (h : Step s e s') : s'.task.isGone = (s.task.isGone || e.ends) := by
  cases h <;> simp [Task.isGone, Event.ends]

/-- What was held before and what is accepted is handed out or held behind the step. -/
theorem balance (h : Step s e s') (hs : s.Attended) (he : e ≠ .dropReceiver) :
    s.held ++ e.accepted = e.handedOut ++ s'.held := by
  cases h with
  | @send c task item =>
      rcases c.send_cases item with ⟨-, hsent, heq⟩ | ⟨-, heq⟩ <;>
        simp [Session.held, Event.accepted, Event.handedOut, *]
  | takeToDrain hr | takeToCollect hr =>
      obtain ⟨-, hwaiting, -⟩ := receive?_eq_some hr
      simp [Session.held, Event.accepted, Event.handedOut, Task.taken, hwaiting]
  | drained hr =>
      have hwaiting := waiting_of_receive?_eq_none hr hs
      simp [Session.held, Event.accepted, Event.handedOut, Task.taken, hwaiting]
  | collected hr =>
      have hwaiting := waiting_of_receive?_eq_none hr hs
      simp [Session.held, Event.accepted, Event.handedOut, Task.taken, hwaiting, Channel.dropReceiver]
  | dropReceiver => exact absurd rfl he
  | _ => simp [Session.held, Event.accepted, Event.handedOut, Task.taken, Channel.clone,
      Channel.dropSender]

/-- The counters grow by what is accepted. -/
theorem counters (h : Step s e s') :
    s'.channel.nodes = s.channel.nodes + nodeCount e.accepted ∧
      s'.channel.links = s.channel.links + linkCount e.accepted := by
  cases h with
  | @send c task item =>
      rcases c.send_cases item with ⟨-, hsent, heq⟩ | ⟨-, heq⟩
      · simp [Event.accepted, hsent, heq]
      · simp [Event.accepted, heq, nodeCount, linkCount]
  | takeToDrain hr | takeToCollect hr =>
      obtain ⟨-, -, heq⟩ := receive?_eq_some hr
      rw [heq]
      exact ⟨rfl, rfl⟩
  | _ => exact ⟨rfl, rfl⟩

theorem senders (h : Step s e s') :
    s'.channel.senders + [e].count .dropSender = s.channel.senders + [e].count .clone := by
  cases h with
  | @send c task item =>
      rcases c.send_cases item with ⟨-, -, heq⟩ | ⟨-, heq⟩ <;> simp [heq]
  | dropSender hs =>
      simp only [Channel.dropSender, List.count_singleton]
      simp
      omega
  | takeToDrain hr | takeToCollect hr =>
      obtain ⟨-, -, heq⟩ := receive?_eq_some hr
      rw [heq]
      simp
  | _ => simp [Channel.clone, Channel.dropReceiver]

/-- Without a receiver nothing is accepted and nothing handed out. -/
theorem of_gone (h : Step s e s') (hs : s.Attended) (hgone : s.task.isGone = true) :
    e.accepted = [] ∧ e.handedOut = [] := by
  cases h with
  | @send c task item =>
      rcases c.send_cases item with ⟨hreceiver, -, -⟩ | ⟨-, heq⟩
      · have hattended : c.hasReceiver = !task.isGone := hs
        simp_all
      · exact ⟨by rw [heq]; rfl, rfl⟩
  | drained | collected => cases hgone
  | _ => exact ⟨rfl, rfl⟩

end Step

/-! ## What runs do -/

namespace Runs

theorem attended (h : Runs s t s') (hs : s.Attended) : s'.Attended := by
  induction h with
  | nil => exact hs
  | cons hstep _ ih => exact ih (hstep.attended hs)

theorem isGone (h : Runs s t s') : s'.task.isGone = (s.task.isGone || t.any Event.ends) := by
  induction h with
  | nil => simp
  | cons hstep _ ih => rw [ih, hstep.isGone, List.any_cons, Bool.or_assoc]

theorem balance (h : Runs s t s') (hs : s.Attended) (ht : .dropReceiver ∉ t) :
    s.held ++ acceptedItems t = handedOutItems t ++ s'.held := by
  induction h with
  | nil => simp [acceptedItems, handedOutItems]
  | @cons s s' s'' e t hstep _ ih =>
      obtain ⟨he, ht⟩ := List.ne_and_not_mem_of_not_mem_cons ht
      calc
        s.held ++ acceptedItems (e :: t) = (s.held ++ e.accepted) ++ acceptedItems t := by
          simp [acceptedItems]
        _ = e.handedOut ++ (s'.held ++ acceptedItems t) := by
          rw [hstep.balance hs he.symm, List.append_assoc]
        _ = handedOutItems (e :: t) ++ s''.held := by
          rw [ih (hstep.attended hs) ht]
          simp [handedOutItems]

theorem counters (h : Runs s t s') :
    s'.channel.nodes = s.channel.nodes + nodeCount (acceptedItems t) ∧
      s'.channel.links = s.channel.links + linkCount (acceptedItems t) := by
  induction h with
  | nil => exact ⟨rfl, rfl⟩
  | @cons s s' s'' e t hstep _ ih =>
      rw [ih.1, ih.2, hstep.counters.1, hstep.counters.2]
      simp [acceptedItems, nodeCount, linkCount, Nat.add_assoc]

theorem senders (h : Runs s t s') :
    s'.channel.senders + t.count .dropSender = s.channel.senders + t.count .clone := by
  induction h with
  | nil => rfl
  | @cons s s' s'' e t hstep _ ih =>
      have hfirst := hstep.senders
      rw [← List.singleton_append, List.count_append, List.count_append]
      omega

theorem senders_eq_zero (h : Runs s t s') (hs : s.channel.senders = 0) :
    s'.channel.senders = 0 := by
  induction h with
  | nil => exact hs
  | cons hstep _ ih =>
      apply ih
      have hnext := hstep.senders
      cases hstep with
      | clone hpos | send _ hpos | dropSender hpos | read hpos => exact absurd hs (Nat.ne_of_gt hpos)
      | _ => simp_all

theorem senders_of_collected (h : Runs s t s') {items : List Item} (hmem : .collected items ∈ t) :
    s'.channel.senders = 0 := by
  obtain ⟨before, after, rfl⟩ := List.append_of_mem hmem
  obtain ⟨a, b, -, hstep, hafter⟩ := h.split
  apply hafter.senders_eq_zero
  cases hstep with
  | collected _ hc => simpa [isComplete, Channel.dropReceiver] using hc

theorem of_gone (h : Runs s t s') (hs : s.Attended) (hgone : s.task.isGone = true) :
    acceptedItems t = [] ∧ handedOutItems t = [] := by
  induction h with
  | nil => exact ⟨rfl, rfl⟩
  | cons hstep _ ih =>
      obtain ⟨haccepted, hhanded⟩ := hstep.of_gone hs hgone
      obtain ⟨hmore, hlater⟩ := ih (hstep.attended hs) (by rw [hstep.isGone, hgone, Bool.true_or])
      simp_all [acceptedItems, handedOutItems]

end Runs

/-- What every run of a channel comes to, told by its events. -/
structure Accounted (t : List Event) (s : Session) : Prop where
  /-- An item is refused exactly when the receiver was dropped before. -/
  answers : ∀ before item accepted after, t = before ++ .send item accepted :: after →
    (accepted = true ↔ .dropReceiver ∉ before)
  /-- What any sender reads off the counters are the numbers of accepted nodes and links. -/
  reads : ∀ before nodes links after, t = before ++ .read nodes links :: after →
    nodes = nodeCount (acceptedItems before) ∧ links = linkCount (acceptedItems before)
  counters : s.channel.nodes = nodeCount (acceptedItems t) ∧
    s.channel.links = linkCount (acceptedItems t)
  inOrder : .dropReceiver ∉ t →
    acceptedItems t = handedOutItems t ++ s.task.taken ++ s.channel.waiting
  delivered : handedOutItems t <+: acceptedItems t
  /-- A collect ends behind the last sender, and leaves nothing behind. -/
  completed : ∀ before items after, t = before ++ .collected items :: after →
    before.count .dropSender = before.count .clone + 1 ∧
      acceptedItems t = handedOutItems before ++ items
  /-- Whenever the receiver is free, a drain and a collect go through. -/
  drains : s.task.isIdle = true → s.channel.drain.1 = some s.channel.waiting ∧
    Runs s s.channel.drainEvents ⟨s.channel.drain.2, .idle⟩
  collects : s.task.isIdle = true → s.channel.collect.1 = some s.channel.waiting ∧
    Runs s s.channel.collectEvents ⟨s.channel.collect.2, .gone⟩

theorem attended_start : Session.start.Attended := rfl

/-- As long as there are senders, the receiver goes only when it is dropped. -/
theorem any_ends_iff (h : Runs .start t s) (hs : 0 < s.channel.senders) :
    t.any Event.ends = true ↔ .dropReceiver ∈ t := by
  rw [List.any_eq_true]
  constructor
  · rintro ⟨e, he, hends⟩
    cases e with
    | dropReceiver => exact he
    | collected items => exact absurd (h.senders_of_collected he) (Nat.ne_of_gt hs)
    | _ => cases hends
  · exact fun hmem => ⟨_, hmem, rfl⟩

/-- Behind the event with which the receiver goes nothing is accepted and nothing handed out. -/
theorem Runs.split_ends (h : Runs .start (t ++ e :: u) s) (he : e.ends = true) :
    ∃ a b, Runs .start t a ∧ Step a e b ∧ acceptedItems t = handedOutItems t ++ a.held ∧
      acceptedItems (t ++ e :: u) = acceptedItems t ∧
      handedOutItems (t ++ e :: u) = handedOutItems t ++ e.handedOut := by
  obtain ⟨a, b, hbefore, hstep, hafter⟩ := h.split
  have hattended := hbefore.attended attended_start
  have hpresent : .dropReceiver ∉ t := by
    intro hmem
    have hgone : a.task.isGone = true := by
      rw [hbefore.isGone, List.any_eq_true.mpr ⟨_, hmem, rfl⟩, Bool.or_true]
    cases hstep <;> cases he <;> cases hgone
  obtain ⟨haccepted, hhanded⟩ :=
    hafter.of_gone (hstep.attended hattended) (by rw [hstep.isGone, he, Bool.or_true])
  have hquiet : e.accepted = [] := by
    cases hstep with
    | collected | dropReceiver => rfl
    | _ => cases he
  refine ⟨a, b, hbefore, hstep, hbefore.balance attended_start hpresent, ?_, ?_⟩
  · simp_all [acceptedItems]
  · simp_all [handedOutItems]

/-- No item is lost, doubled or overtaken on the way, whichever senders and receiver take their steps when. -/
theorem run_accounted (h : Runs .start t s) : Accounted t s where
  answers := by
    rintro before item accepted after rfl
    obtain ⟨a, b, hbefore, hstep, -⟩ := h.split
    have hgone := hbefore.isGone
    have hattended := hbefore.attended attended_start
    cases hstep with
    | @send c task item hs =>
        have hsent : (c.send item).1 = c.hasReceiver := by
          rcases c.send_cases item with ⟨hreceiver, hsent, -⟩ | ⟨hreceiver, heq⟩
          · rw [hsent, hreceiver]
          · rw [heq, hreceiver]
        rw [hsent, ← any_ends_iff hbefore hs]
        simp_all [Session.Attended, Session.start, Task.isGone]
  reads := by
    rintro before nodes links after rfl
    obtain ⟨a, b, hbefore, hstep, -⟩ := h.split
    have hcounters := hbefore.counters
    cases hstep with
    | read => simpa [Session.start, Channel.new] using hcounters
  counters := by simpa [Session.start, Channel.new] using h.counters
  inOrder := by
    intro ht
    simpa [Session.start, Channel.new, Session.held, Task.taken] using h.balance attended_start ht
  delivered := by
    -- what is held when the receiver goes is never handed out, and nothing is accepted any more
    by_cases ht : .dropReceiver ∈ t
    · obtain ⟨before, after, rfl⟩ := List.append_of_mem ht
      obtain ⟨a, b, -, -, hbalance, haccepted, hhanded⟩ := h.split_ends rfl
      rw [haccepted, hhanded, hbalance]
      simp [Event.handedOut]
    · exact ⟨s.held, (h.balance attended_start ht).symm⟩
  completed := by
    rintro before items after rfl
    obtain ⟨a, b, hbefore, hstep, hbalance, haccepted, -⟩ := h.split_ends rfl
    have hattended := hbefore.attended attended_start
    have hsenders := hbefore.senders
    cases hstep with
    | collected hr hc =>
        have hwaiting := waiting_of_receive?_eq_none hr hattended
        refine ⟨?_, by simpa [Session.held, Task.taken, hwaiting] using haccepted.trans hbalance⟩
        simp only [isComplete, beq_iff_eq] at hc
        simpa [hc, Session.start, Channel.new, Nat.add_comm] using hsenders
  drains := by
    intro hidle
    obtain ⟨c, task⟩ := s
    cases task with
    | idle => exact runs_drain (h.attended attended_start)
    | _ => cases hidle
  collects := by
    intro hidle
    obtain ⟨c, task⟩ := s
    cases task with
    | idle => exact runs_collect (h.attended attended_start)
    | _ => cases hidle

/-- Items of the runs below. -/
def sampleNode (name : String) : Item :=
  .node (.plain name "" .module)

def sampleLink : Item :=
  .link ⟨"a", "b", .module, .reference⟩

/-- Senders come in between while items are taken, and the collect waits for the last of them. -/
def sharedEvents : List Event :=
  [.send (sampleNode "a") true, .clone, .startDrain, .take (sampleNode "a"), .send sampleLink true,
    .take sampleLink, .drained [sampleNode "a", sampleLink], .dropSender, .startCollect, .read 1 1,
    .send (sampleNode "b") true, .take (sampleNode "b"), .dropSender, .collected [sampleNode "b"]]

/-- The receiver is dropped while an item waits. -/
def droppedEvents : List Event :=
  [.send (sampleNode "a") true, .dropReceiver, .send (sampleNode "b") false, .read 1 0]

theorem run_accounted_samples :
    (Runs .start sharedEvents ⟨⟨0, false, [], 2, 1⟩, .gone⟩ ∧
      Accounted sharedEvents ⟨⟨0, false, [], 2, 1⟩, .gone⟩) ∧
    Runs .start droppedEvents ⟨⟨1, false, [], 1, 0⟩, .gone⟩ ∧
      Accounted droppedEvents ⟨⟨1, false, [], 1, 0⟩, .gone⟩ := by
  have hshared : Runs .start sharedEvents ⟨⟨0, false, [], 2, 1⟩, .gone⟩ :=
    .cons (.send _ Nat.one_pos) <| .cons (.clone Nat.one_pos) <| .cons .startDrain <|
    .cons (.takeToDrain rfl) <| .cons (.send _ Nat.two_pos) <| .cons (.takeToDrain rfl) <|
    .cons (.drained rfl) <| .cons (.dropSender Nat.two_pos) <| .cons .startCollect <|
    .cons (.read Nat.one_pos) <| .cons (.send _ Nat.one_pos) <| .cons (.takeToCollect rfl) <|
    .cons (.dropSender Nat.one_pos) <| .cons (.collected rfl rfl) <| .nil _
  have hdropped : Runs .start droppedEvents ⟨⟨1, false, [], 1, 0⟩, .gone⟩ :=
    .cons (.send _ Nat.one_pos) <| .cons .dropReceiver <| .cons (.send _ Nat.one_pos) <|
    .cons (.read Nat.one_pos) <| .nil _
  exact ⟨⟨hshared, run_accounted hshared⟩, hdropped, run_accounted hdropped⟩

end CodeGraph.Channel
