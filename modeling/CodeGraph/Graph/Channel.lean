import CodeGraph.Graph.Item

namespace CodeGraph

/-!
# The channel between the walks and their consumer

Any number of senders share one channel. Items wait in it in the order in which they were accepted;
it refuses items once its receiver is gone, and is complete once no sender is left.
-/

structure Channel where
  senders : Nat
  hasReceiver : Bool
  waiting : List Item
  /-- Accepted nodes and links. -/
  nodes : Nat
  links : Nat
  deriving Repr

namespace Channel

def new : Channel :=
  ⟨1, true, [], 0, 0⟩

def clone (c : Channel) : Channel :=
  { c with senders := c.senders + 1 }

def dropSender (c : Channel) : Channel :=
  { c with senders := c.senders - 1 }

/-- The receiver goes, and what waits is lost. -/
def dropReceiver (c : Channel) : Channel :=
  { c with hasReceiver := false, waiting := [] }

def send (c : Channel) (item : Item) : Bool × Channel :=
  if c.hasReceiver then
    (true, match item with
      | .node _ => { c with waiting := c.waiting ++ [item], nodes := c.nodes + 1 }
      | .link _ => { c with waiting := c.waiting ++ [item], links := c.links + 1 })
  else (false, c)

/-- The item that has waited longest; none when nothing waits, or no one is there to receive it. -/
def receive? (c : Channel) : Option (Item × Channel) :=
  match c.hasReceiver, c.waiting with
  | true, item :: more => some (item, { c with waiting := more })
  | _, _ => none

/-- Takes what waits; without receiver there is no one to take it. -/
def drain (c : Channel) : Option (List Item) × Channel :=
  if c.hasReceiver then (some c.waiting, { c with waiting := [] }) else (none, c)

def isComplete (c : Channel) : Bool :=
  c.senders == 0

/-- Drops every sender, takes what waits and gives up the receiver. -/
def collect (c : Channel) : Option (List Item) × Channel :=
  let (items, c) := drain c
  (items, dropReceiver { c with senders := 0 })

end Channel

end CodeGraph
