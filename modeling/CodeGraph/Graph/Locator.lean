import CodeGraph.Dict
import CodeGraph.Failure
import CodeGraph.Graph.Item
import CodeGraph.Path

namespace CodeGraph

/-!
# From nodes to files and back
-/

/-- The located names of a stream, each with the location that came last, and all names. -/
structure Locator where
  locations : Dict SourceLocation
  names : List String
  deriving Repr

namespace Locator

/-- Equal neighbours are kept once. -/
def dedupSorted : List String → List String
  | a :: b :: r => if a == b then dedupSorted (b :: r) else a :: dedupSorted (b :: r)
  | l => l

def ofItems (items : List Item) : Locator :=
  let nodes := items.filterMap Item.node?
  { locations := nodes.foldl
      (fun found n => match n.location with
        | some l => found.insert n.name l
        | none => found) .empty
    names := dedupSorted (Text.sort (nodes.map (·.name))) }

def isEmpty (s : Locator) : Bool :=
  s.locations.entries.isEmpty

def compareLocations (a b : SourceLocation) : Ordering :=
  (Path.compare a.path b.path).then (compare a.line b.line)

/-- The first among the least elements. -/
def minBy {α : Type} (cmp : α → α → Ordering) : List α → Option α
  | [] => none
  | a :: r => some (r.foldl (fun best b => if (cmp b best).isLT then b else best) a)

/-- The last among the greatest elements. -/
def maxBy {α : Type} (cmp : α → α → Ordering) : List α → Option α
  | [] => none
  | a :: r => some (r.foldl (fun best b => if (cmp b best).isLT then best else b) a)

/-- A node's own location, else the earliest one below it. -/
def location? (s : Locator) (node : String) : Option SourceLocation :=
  (s.locations.get? node).or <|
    minBy compareLocations ((s.locations.entries.filter fun (n, _) => Name.isAbove node n).map (·.2))

/-- The nearest name at or above `a` that is `b` or above it; empty when there is none. The first
argument bounds the number of steps. -/
def commonAncestor : Nat → (a b : String) → String
  | 0, _, _ => ""
  | steps + 1, a, b =>
    if a.isEmpty || a == b || Name.isAbove a b then a else commonAncestor steps (Name.parent a) b

/-- The node declared closest above a line of a file; else the deepest common ancestor of the nodes
located in the file's directory. -/
def nodeAt (s : Locator) (path : String) (line : Nat) : Except Failure String :=
  let inFile := s.locations.entries.filter fun (_, l) => Path.same l.path path && l.line ≤ line
  let closest := maxBy
    (fun (a : String × SourceLocation) b =>
      (compare a.2.line b.2.line).then (compare a.1.utf8ByteSize b.1.utf8ByteSize)) inFile
  match closest with
  | some (name, _) => .ok name
  | none =>
    let dir := (Path.parent? path).map Path.components
    let inDir := s.locations.entries.filter fun (_, l) => (Path.parent? l.path).map Path.components == dir
    match inDir.map (·.1) with
    | [] => missing
    | first :: more =>
      let ancestor := more.foldl (fun a b => commonAncestor (a.length + 1) a b) first
      if ancestor.isEmpty then missing else .ok ancestor
where
  missing := .error (.nodeNotFound (path ++ ":" ++ toString line))

end Locator

end CodeGraph
