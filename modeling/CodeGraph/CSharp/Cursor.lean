import CodeGraph.CSharp.Token

namespace CodeGraph.CSharp

open CodeGraph.Text

/-!
# Reading along a list of tokens

A reader takes tokens off the front of what is left of a text. It may fail, and then has taken
nothing.
-/

structure Cursor where
  source : Array Char
  rest : List Token
  /-- Offset behind the last token that was taken. -/
  stop : Nat

abbrev Reader :=
  StateT Cursor Option

namespace Reader

/-- The next token stays where it is. -/
def peek? : Reader (Option Token) :=
  fun c => some (c.rest.head?, c)

def peekAt? (n : Nat) : Reader (Option Token) :=
  fun c => some (c.rest[n]?, c)

def take : Reader Token := fun c =>
  match c.rest with
  | t :: rest => some (t, { c with rest, stop := t.stop })
  | [] => none

def takeIf (p : Token → Bool) : Reader Token := fun c =>
  match c.rest with
  | t :: rest => if p t then some (t, { c with rest, stop := t.stop }) else none
  | [] => none

def symbol (s : String) : Reader Unit := do
  let _ ← takeIf (·.isSymbol s)

def word (w : String) : Reader Unit := do
  let _ ← takeIf (·.isWord w)

def name : Reader String := do
  return (← takeIf Token.isName).text

def atSymbol (s : String) : Reader Bool :=
  fun c => some (c.rest.head?.any (·.isSymbol s), c)

def atWord (w : String) : Reader Bool :=
  fun c => some (c.rest.head?.any (·.isWord w), c)

def atEnd : Reader Bool :=
  fun c => some (c.rest.isEmpty, c)

def optional {α : Type} (r : Reader α) : Reader (Option α) := fun c =>
  match r c with
  | some (a, c) => some (some a, c)
  | none => some (none, c)

/-- The reader would read something here; nothing is taken. -/
def wouldRead {α : Type} (r : Reader α) : Reader Bool :=
  fun c => some ((r c).isSome, c)

def hasSymbol (s : String) : Reader Bool := do
  return (← optional (symbol s)).isSome

def hasWord (w : String) : Reader Bool := do
  return (← optional (word w)).isSome

def require (p : Bool) : Reader Unit :=
  if p then pure () else failure

def start : Reader Nat :=
  fun c => some ((c.rest.head?.map (·.start)).getD c.stop, c)

def row : Reader Nat :=
  fun c => some ((c.rest.head?.map (·.row)).getD 0, c)

/-- The text between an offset and the last token taken. -/
def textFrom (start : Nat) : Reader String :=
  fun c => some (.ofList (c.source.extract start c.stop).toList, c)

def textOf {α : Type} (r : Reader α) : Reader String := do
  let from_ ← start
  let _ ← r
  textFrom from_

/-- As often as the reader succeeds and moves on, but at most so many times. -/
def upTo {α : Type} (r : Reader α) : Nat → Reader (List α)
  | 0, c => some ([], c)
  | more + 1, c =>
    match r c with
    | none => some ([], c)
    | some (a, d) =>
      if d.stop ≤ c.stop then some ([], c)
      else
        match upTo r more d with
        | some (l, e) => some (a :: l, e)
        | none => some ([a], d)

def many {α : Type} (r : Reader α) : Reader (List α) :=
  fun c => upTo r (c.rest.length + 1) c

/-- One or more, with commas between. -/
def someSeparated {α : Type} (r : Reader α) : Reader (List α) := do
  let first ← r
  return first :: (← many do symbol ","; r)

/-- Any number, with commas between and perhaps one at the end. -/
def separated {α : Type} (r : Reader α) : Reader (List α) := do
  match ← optional (someSeparated r) with
  | some l =>
    let _ ← hasSymbol ","
    return l
  | none => return []

/-- Tokens up to the end of a group, of which so many brackets are open. -/
def dropGroup : Nat → List Token → Option (Nat × List Token)
  | _, [] => none
  | depth, t :: rest =>
    if t.isSymbol "(" || t.isSymbol "[" || t.isSymbol "\x7b" then dropGroup (depth + 1) rest
    else if t.isSymbol ")" || t.isSymbol "]" || t.isSymbol "\x7d" then
      if depth ≤ 1 then some (t.stop, rest) else dropGroup (depth - 1) rest
    else dropGroup depth rest

/-- A group of tokens between brackets, left unread. -/
def group (opening : String) : Reader Unit := do
  symbol opening
  fun c => (dropGroup 1 c.rest).map fun (stop, rest) => ((), { c with rest, stop })

end Reader

end CodeGraph.CSharp
