import CodeGraph.Text.Basic

namespace CodeGraph.Name

open CodeGraph.Text

/-!
# Brackets and segments

A name is cut at the dots that stand outside every pair of brackets. Angle, round and square
brackets count alike, and a closing bracket without partner opens a negative depth, at which
nothing is cut.
-/

def isOpening (c : Char) : Bool :=
  c == '<' || c == '(' || c == '['

def isClosing (c : Char) : Bool :=
  c == '>' || c == ')' || c == ']'

/-- The depth behind a character, given the depth before it. -/
def depthAfter (depth : Int) (c : Char) : Int :=
  if isOpening c then depth + 1 else if isClosing c then depth - 1 else depth

/-- The text before and after the last dot at depth zero. -/
def lastDot? (depth : Int) : Chars → Option (Chars × Chars)
  | [] => none
  | c :: r =>
    match lastDot? (depthAfter depth c) r with
    | some (head, last) => some (c :: head, last)
    | none => if c = '.' ∧ depth = 0 then some ([], r) else none

/-- The name above the last segment, empty for a single segment, and that segment. -/
def splitLast (name : Chars) : Chars × Chars :=
  (lastDot? 0 name).getD ([], name)

/-- The parts between the separators at depth zero. -/
def splitTop (sep : Char) (depth : Int) : Chars → List Chars
  | [] => [[]]
  | c :: r =>
    if c = sep ∧ depth = 0 then [] :: splitTop sep depth r
    else
      match splitTop sep (depthAfter depth c) r with
      | [] => [[c]]
      | part :: parts => (c :: part) :: parts

/-- Reads leftward from a closing bracket at `depth` open ones to the bracket that balances it. The
text between is gathered in `inner`; the balancing bracket has to be round and not the first
character. -/
def openingBefore (depth : Nat) (inner : Chars) : Chars → Option (Chars × Chars)
  | [] => none
  | c :: r =>
    if isClosing c then openingBefore (depth + 1) (c :: inner) r
    else if isOpening c then
      match depth with
      | 0 => if c = '(' ∧ r ≠ [] then some (r.reverse, inner) else none
      | deeper + 1 => openingBefore deeper (c :: inner) r
    else openingBefore depth (c :: inner) r

def splitParameters (text : Chars) : Option (Chars × Chars) :=
  match text.reverse with
  | ')' :: r => openingBefore 0 [] r
  | _ => none

/-- The text up to the angle bracket that closes the one already read, and what follows it. -/
def closeAngle (depth : Nat) : Chars → Option (Chars × Chars)
  | [] => none
  | c :: r =>
    if c = '<' then (closeAngle (depth + 1) r).map fun (a, b) => (c :: a, b)
    else if c = '>' then
      match depth with
      | 0 => some ([], r)
      | outer + 1 => (closeAngle outer r).map fun (a, b) => (c :: a, b)
    else (closeAngle depth r).map fun (a, b) => (c :: a, b)

end CodeGraph.Name
