import CodeGraph.Toml.Quoted

namespace CodeGraph.Toml

open CodeGraph.Text

/-!
# Reading from the front of a text

Only line feeds end lines here; a carriage return before one is dropped when a text is opened.
-/

/-- Reads from the front of a text; a failure tells nothing about why. -/
abbrev Reader := StateT Chars Option

namespace Reader

def peek? : Reader (Option Char) :=
  fun s => some (s.head?, s)

def eat (c : Char) : Reader Bool :=
  fun s =>
    match s with
    | a :: r => if a = c then some (true, r) else some (false, s)
    | [] => some (false, [])

def expect (c : Char) : Reader Unit := do
  if !(← eat c) then failure

def takeWhile (p : Char → Bool) : Reader Chars :=
  fun s => some (s.takeWhile p, s.dropWhile p)

def skipSpaces : Reader Unit := do
  let _ ← takeWhile isSpace

def isBare (c : Char) : Bool :=
  c.isAlphanum || c == '-' || c == '_'

def word : Reader Chars := do
  let s ← takeWhile isBare
  if s.isEmpty then failure else return s

def lineEnd : Reader Unit :=
  fun s =>
    match s with
    | [] => some ((), [])
    | c :: r => if c = '\n' then some ((), r) else none

def eatComment : Reader Bool := do
  if !(← eat '#') then return false
  let _ ← takeWhile fun c => c == '\t' || 0x20 ≤ c.toNat
  lineEnd
  return true

/-- Spaces, empty lines and comments, at most so many. -/
def skipLinesUpTo : Nat → Reader Unit
  | 0 => return ()
  | more + 1 => do
    skipSpaces
    if ← eat '\n' then skipLinesUpTo more
    else if ← eatComment then skipLinesUpTo more
    else return ()

def skipLines : Reader Unit := do
  skipLinesUpTo ((← get).length + 1)

end Reader

end CodeGraph.Toml
