import CodeGraph.Text.Basic

namespace CodeGraph.Xml

open CodeGraph.Text

/-!
# Characters, names and references
-/

/-- Control characters other than tab and line breaks, and the two last code points of the basic
plane, may not stand in a document. -/
def isXmlChar (c : Char) : Bool :=
  let n := c.toNat
  if n < 0x20 then n == 9 || n == 10 || n == 13 else n != 0xFFFE && n != 0xFFFF

def isSpace (c : Char) : Bool :=
  c == ' ' || c == '\t' || c == '\n' || c == '\r'

def nameStartRanges : Array (Nat × Nat) := #[
  (0xC0, 0xD6), (0xD8, 0xF6), (0xF8, 0x2FF), (0x370, 0x37D), (0x37F, 0x1FFF), (0x200C, 0x200D),
  (0x2070, 0x218F), (0x2C00, 0x2FEF), (0x3001, 0xD7FF), (0xF900, 0xFDCF), (0xFDF0, 0xFFFD),
  (0x10000, 0xEFFFF)]

def isNameStart (c : Char) : Bool :=
  if c.toNat ≤ 128 then c.isAlpha || c == ':' || c == '_' else inRanges nameStartRanges c.toNat

/-- Code points beyond ASCII that may go on with a name but not begin it. -/
def nameRestRanges : Array (Nat × Nat) := #[(0xB7, 0xB7), (0x300, 0x36F), (0x203F, 0x2040)]

def isNameChar (c : Char) : Bool :=
  if c.toNat ≤ 128 then isNameStart c || c.isDigit || c == '-' || c == '.'
  else isNameStart c || inRanges nameRestRanges c.toNat

/-- A name that a colon may divide once; `space` is empty without colon. -/
structure QName where
  space : Chars
  name : Chars
  deriving DecidableEq, Repr

def qname? (s : Chars) : Option (QName × Chars) :=
  let word := s.takeWhile isNameChar
  let rest := s.dropWhile isNameChar
  let startsWell := fun part : Chars => part.head?.any isNameStart
  match Chars.splitBy (· == ':') word with
  | [name] => if startsWell name then some (⟨[], name⟩, rest) else none
  | [space, name] =>
    if (space.isEmpty || startsWell space) && startsWell name then some (⟨space, name⟩, rest) else none
  | _ => none

/-- A name in which colons count as letters. -/
def name? (s : Chars) : Option (Chars × Chars) :=
  match s with
  | c :: r => if isNameStart c then some (c :: r.takeWhile isNameChar, r.dropWhile isNameChar) else none
  | [] => none

def hexValue (c : Char) : Nat :=
  if c.isDigit then c.toNat - '0'.toNat
  else if 'a'.toNat ≤ c.toNat then c.toNat - 'a'.toNat + 10
  else c.toNat - 'A'.toNat + 10

def isHexDigit (c : Char) : Bool :=
  c.isDigit || ('a' ≤ c && c ≤ 'f') || ('A' ≤ c && c ≤ 'F')

/-- The character with a code; a code that no character has becomes the replacement character, and
one that no document may hold, or that leaves 32 bits, is refused. -/
def charOfCode? (n : Nat) : Option Char :=
  if n ≥ Nat.pow 2 32 then none
  else
    let c := if n < 0xD800 ∨ (0xE000 ≤ n ∧ n < 0x110000) then Char.ofNat n else '\uFFFD'
    if isXmlChar c then some c else none

def numeral? (isDigit : Char → Bool) (base : Nat) (s : Chars) : Option (Nat × Chars) :=
  let digits := s.takeWhile isDigit
  if digits.isEmpty then none
  else some (digits.foldl (fun n c => n * base + hexValue c) 0, s.dropWhile isDigit)

/-- The five entities that need no declaration. -/
def predefinedEntity? (name : Chars) : Option Char :=
  [("quot", '"'), ("amp", '&'), ("apos", '\''), ("lt", '<'), ("gt", '>')].lookup (String.ofList name)

/-- The character meant by a reference, read from behind its ampersand, and what follows. -/
def reference? (s : Chars) : Option (Char × Chars) := do
  let (c, rest) ←
    match s with
    | '#' :: 'x' :: r => do
      let (n, rest) ← numeral? isHexDigit 16 r
      some (← charOfCode? n, rest)
    | '#' :: r => do
      let (n, rest) ← numeral? Char.isDigit 10 r
      some (← charOfCode? n, rest)
    | _ => do
      let (name, rest) ← name? s
      some (← predefinedEntity? name, rest)
  match rest with
  | ';' :: r => some (c, r)
  | _ => none

end CodeGraph.Xml
