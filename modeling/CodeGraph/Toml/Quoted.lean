import CodeGraph.Text.Basic

namespace CodeGraph.Toml

open CodeGraph.Text

/-!
# Quoted texts

A text stands between single quotes as it is, or between double quotes with escapes. Between three
quotes it may have line breaks, and a line break right behind the opening quotes does not belong to it.
-/

/-- A character that a text may hold as it is: tab, and all that are no control characters. -/
def isPlain (c : Char) : Bool :=
  c == '\t' || (0x20 ≤ c.toNat && c.toNat != 0x7F)

/-! ## Reading -/

def literalLine : Chars → Option (Chars × Chars)
  | [] => none
  | c :: r =>
    if c = '\'' then some ([], r)
    else if isPlain c then (literalLine r).map fun (text, rest) => (c :: text, rest)
    else none

/-- Three quotes end a text; up to two more of them are its last characters. -/
def closing? (quote : Char) (s : Chars) : Option (Chars × Chars) :=
  (Chars.dropPrefix? [quote, quote, quote] s).map fun r =>
    let more := (r.take 2).takeWhile (· == quote)
    (more, r.drop more.length)

def literalLines : Chars → Option (Chars × Chars)
  | [] => none
  | c :: r =>
    match closing? '\'' (c :: r) with
    | some done => some done
    | none =>
      if c = '\n' ∨ isPlain c then (literalLines r).map fun (text, rest) => (c :: text, rest) else none

def escapes : List (Char × Char) :=
  [('"', '"'), ('\\', '\\'), ('b', '\x08'), ('f', '\x0C'), ('n', '\n'), ('r', '\r'), ('t', '\t')]

def hexValue? (c : Char) : Option Nat :=
  if '0' ≤ c ∧ c ≤ '9' then some (c.toNat - '0'.toNat)
  else if 'a' ≤ c ∧ c ≤ 'f' then some (c.toNat - 'a'.toNat + 10)
  else if 'A' ≤ c ∧ c ≤ 'F' then some (c.toNat - 'A'.toNat + 10)
  else none

def codePoint? (digits : Chars) : Option Char := do
  let values ← digits.mapM hexValue?
  let n := values.foldl (fun n d => n * 16 + d) 0
  if n < 0xD800 ∨ (0xDFFF < n ∧ n < 0x110000) then return .ofNat n else none

/-- Blanks that do not belong to a text. -/
inductive Skipping where
  | nothing
  /-- Behind a backslash, up to the end of the line. -/
  | toLineEnd
  /-- Behind a line break that a backslash takes away. -/
  | blanks
  deriving DecidableEq, Repr

def isSpace (c : Char) : Bool :=
  c == ' ' || c == '\t'

def basic (isLong : Bool) (skipping : Skipping) : Chars → Option (Chars × Chars)
  | [] => none
  | c :: r =>
    let put := fun (x : Char) (read : Option (Chars × Chars)) =>
      read.map fun (text, rest) => (x :: text, rest)
    if skipping = .toLineEnd then
      if isSpace c then basic isLong .toLineEnd r
      else if c = '\n' then basic isLong .blanks r
      else none
    else if skipping = .blanks ∧ (isSpace c ∨ c = '\n') then basic isLong .blanks r
    else if c = '\\' then
      match r with
      | 'u' :: a :: b :: c :: d :: r => (codePoint? [a, b, c, d]).bind (put · (basic isLong .nothing r))
      | 'U' :: a :: b :: c :: d :: e :: f :: g :: h :: r =>
        (codePoint? [a, b, c, d, e, f, g, h]).bind (put · (basic isLong .nothing r))
      | e :: r =>
        match escapes.lookup e with
        | some x => put x (basic isLong .nothing r)
        | none =>
          if isLong && e == '\n' then basic isLong .blanks r
          else if isLong && isSpace e then basic isLong .toLineEnd r
          else none
      | [] => none
    else if isLong then
      match closing? '"' (c :: r) with
      | some done => some done
      | none => if c = '\n' ∨ isPlain c then put c (basic isLong .nothing r) else none
    else if c = '"' then some ([], r)
    else if isPlain c then put c (basic isLong .nothing r)
    else none

def dropLineBreak : Chars → Chars
  | '\n' :: r => r
  | s => s

/-- The text that is quoted at the front, whether three quotes stand around it, and what follows. -/
def quoted? (s : Chars) : Option (Bool × String × Chars) :=
  let short := fun (read : Option (Chars × Chars)) =>
    read.map fun (text, rest) => (false, String.ofList text, rest)
  let long := fun (read : Option (Chars × Chars)) =>
    read.map fun (text, rest) => (true, String.ofList text, rest)
  match s with
  | '\'' :: '\'' :: '\'' :: r => long (literalLines (dropLineBreak r))
  | '\'' :: r => short (literalLine r)
  | '"' :: '"' :: '"' :: r => long (basic true .nothing (dropLineBreak r))
  | '"' :: r => short (basic false .nothing r)
  | _ => none

/-! ## Writing -/

def isLiteral (s : Chars) : Bool :=
  s.all (fun c => isPlain c || c == '\n') && !Chars.containsText ['\'', '\'', '\''] s &&
    s.getLast? != some '\''

def hexUpper (n : Nat) : Char :=
  if n < 10 then .ofNat ('0'.toNat + n) else .ofNat ('A'.toNat + (n - 10))

def escape (isLong : Bool) (c : Char) : Chars :=
  if c = '\n' then (if isLong then ['\n'] else ['\\', 'n'])
  else if c = '\x08' then ['\\', 'b']
  else if c = '\t' then ['\\', 't']
  else if c = '\x0C' then ['\\', 'f']
  else if c = '\r' then ['\\', 'r']
  else if c = '"' then ['\\', '"']
  else if c = '\\' then ['\\', '\\']
  else if isPlain c then [c]
  else ['\\', 'u', '0', '0', hexUpper (c.toNat / 16), hexUpper (c.toNat % 16)]

/-- A text in quotes: single ones where they can be, three of them for line breaks or quotes inside. -/
def quote (text : String) : String :=
  let s := text.toList
  let isLong := s.contains '\n'
  if isLiteral s then
    if isLong then "'''\n" ++ text ++ "'''"
    else if s.contains '\'' then "'''" ++ text ++ "'''"
    else "'" ++ text ++ "'"
  else
    let escaped := String.ofList (s.flatMap (escape isLong))
    if isLong then "\"\"\"\n" ++ escaped ++ "\"\"\"" else "\"" ++ escaped ++ "\""

end CodeGraph.Toml
