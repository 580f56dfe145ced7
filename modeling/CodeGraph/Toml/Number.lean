import CodeGraph.Toml.Reader

namespace CodeGraph.Toml

open CodeGraph.Text

/-!
# Numbers and dates

A word that begins with a digit or a minus is a number or a date. Of a number with a fraction and of a
date only the form is checked.
-/

inductive Plain where
  | integer (n : Int)
  /-- A number with a fraction or an exponent. -/
  | fraction
  | date
  deriving DecidableEq, Repr

def isDigitOf (base : Nat) (c : Char) : Bool :=
  (hexValue? c).any (· < base)

def valueOf (base : Nat) (digits : Chars) : Nat :=
  digits.foldl (fun n c => n * base + (hexValue? c).getD 0) 0

/-- The digits at the front of a text, and what follows. Underscores stand between digits; a zero stands
before others only where that is allowed. -/
def digitRun? (base : Nat) (leadingZeros : Bool) (s : Chars) : Option (Chars × Chars) :=
  let run := s.takeWhile fun c => isDigitOf base c || c == '_'
  let digits := run.filter (· != '_')
  if run.isEmpty || run.head? == some '_' || run.getLast? == some '_' ||
      Chars.containsText ['_', '_'] run then none
  else if !leadingZeros && digits.head? == some '0' && 1 < digits.length then none
  else some (digits, s.drop run.length)

def sign (s : Chars) : Bool × Chars :=
  match s with
  | '-' :: r => (true, r)
  | '+' :: r => (false, r)
  | s => (false, s)

/-- A whole number between -2^63 and 2^63 - 1. -/
def integer? (base : Nat) (signed : Bool) (s : Chars) : Option Int := do
  let (isNegative, s) := if signed then sign s else (false, s)
  let (digits, rest) ← digitRun? base (base != 10) s
  if !rest.isEmpty then failure
  let n := valueOf base digits
  if isNegative then
    if n ≤ Nat.pow 2 63 then return -n else none
  else if n < Nat.pow 2 63 then return n else none

/-- The least number beyond those that have a nearest finite double. -/
def doubleBound : Nat := (Nat.pow 2 54 - 1) * Nat.pow 2 970

/-- The number of these digits with an exponent of ten has a nearest finite double. -/
def isFinite (digits : Chars) (exponent : Int) : Bool :=
  let digits := digits.dropWhile (· == '0')
  let magnitude := (digits.length : Int) + exponent
  if digits.isEmpty || magnitude ≤ 308 then true
  else if 310 < magnitude then false
  else if 0 ≤ exponent then valueOf 10 digits * Nat.pow 10 exponent.toNat < doubleBound
  else valueOf 10 digits < doubleBound * Nat.pow 10 (-exponent).toNat

def exponentDigits? (signed : Bool) (s : Chars) : Option (Int × Chars) := do
  let (isNegative, s) := if signed then sign s else (false, s)
  let (digits, rest) ← digitRun? 10 true s
  let n := valueOf 10 digits
  return (if isNegative then -n else n, rest)

namespace Reader

/-- What a word says behind the digits of a number: an exponent or nothing. -/
def exponent (s : Chars) : Reader Int := do
  match s with
  | [] => return 0
  | e :: rest =>
    if e ≠ 'e' ∧ e ≠ 'E' then failure
    let (n, rest) ←
      if rest.isEmpty then do
        let _ ← eat '+'
        pure (← exponentDigits? false (← word))
      else pure (← exponentDigits? true rest)
    if rest.isEmpty then return n else failure

/-- A number with a fraction or an exponent: a word, and the word behind the point if there is one. -/
def fraction (s : Chars) (after : Option Chars) : Reader Plain := do
  let (_, s) := sign s
  let (whole, rest) ← digitRun? 10 false s
  let (part, rest) ←
    match after with
    | none => pure ([], rest)
    | some after =>
      if !rest.isEmpty then failure
      pure (← digitRun? 10 true after)
  let n ← exponent rest
  if isFinite (whole ++ part) (n - part.length) then return .fraction else failure

def wordsForNone : List Chars :=
  ["inf".toList, "-inf".toList, "nan".toList, "-nan".toList]

def based (base : Nat) (s : Chars) : Reader Plain := do
  return .integer (← integer? base false s)

def number (s : Chars) : Reader Plain := do
  match s with
  | '0' :: 'x' :: r => based 16 r
  | '0' :: 'o' :: r => based 8 r
  | '0' :: 'b' :: r => based 2 r
  | _ =>
    if s.contains 'e' || s.contains 'E' then fraction s none
    else if ← eat '.' then do
      fraction s (some (← word))
    else if wordsForNone.contains s then return .fraction
    else return .integer (← integer? 10 true s)

/-- An hour may stand one space behind a date. -/
def eatHour : Reader Unit :=
  fun s =>
    match s with
    | ' ' :: c :: r => if isBare c then some ((), (c :: r).dropWhile isBare) else some ((), s)
    | _ => some ((), s)

def eatPart (mark : Char) : Reader Unit := do
  if ← eat mark then
    let _ ← word

def dateRest (colonEaten : Bool) : Reader Plain := do
  eatHour
  let hasTime ← if colonEaten then pure true else eat ':'
  if hasTime then
    let _ ← word
    expect ':'
    let _ ← word
    eatPart '.'
    eatPart '+'
    eatPart ':'
  return .date

/-- A word is the beginning of a date: it has a mark for a time or a dash inside that is no sign of an
exponent. -/
def isDate (s : Chars) : Bool :=
  s.contains 'T' || s.contains 't' ||
    ((s.drop 1).contains '-' && !Chars.containsText ['e', '-'] s && !Chars.containsText ['E', '-'] s)

def numberOrDate (s : Chars) : Reader Plain := do
  if isDate s then dateRest false
  else if ← eat ':' then dateRest true
  else number s

def plain (s : Chars) : Reader Plain := do
  let isStart := s.head?.any fun c => c == '-' || c.isDigit
  if isStart || s == "inf".toList || s == "nan".toList then numberOrDate s else failure

end Reader

end CodeGraph.Toml
