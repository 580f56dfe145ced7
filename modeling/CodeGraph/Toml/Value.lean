import CodeGraph.Toml.Number

namespace CodeGraph.Toml

open CodeGraph.Text

/-! # Values -/

inductive Value where
  | text (s : String)
  | boolean (b : Bool)
  | plain (v : Plain)
  | array (elements : List Value)
  /-- A table in braces. -/
  | inlineTable (entries : List (String × Value))
  /-- A table that keys with points have made. -/
  | dottedTable (entries : List (String × Value))
  deriving Repr, Inhabited

abbrev Entries := List (String × Value)

def Value.text? : Value → Option String
  | .text s => some s
  | _ => none

def replaceFirst (key : String) (v : Value) : Entries → Entries
  | [] => []
  | (k, old) :: more => if k == key then (k, v) :: more else (k, old) :: replaceFirst key v more

/-- Entries with one more, whose key may lead through tables that keys with points have made. A key
without points is added even if it is there. -/
def Entries.put? : List String → Value → Entries → Option Entries
  | [], _, _ => none
  | [key], v, entries => some (entries ++ [(key, v)])
  | key :: path, v, entries =>
    match entries.lookup key with
    | some (.dottedTable inner) =>
      (Entries.put? path v inner).map fun inner => replaceFirst key (.dottedTable inner) entries
    | some _ => none
    | none => (Entries.put? path v []).map fun inner => entries ++ [(key, .dottedTable inner)]

namespace Reader

/-- A key: a word, or a quoted text without line breaks. -/
def key : Reader String :=
  fun s =>
    match quoted? s with
    | some (isLong, text, rest) =>
      if isLong then none else some (text, rest)
    | none => (word s).map fun (w, rest) => (.ofList w, rest)

def keysBehindPoints : Nat → Reader (List String)
  | 0 => return []
  | more + 1 => do
    skipSpaces
    if ← eat '.' then
      skipSpaces
      let k ← key
      return k :: (← keysBehindPoints more)
    else return []

def dottedKey : Reader (List String) := do
  let k ← key
  return k :: (← keysBehindPoints (← get).length)

def keyValue (value : Reader Value) : Reader (List String × Value) := do
  let path ← dottedKey
  skipSpaces
  expect '='
  skipSpaces
  return (path, ← value)

def elements (value : Reader Value) : Nat → Reader (List Value)
  | 0 => failure
  | more + 1 => do
    skipLines
    if ← eat ']' then return []
    let v ← value
    skipLines
    if ← eat ',' then return v :: (← elements value more)
    else
      expect ']'
      return [v]

/-- The entries of a table up to its brace, at most so many, behind those that are there. -/
def inlineEntries (value : Reader Value) : Nat → Entries → Reader Entries
  | 0, _ => failure
  | more + 1, entries => do
    let (path, v) ← keyValue value
    let entries ← Entries.put? path v entries
    skipSpaces
    if ← eat '\x7d' then return entries
    else
      expect ','
      skipSpaces
      inlineEntries value more entries

def inlineTable (value : Reader Value) : Reader Value := do
  skipSpaces
  if ← eat '\x7d' then return .inlineTable []
  return .inlineTable (← inlineEntries value (← get).length [])

def wordValue (w : Chars) : Reader Value := do
  if w == "true".toList then return .boolean true
  else if w == "false".toList then return .boolean false
  else return .plain (← plain w)

def quotedValue : Reader Value :=
  fun s => (quoted? s).map fun (_, text, rest) => (.text text, rest)

/-- A value in which arrays and tables lie in each other at most so deep. -/
def valueUpTo : Nat → Reader Value
  | 0 => failure
  | depth + 1 => do
    let value := valueUpTo depth
    match ← peek? with
    | some '"' => quotedValue
    | some '\'' => quotedValue
    | some '[' => do
      expect '['
      return .array (← elements value ((← get).length + 1))
    | some '\x7b' => do
      expect '\x7b'
      inlineTable value
    | some '+' => do
      expect '+'
      return .plain (← number (← word))
    | _ => do
      wordValue (← word)

def value : Reader Value := do
  valueUpTo ((← get).length + 1)

end Reader

end CodeGraph.Toml
