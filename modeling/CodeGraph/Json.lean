import CodeGraph.Text.Basic

namespace CodeGraph

/-!
# JSON values and their text
-/

/-- A JSON value; the fields of an object keep their order. A number that is not whole is kept as
`fraction`, because nothing here reads one. -/
inductive Json where
  | null
  | bool (value : Bool)
  | int (value : Int)
  | fraction
  | str (value : String)
  | arr (elements : List Json)
  | obj (fields : List (String × Json))
  deriving Repr, Inhabited

namespace Json

def hexDigit (n : Nat) : Char :=
  "0123456789abcdef".toList.getD n '0'

/-- Quotes, backslashes and control characters are escaped, all else stands for itself. -/
def escapeChar (c : Char) : List Char :=
  if c = '"' then ['\\', '"']
  else if c = '\\' then ['\\', '\\']
  else if c = '\n' then ['\\', 'n']
  else if c = '\t' then ['\\', 't']
  else if c = '\r' then ['\\', 'r']
  else if c = '\x08' then ['\\', 'b']
  else if c = '\x0c' then ['\\', 'f']
  else if c.toNat < 0x20 then ['\\', 'u', '0', '0', hexDigit (c.toNat / 16), hexDigit (c.toNat % 16)]
  else [c]

def quote (s : String) : String :=
  "\"" ++ .ofList (s.toList.flatMap escapeChar) ++ "\""

mutual

def compact : Json → String
  | null => "null"
  | bool true => "true"
  | bool false => "false"
  | int n => toString n
  | fraction => "0.0"
  | str s => quote s
  | arr l => "[" ++ Text.joinWith "," (compactAll l) ++ "]"
  | obj l => "\x7b" ++ Text.joinWith "," (compactFields l) ++ "\x7d"

def compactAll : List Json → List String
  | [] => []
  | v :: more => v.compact :: compactAll more

def compactFields : List (String × Json) → List String
  | [] => []
  | (k, v) :: more => (quote k ++ ":" ++ v.compact) :: compactFields more

end

/-- Elements between brackets, one a line, two spaces deeper than the brackets. -/
def block (opening closing : String) (depth : Nat) (elements : List String) : String :=
  let indent := fun d => String.ofList (List.replicate (2 * d) ' ')
  if elements.isEmpty then opening ++ closing
  else
    opening ++ "\n" ++ Text.joinWith ",\n" (elements.map (indent (depth + 1) ++ ·)) ++ "\n" ++
      indent depth ++ closing

mutual

def indented (depth : Nat) : Json → String
  | arr l => block "[" "]" depth (indentedAll (depth + 1) l)
  | obj l => block "\x7b" "\x7d" depth (indentedFields (depth + 1) l)
  | v => v.compact

def indentedAll (depth : Nat) : List Json → List String
  | [] => []
  | v :: more => v.indented depth :: indentedAll depth more

def indentedFields (depth : Nat) : List (String × Json) → List String
  | [] => []
  | (k, v) :: more => (quote k ++ ": " ++ v.indented depth) :: indentedFields depth more

end

def pretty (v : Json) : String :=
  v.indented 0

def field? (key : String) : Json → Option Json
  | obj fields => fields.lookup key
  | _ => none

def text? : Json → Option String
  | str s => some s
  | _ => none

def word? : Json → Option Nat
  | int (.ofNat n) => if n < Nat.pow 2 64 then some n else none
  | _ => none

def nat (n : Nat) : Json :=
  int n

end Json

end CodeGraph
