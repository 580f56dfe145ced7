import CodeGraph.CSharp.Cursor
import CodeGraph.CSharp.WrittenType

namespace CodeGraph.CSharp.Reader

open CodeGraph.Text

/-!
# Reading written types

Only where a written type ends is decided here; what it means is told from its text.
-/

/-- Steps that extend what was read so far, as long as they succeed, but at most so many. -/
def extendUpTo {α : Type} (step : α → Reader α) : Nat → α → Reader α
  | 0, a, c => some (a, c)
  | more + 1, a, c =>
    match step a c with
    | some (b, d) => extendUpTo step more b d
    | none => some (a, c)

/-- What was read so far, extended as long as the step succeeds. Each step takes a token. -/
def extend {α : Type} (step : α → Reader α) (a : α) : Reader α :=
  fun c => extendUpTo step c.rest.length a c

/-- Type arguments, which may all be left out. -/
def typeArguments (type : Reader Unit) : Reader Unit := do
  symbol "<"
  let _ ← many (symbol ",")
  let _ ← optional (someSeparated type)
  symbol ">"

def simpleName (type : Reader Unit) : Reader Unit := do
  let _ ← name
  let _ ← optional (typeArguments type)

def qualifier : Reader String := do
  let w ← name
  symbol "::"
  return w

def dottedName (type : Reader Unit) : Reader Unit := do
  let _ ← optional qualifier
  simpleName type
  let _ ← many do symbol "."; simpleName type

def keywordType : Reader Unit := do
  let _ ← takeIf fun t => t.kind == .word && (keywordTypes.lookup t.text).isSome

def tupleType (type : Reader Unit) : Reader Unit := do
  symbol "("
  let elements ← someSeparated do type; optional name
  require (1 < elements.length)
  symbol ")"

def functionPointer (type : Reader Unit) : Reader Unit := do
  word "delegate"
  symbol "*"
  let _ ← optional name
  let _ ← optional (group "[")
  typeArguments type

def unmarkedType (type : Reader Unit) : Reader Unit :=
  functionPointer type <|> tupleType type <|> keywordType <|> dottedName type

def arrayMark : Reader Unit := do
  symbol "["
  let _ ← many (symbol ",")
  symbol "]"

def mark : Reader Unit :=
  symbol "*" <|> symbol "?" <|> arrayMark

/-- A type of at most so much depth. -/
def typeUpTo : Nat → Reader Unit
  | 0 => failure
  | depth + 1 => do
    if ← hasWord "ref" then
      let _ ← hasWord "readonly"
    unmarkedType (typeUpTo depth)
    let _ ← many mark

def anyType : Reader Unit :=
  fun c => typeUpTo c.rest.length c

def type : Reader String :=
  textOf anyType

/-- Words that stand behind an operand or between clauses. -/
def beginsNoOperand : List String :=
  ["is", "as", "and", "or", "when", "switch", "with", "in", "into", "on", "equals", "where", "select",
    "orderby", "join", "let", "group", "by", "ascending", "descending"]

def beginsOperand (t : Token) : Bool :=
  match t.kind with
  | .number | .character | .string | .opening => true
  | .word => !beginsNoOperand.contains t.text
  | .symbol => ["(", "!", "~", "++", "--", "-", "+", "&", "*", "^", "["].contains t.text
  | _ => false

/-- A question mark that belongs to the type before it and does not ask for two alternatives. -/
def nullableMark : Reader Unit := do
  symbol "?"
  let next ← peek?
  require (!next.any beginsOperand)

/-- A type in a test, where an operator may follow. -/
def testedType : Reader String :=
  textOf do
    unmarkedType anyType
    let _ ← many (nullableMark <|> arrayMark)

def endsTypeArguments : List String :=
  ["(", ")", "]", "\x7d", ":", ";", ",", ".", "?", "==", "!=", "|", "^", "&&", "||", "&", "??"]

/-- The type arguments of a name in an expression, as written one by one. -/
def expressionArguments? : Reader (Option (List String)) :=
  optional do
    symbol "<"
    let arguments ← someSeparated type
    symbol ">"
    let next ← peek?
    require (next.all fun t => t.kind == .symbol && endsTypeArguments.contains t.text)
    return arguments

end CodeGraph.CSharp.Reader
