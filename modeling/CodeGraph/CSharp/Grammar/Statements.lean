import CodeGraph.CSharp.Grammar.Expressions

namespace CodeGraph.CSharp

namespace Reader

open CodeGraph.Text

/-!
# Reading statements
-/

/-- The names in a condition on which a part of the text depends; a comment may follow it. -/
def conditionNames (line : String) : List Code :=
  let condition := (Chars.splitBy (· == '/') line.toList).headD []
  let words := ((Chars.splitBy (! isWordPart ·) (condition.drop 1)).filter (! ·.isEmpty)).map String.ofList
  match words with
  | directive :: condition =>
    if directive = "if" ∨ directive = "elif" then
      (condition.filter fun w => w != "true" && w != "false").map .name
    else []
  | [] => []

/-- A line that chooses between parts of the text. All parts are read, one after the other. -/
def choice : Reader Code := do
  let t ← takeIf (·.kind == .choice)
  return .parts (conditionNames t.text)

/-- Statements up to a closing brace. A token that begins no statement is left out. -/
def statementsIn (g : Grammar) : Reader (List Code) :=
  many (choice <|> g.statement <|> (do
    require !(← atSymbol "\x7d")
    let _ ← take
    return .empty))

def block (g : Grammar) : Reader Code := do
  symbol "\x7b"
  let codes ← statementsIn g
  symbol "\x7d"
  return .parts codes

/-! ## Declarations of locals -/

def tupleNames : Reader Unit := do
  require (← atSymbol "(")
  let _ ← fun c => designationsUpTo c.rest.length c

def declarator (g : Grammar) : Reader (String × Option Code) := do
  let n ← name
  let _ ← optional (group "[")
  let initial ← optional do
    symbol "="
    (do return .parts (← braced g)) <|> g.expression
  return (n, initial)

/-- Names that take a value apart, declared together with it. -/
def takenApart (g : Grammar) : Reader Code := do
  word "var"
  let names ← textOf tupleNames
  symbol "="
  return .declaration "var" [(names, some (← g.expression))]

def variableGroup (g : Grammar) : Reader Code :=
  takenApart g <|> (do
    let type ← type
    require (type != "yield")
    return .declaration type (← someSeparated (declarator g)))

def localWords : List String :=
  ["const", "static", "readonly", "scoped"]

def localWord : Reader Unit := do
  let _ ← takeIf fun t => t.kind == .word && localWords.contains t.text

def localDeclaration (g : Grammar) : Reader Code := do
  let _ ← optional (word "await")
  let _ ← optional (word "using")
  let _ ← many localWord
  let declared ← variableGroup g
  symbol ";"
  return declared

/-- Restrictions on type parameters say nothing about references. -/
def constraints : Reader Unit := do
  let _ ← many do
    word "where"
    many (takeIf fun t => !(t.isSymbol "\x7b" || t.isSymbol "=>" || t.isSymbol ";" || t.isWord "where"))

def typeParameters : Reader (List String) := do
  symbol "<"
  let names ← someSeparated do
    attributes
    let _ ← optional (word "in" <|> word "out")
    name
  symbol ">"
  return names

/-- What a function does: its block, the expression behind its arrow, or nothing. -/
def functionBody (g : Grammar) : Reader (List Code) :=
  (do return [← block g]) <|>
  (do
    symbol "=>"
    let e ← g.expression
    symbol ";"
    return [e]) <|>
  (do symbol ";"; return [])

def functionWords : List String :=
  ["async", "static", "unsafe", "extern"]

def localFunction (g : Grammar) : Reader Code := do
  attributes
  let _ ← many (takeIf fun t => t.kind == .word && functionWords.contains t.text)
  let _ ← type
  let n ← name
  let _ ← optional typeParameters
  let params ← parameters g "(" ")"
  constraints
  return .localFunction n params (← functionBody g)

/-! ## Statements by their first word -/

def condition (g : Grammar) : Reader Code := do
  symbol "("
  let e ← g.expression
  symbol ")"
  return e

def ifStatement (g : Grammar) : Reader Code := do
  word "if"
  let test ← condition g
  let yes ← g.statement
  let no ← optional do word "else"; g.statement
  return .parts (test :: yes :: no.toList)

def whileStatement (g : Grammar) : Reader Code := do
  word "while"
  let test ← condition g
  return .parts [test, ← g.statement]

def doStatement (g : Grammar) : Reader Code := do
  word "do"
  let body ← g.statement
  word "while"
  let test ← condition g
  symbol ";"
  return .parts [body, test]

def forStatement (g : Grammar) : Reader Code := do
  word "for"
  symbol "("
  let first ← (do
    let _ ← many localWord
    return [← variableGroup g]) <|> separated g.expression
  symbol ";"
  let test ← optional g.expression
  symbol ";"
  let step ← separated g.expression
  symbol ")"
  return .parts (first ++ test.toList ++ step ++ [← g.statement])

/-- A loop over a collection; its variable has a type and a name, or is an expression. -/
def foreachStatement (g : Grammar) : Reader Code := do
  let _ ← optional (word "await")
  word "foreach"
  symbol "("
  let _ ← many localWord
  let (type, n) ← (do
    let type ← type
    let n ← name <|> textOf tupleNames
    require (← atWord "in")
    return (some type, n)) <|> (do return (none, ← textOf g.expression))
  word "in"
  let collection ← g.expression
  symbol ")"
  return .foreach type (some n) collection (← g.statement)

def catchClause (g : Grammar) : Reader (List Code) := do
  word "catch"
  let caught ← optional do
    symbol "("
    let type ← type
    let n ← optional name
    symbol ")"
    return Code.caught type n
  let filter ← optional do word "when"; condition g
  return caught.toList ++ filter.toList ++ [← block g]

def tryStatement (g : Grammar) : Reader Code := do
  word "try"
  let body ← block g
  let catches ← many (catchClause g)
  let last ← optional do word "finally"; block g
  return .parts (body :: catches.flatten ++ last.toList)

def caseLabel (g : Grammar) : Reader (List Code) :=
  (do
    word "case"
    let p ← g.pattern
    let guard ← optional do word "when"; g.expression
    symbol ":"
    return p :: guard.toList) <|>
  (do word "default"; symbol ":"; return [])

def switchStatement (g : Grammar) : Reader Code := do
  word "switch"
  let value ← condition g <|> parenthesized g
  symbol "\x7b"
  let sections ← many (caseLabel g <|> (do
    require !(← atSymbol "\x7d")
    return [← choice <|> g.statement]))
  symbol "\x7d"
  return .parts (value :: sections.flatten)

def markedBlock (g : Grammar) : Reader Code := do
  word "checked" <|> word "unchecked" <|> word "unsafe"
  block g

def lockStatement (g : Grammar) : Reader Code := do
  word "lock"
  let value ← condition g
  return .parts [value, ← g.statement]

/-- A statement around a resource or a fixed address. -/
def holdStatement (g : Grammar) : Reader Code := do
  let _ ← optional (word "await")
  word "using" <|> word "fixed"
  symbol "("
  let held ← (do
    let declared ← variableGroup g
    require (← atSymbol ")")
    return declared) <|> g.expression
  symbol ")"
  return .parts [held, ← g.statement]

def jumpStatement (g : Grammar) : Reader Code := do
  let _ ← optional (word "yield")
  let w ← takeIf fun t => ["return", "throw", "break", "continue"].any t.isWord
  let value ← if w.text = "return" ∨ w.text = "throw" then optional g.expression else pure none
  symbol ";"
  return .parts value.toList

def gotoStatement (g : Grammar) : Reader Code := do
  word "goto"
  let target ← (do let _ ← optional (word "case"); return [← g.expression]) <|>
    (do word "default"; return [])
  symbol ";"
  return .parts target

def labeledStatement (g : Grammar) : Reader Code := do
  let n ← name
  symbol ":"
  return .parts [.name n, ← g.statement]

def expressionStatement (g : Grammar) : Reader Code := do
  let e ← g.expression
  symbol ";"
  return e

def statement (g : Grammar) : Reader Code :=
  block g <|> (do symbol ";"; return .empty) <|> ifStatement g <|> whileStatement g <|> doStatement g <|>
  forStatement g <|> foreachStatement g <|> tryStatement g <|> switchStatement g <|> markedBlock g <|>
  lockStatement g <|> holdStatement g <|> jumpStatement g <|> gotoStatement g <|> labeledStatement g <|>
  localDeclaration g <|> localFunction g <|> expressionStatement g

end Reader

/-- The rules for what is at most so deep. -/
def Grammar.upTo : Nat → Grammar
  | 0 => ⟨failure, failure, failure, failure, failure⟩
  | depth + 1 =>
    let g := upTo depth
    { expression := Reader.expression g
      operand := Reader.conditional g
      pattern := Reader.pattern g
      statement := Reader.statement g
      initializer := Reader.separated (Reader.initializerElement g) }

end CodeGraph.CSharp
