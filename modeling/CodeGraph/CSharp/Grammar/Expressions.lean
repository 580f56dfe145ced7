import CodeGraph.CSharp.Code
import CodeGraph.CSharp.Grammar.Names

namespace CodeGraph.CSharp

open CodeGraph.Text

/-!
# Reading expressions

Expressions, patterns and statements contain each other. A rule therefore takes the rules for what it
contains as an argument, and the rules of each depth are made from those of the depth below.
-/

/-- The rules for what may stand inside an expression, a pattern or a statement. -/
structure Grammar where
  expression : Reader Code
  /-- An expression that is no assignment, no lambda and no query. -/
  operand : Reader Code
  pattern : Reader Code
  statement : Reader Code
  initializer : Reader (List Code)

def numberType (text : String) : String :=
  let text := lowerAscii text
  let hex := startsWith "0x" text
  if endsWith "ul" text || endsWith "lu" text then "UInt64"
  else if endsWith "l" text then "Int64"
  else if endsWith "u" text then "UInt32"
  else if endsWith "m" text then "Decimal"
  else if !hex && endsWith "f" text then "Single"
  else if !hex && (endsWith "d" text || contains "." text || contains "e" text) then "Double"
  else "Int32"

namespace Reader

/-! ## Parameters and arguments -/

def parameterWords : List String :=
  ["this", "ref", "out", "in", "readonly", "scoped", "params"]

def attributes : Reader Unit := do
  let _ ← many (group "[")

/-- A parameter, and whether it gathers the remaining arguments. -/
def parameter (g : Grammar) : Reader (Parameter × Bool) := do
  let row ← row
  attributes
  let modifiers ← many (takeIf fun t => t.kind == .word && parameterWords.contains t.text)
  let modifiers := modifiers.map (·.text)
  let typed ← optional do
    let type ← type
    return (type, ← name)
  let (type, name) ← match typed with
    | some (type, name) => pure (some type, name)
    | none => pure (none, ← name)
  if ← hasSymbol "=" then
    let _ ← g.expression
  return (⟨name, type, modifiers, row⟩, modifiers.contains "params")

def parameters (g : Grammar) (opening closing : String) : Reader Parameters := do
  symbol opening
  let all ← separated (parameter g)
  symbol closing
  return {
    ordinary := (all.filter (! ·.2)).map (·.1)
    gathering := (all.find? (·.2)).map (·.1.name) }

def declaredArgument : Reader Code := do
  let type ← type
  let name ← name
  let next ← peek?
  require (next.any fun t => t.isSymbol "," || t.isSymbol ")")
  return .designation type (some name)

def argument (g : Grammar) : Reader (List Code) := do
  let label ← optional do
    let n ← name
    symbol ":"
    return Code.name n
  let _ ← many (word "ref" <|> word "out" <|> word "in")
  let value ← declaredArgument <|> g.expression
  return (label.toList ++ [value]).filter (·.isPart)

def arguments (g : Grammar) (opening closing : String) : Reader (List (List Code)) := do
  symbol opening
  let all ← separated (argument g)
  symbol closing
  return all

/-! ## Expressions that begin with their own mark -/

def hole (g : Grammar) : Reader (List Code) := do
  let _ ← takeIf fun t => t.kind == .symbol && startsWith "\x7b" t.text
  let value ← g.expression
  let alignment ← optional do symbol ","; g.expression
  let _ ← takeIf fun t => t.kind == .symbol && startsWith "\x7d" t.text
  return value :: alignment.toList

def literal (g : Grammar) : Reader Code := do
  let t ← take
  match t.kind with
  | .number => return .literal (numberType t.text) []
  | .character => return .literal "Char" []
  | .string => return .literal "String" []
  | .opening => do
    let holes ← many (hole g)
    let _ ← takeIf (·.kind == .closing)
    return .literal "String" holes.flatten
  | .word =>
    if t.text = "true" ∨ t.text = "false" then return .literal "Boolean" []
    else if t.text = "null" then return .empty
    else failure
  | _ => failure

def braced (g : Grammar) : Reader (List Code) := do
  symbol "\x7b"
  let codes ← g.initializer
  symbol "\x7d"
  return codes

/-- An element of an initializer: a nested one, an assignment to a member or to an indexed element, or
an expression. -/
def initializerElement (g : Grammar) : Reader Code :=
  (do return .parts (← braced g)) <|>
  (do
    let n ← name
    symbol "="
    return .assignment (.name n) (.parts (← braced g))) <|>
  (do
    let index ← arguments g "[" "]"
    symbol "="
    let value ← (do return .parts (← braced g)) <|> g.expression
    return .assignment (.parts index.flatten) value) <|>
  g.expression

def anonymousMember (g : Grammar) : Reader (List Code) := do
  let label ← optional do
    let n ← name
    symbol "="
    return Code.name n
  return label.toList ++ [← g.expression]

/-- A creation: of an anonymous object, of an array, or of a type that is written or left out. -/
def creation (g : Grammar) : Reader Code := do
  word "new"
  if ← hasSymbol "\x7b" then
    let members ← separated (anonymousMember g)
    symbol "\x7d"
    return .parts members.flatten
  else if ← atSymbol "[" then
    group "["
    return .parts (← braced g)
  else if (← atSymbol "(") && !(← wouldRead do tupleType anyType; symbol "[" <|> symbol "(") then
    let arguments ← arguments g "(" ")"
    let initializer ← optional (braced g)
    return .parts (arguments.flatten ++ initializer.getD [])
  else
    let type ← textOf do
      unmarkedType anyType
      many (symbol "*" <|> symbol "?")
    if ← atSymbol "[" then
      let _ ← many (group "[")
      let initializer ← optional (braced g)
      return .parts (initializer.getD [])
    else
      let arguments ← optional (arguments g "(" ")")
      let initializer ← optional (braced g)
      require (arguments.isSome || initializer.isSome)
      return .creation type (arguments.getD []) (initializer.getD [])

def stackArray (g : Grammar) : Reader Code := do
  word "stackalloc"
  let _ ← optional (unmarkedType anyType)
  let _ ← many (group "[")
  let initializer ← optional (braced g)
  return .parts (initializer.getD [])

def anonymousMethod (g : Grammar) : Reader Code := do
  let _ ← many (word "async" <|> word "static")
  word "delegate"
  let params ← optional (parameters g "(" ")")
  let _ ← wouldRead (symbol "\x7b") >>= require
  return .anonymous (params.getD .none) [← g.statement]

/-- A type in parentheses after a word, which holds no references. -/
def typeOperator : Reader Code := do
  let w ← takeIf fun t => t.isWord "typeof" || t.isWord "sizeof" || t.isWord "default"
  if w.text = "default" then
    let _ ← optional (group "(")
  else
    group "("
  return .empty

def checkedExpression (g : Grammar) : Reader Code := do
  word "checked" <|> word "unchecked"
  symbol "("
  let value ← g.expression
  symbol ")"
  return .parts [value]

def collection (g : Grammar) : Reader Code := do
  symbol "["
  let elements ← separated do
    let _ ← hasSymbol ".."
    g.expression
  symbol "]"
  return .parts elements

def namedExpression : Reader Code := do
  let from_ ← start
  let n ← name
  match ← expressionArguments? with
  | some arguments => return .genericName (← textFrom from_) n arguments
  | none => return .name n

/-- A name behind a qualifier: both count as names. -/
def qualifiedExpression : Reader Code := do
  let outer ← qualifier
  return .parts [.name outer, ← namedExpression]

def parenthesized (g : Grammar) : Reader Code := do
  match ← arguments g "(" ")" with
  | [] => failure
  | [[]] => return .parenthesized .current
  | [[value]] => return .parenthesized value
  | all => return .parts all.flatten

def primary (g : Grammar) : Reader Code :=
  literal g <|>
  (do word "this" <|> word "base"; return .current) <|>
  creation g <|> stackArray g <|> anonymousMethod g <|> typeOperator <|> checkedExpression g <|>
  (do return .typeName (← textOf keywordType)) <|>
  qualifiedExpression <|> namedExpression <|> parenthesized g <|> collection g

/-! ## Operators -/

/-- What follows an expression and binds closest: members, calls, elements and marks. -/
def suffix (g : Grammar) (from_ : Nat) (e : Code) : Reader Code :=
  (do
    symbol "." <|> symbol "->"
    let n ← name
    let arguments ← expressionArguments?
    return .member (← textFrom from_) e n (arguments.getD [])) <|>
  (do return .call e (← arguments g "(" ")")) <|>
  (do return .element e (← arguments g "[" "]")) <|>
  (do symbol "++" <|> symbol "--" <|> symbol "!"; return .parts [e])

def suffixed (g : Grammar) : Reader Code := do
  let from_ ← start
  extend (suffix g from_) (← primary g)

/-- A type in parentheses before a value. Where both a type and a value could stand in the
parentheses, only what cannot continue a value makes it a type. -/
def castType : Reader String := do
  symbol "("
  let written ← type
  symbol ")"
  let next ← peek?
  let certain := (keywordTypes.lookup written).isSome || endsWith "]" written || endsWith "?" written ||
    endsWith "*" written
  require (next.any fun t =>
    beginsOperand t && (certain || t.kind != .symbol || ["(", "!", "~"].contains t.text))
  return written

def signs : List String :=
  ["+", "-", "!", "~", "++", "--", "&", "*", "^"]

def unaryUpTo (g : Grammar) : Nat → Reader Code
  | 0 => failure
  | more + 1 =>
    (do
      let _ ← takeIf fun t => t.kind == .symbol && signs.contains t.text
      return .parts [← unaryUpTo g more]) <|>
    (do
      symbol ".."
      return .parts (← optional (unaryUpTo g more)).toList) <|>
    (do
      word "await"
      let next ← peek?
      require (next.any beginsOperand)
      return .awaited (← unaryUpTo g more)) <|>
    (do word "throw"; return .parts [← g.expression]) <|>
    (do word "ref"; return .parts [← unaryUpTo g more]) <|>
    (do
      let type ← castType
      return .conversion type (← unaryUpTo g more)) <|>
    suffixed g

def switchArm (g : Grammar) : Reader (List Code) := do
  let pattern ← g.pattern
  let guard ← optional do word "when"; g.operand
  symbol "=>"
  return pattern :: guard.toList ++ [← g.expression]

/-- The choice between patterns or the changes made to a copy that follow an expression. -/
def choiceOrChange (g : Grammar) (e : Code) : Reader Code :=
  (do
    word "switch"
    symbol "\x7b"
    let arms ← separated (switchArm g)
    symbol "\x7d"
    return .parts (e :: arms.flatten)) <|>
  (do
    word "with"
    symbol "\x7b"
    let changes ← separated (anonymousMember g)
    symbol "\x7d"
    return .parts (e :: changes.flatten))

def unary (g : Grammar) : Reader Code := do
  let e ← fun c => unaryUpTo g c.rest.length c
  extend (choiceOrChange g) e

/-- Operators between two operands and how close they bind. -/
def operatorLevels : List (String × Nat) :=
  [("??", 3), ("||", 4), ("&&", 5), ("|", 6), ("^", 7), ("&", 8), ("==", 9), ("!=", 9), ("<", 10),
    (">", 10), ("<=", 10), (">=", 10), ("<<", 11), ("+", 12), ("-", 12), ("*", 13), ("/", 13),
    ("%", 13), ("..", 16)]

/-- The next token is the symbol, with nothing between it and the last one taken. -/
def adjoins (s : String) : Reader Bool :=
  fun c => some (c.rest.head?.any fun t => t.isSymbol s && t.start == c.stop, c)

/-- Closing angle brackets with nothing between them make a shift. -/
def rightShift : Reader Unit := do
  symbol ">"
  require (← adjoins ">")
  symbol ">"
  if ← adjoins ">" then symbol ">"
  require !(← adjoins ">=")

def operator : Reader Nat :=
  (do rightShift; return 11) <|>
  (do
    let close ← optional (symbol ">")
    match close with
    | some _ =>
      require !(← adjoins ">=")
      return 10
    | none =>
      let t ← takeIf (·.kind == .symbol)
      match operatorLevels.lookup t.text with
      | some level => return level
      | none => failure)

/-- A test that only a plain type makes. -/
def typeTest : Reader Unit := do
  require ((← testedType) != "not")
  let next ← peek?
  require (next.all fun t =>
    !t.isName || ["when", "where", "select", "orderby", "join", "let", "group", "into", "on",
      "equals", "ascending", "descending", "by"].contains t.text)
  require (next.all fun t => !(t.isSymbol "\x7b" || t.isSymbol "("))

/-- Operands joined by operators that bind at least so closely; the first argument bounds the number
of operands. -/
def binaryUpTo (g : Grammar) : Nat → Nat → Reader Code
  | 0, _ => failure
  | more + 1, least => do
    extend (fun e => operation (binaryUpTo g more) least e) (← unary g)
where
  operation (operand : Nat → Reader Code) (least : Nat) (e : Code) : Reader Code :=
    (do
      require (least ≤ 10)
      word "as"
      return .conversion (← testedType) e) <|>
    (do
      require (least ≤ 10)
      word "is"
      (do typeTest; return .parts [e]) <|> (do return .parts [e, ← g.pattern])) <|>
    (do
      let level ← operator
      require (least ≤ level)
      if level = 3 then return .parts [e, ← operand 3]
      else if level = 16 then
        let right ← optional (operand 17)
        return .parts (e :: right.toList)
      else return .parts [e, ← operand (level + 1)])

/-- The operators that may follow an expression which is complete by itself. -/
def continued (g : Grammar) (least : Nat) (e : Code) : Reader Code :=
  extend (binaryUpTo.operation g (fun level c => binaryUpTo g c.rest.length level c) least) e

def binary (g : Grammar) (least : Nat) : Reader Code :=
  fun c => binaryUpTo g (c.rest.length + 1) least c

/-- Access to a member or an element of a value that may be null. All that stands before the question
mark is the value. -/
def optionalAccess (g : Grammar) (from_ : Nat) (e : Code) : Reader Code := do
  symbol "?"
  let access ←
    (do
      symbol "."
      let n ← name
      let _ ← expressionArguments?
      return .optionalMember e n) <|>
    (do
      let arguments ← arguments g "[" "]"
      return Code.parts (e :: arguments.flatten))
  let access ← extend (suffix g from_) access
  let access ← extend (choiceOrChange g) access
  continued g 3 access

def conditional (g : Grammar) : Reader Code := do
  let from_ ← start
  let e ← extend (optionalAccess g from_) (← binary g 3)
  if ← hasSymbol "?" then
    let yes ← g.expression
    symbol ":"
    let no ← g.expression
    return .parts [e, yes, no]
  else return e

/-! ## Lambdas, queries and assignments -/

def lambdaHead (g : Grammar) : Reader Parameters := do
  attributes
  let _ ← many (word "static" <|> (do
    word "async"
    require !(← atSymbol "=>")))
  (do
    let _ ← name
    symbol "=>"
    return Parameters.none) <|>
  (do
    let _ ← wouldRead (do group "("; symbol "=>") >>= require
    let params ← parameters g "(" ")"
    symbol "=>"
    return params) <|>
  (do
    let _ ← wouldRead (do let _ ← type; group "("; symbol "=>") >>= require
    let _ ← type
    let params ← parameters g "(" ")"
    symbol "=>"
    return params)

def lambda (g : Grammar) : Reader Code := do
  let params ← lambdaHead g
  if ← atSymbol "\x7b" then return .lambda params (← g.statement)
  else return .lambda params (← g.expression)

def rangeVariable (g : Grammar) : Reader (List Code) := do
  let typed ← optional do
    let type ← type
    let n ← name
    word "in"
    return (Code.ofType type, n)
  match typed with
  | some (type, n) => return [type, .name n, ← g.expression]
  | none =>
    let n ← name
    word "in"
    return [.name n, ← g.expression]

def into : Reader (List Code) := do
  word "into"
  return [.name (← name)]

def clause (g : Grammar) : Reader (List Code) :=
  (do word "from"; rangeVariable g) <|>
  (do
    word "join"
    let range ← rangeVariable g
    word "on"
    let left ← g.expression
    word "equals"
    let right ← g.expression
    return range ++ [left, right]) <|>
  into <|>
  (do
    word "let"
    let n ← name
    symbol "="
    return [.name n, ← g.expression]) <|>
  (do word "where"; return [← g.expression]) <|>
  (do
    word "orderby"
    someSeparated do
      let e ← g.expression
      let _ ← optional (word "ascending" <|> word "descending")
      return e) <|>
  (do word "select"; return [← g.expression]) <|>
  (do
    word "group"
    let e ← g.expression
    word "by"
    return [e, ← g.expression])

def query (g : Grammar) : Reader Code := do
  word "from"
  let range ← rangeVariable g
  let clauses ← many (clause g)
  return .parts (range ++ clauses.flatten)

def assignmentOperator : Reader Unit :=
  (do
    let _ ← takeIf fun t => t.kind == .symbol &&
      ["=", "+=", "-=", "*=", "/=", "%=", "&=", "|=", "^=", "<<=", "??="].contains t.text) <|>
  (do
    symbol ">"
    let _ ← many (symbol ">")
    symbol ">=")

def assignment (g : Grammar) : Reader Code := do
  let left ← conditional g
  match ← optional assignmentOperator with
  | some _ => return .assignment left (← g.expression)
  | none => return left

def expression (g : Grammar) : Reader Code :=
  lambda g <|> query g <|> assignment g

/-! ## Patterns -/

def patternWords : List String :=
  ["and", "or", "when"]

/-- The name that a pattern gives to what it matched, if any; `_` gives none. -/
def patternName? : Reader (Option String) :=
  optional do
    let n ← name
    require (!patternWords.contains n)
    return n

/-- Names between parentheses, as deep as they go. -/
def designationsUpTo : Nat → Reader (List String)
  | 0 => failure
  | depth + 1 =>
    (do return [← name]) <|>
    (do
      symbol "("
      let all ← separated (designationsUpTo depth)
      symbol ")"
      return all.flatten)

/-- Names that count as names of the body. -/
def namesOf (l : List String) : List Code :=
  (l.filter (· != "_")).map .name

def subpattern (g : Grammar) : Reader (List Code) := do
  let label ← optional do
    let n ← extend (suffix g 0) (.name (← name))
    symbol ":"
    return n
  return label.toList ++ [← g.pattern]

def positions (g : Grammar) : Reader (List Code) := do
  symbol "("
  let all ← separated (subpattern g)
  symbol ")"
  return all.flatten

def properties (g : Grammar) : Reader (List Code) := do
  symbol "\x7b"
  let all ← separated (subpattern g)
  symbol "\x7d"
  return all.flatten

/-- A pattern that looks into a value, with the type and the name around it. -/
def recursivePattern (g : Grammar) : Reader Code := do
  let type ← optional do
    let type ← testedType
    let next ← peek?
    require (next.any fun t => t.isSymbol "(" || t.isSymbol "\x7b")
    return Code.ofType type
  let inside ← (do
    let first ← positions g
    return first ++ (← optional (properties g)).getD []) <|> properties g
  let n ← patternName?
  return .parts (type.toList ++ inside ++ namesOf n.toList)

def declarationPattern : Reader Code := do
  let type ← testedType
  let n ← name
  require (!patternWords.contains n)
  return .designation type (if n = "_" then none else some n)

def varPattern : Reader Code := do
  word "var"
  let all ← fun c => designationsUpTo c.rest.length c
  return .parts (namesOf all)

def listPattern (g : Grammar) : Reader Code := do
  symbol "["
  let all ← separated do
    if ← hasSymbol ".." then return (← optional g.pattern).toList
    else return [← g.pattern]
  symbol "]"
  let n ← patternName?
  return .parts (all.flatten ++ namesOf n.toList)

def relationalPattern (g : Grammar) : Reader Code := do
  symbol "<=" <|> symbol ">=" <|> symbol "<" <|> symbol ">"
  return .parts [← binary g 11]

/-- A pattern in parentheses, where no property and no name follows. -/
def groupedPattern (g : Grammar) : Reader Code := do
  symbol "("
  let p ← g.pattern
  symbol ")"
  let next ← peek?
  require (next.all fun t => !t.isSymbol "\x7b" && (!t.isName || patternWords.contains t.text))
  return p

def discard : Reader Code := do
  word "_"
  require !(← wouldRead (symbol "."))
  return .empty

/-- A type that may be null, which no other pattern begins with. -/
def nullableTypePattern : Reader Code := do
  require (endsWith "?" (← testedType))
  return .empty

def constantPattern (g : Grammar) : Reader Code :=
  binary g 11 <|> (do return .ofType (← testedType))

def simplePattern (g : Grammar) : Reader Code :=
  discard <|> varPattern <|> listPattern g <|> relationalPattern g <|> groupedPattern g <|>
  recursivePattern g <|> declarationPattern <|> nullableTypePattern <|> constantPattern g

/-- A pattern without the words that join patterns. -/
def negatedPattern (g : Grammar) : Reader Code := do
  let _ ← many (word "not")
  simplePattern g

def pattern (g : Grammar) : Reader Code := do
  let first ← negatedPattern g
  let more ← many do
    word "and" <|> word "or"
    negatedPattern g
  return if more.isEmpty then first else .parts (first :: more)

end Reader

end CodeGraph.CSharp
