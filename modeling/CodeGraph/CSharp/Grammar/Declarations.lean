import CodeGraph.CSharp.Grammar.Statements
import CodeGraph.CSharp.Outline

namespace CodeGraph.CSharp

namespace Reader

open CodeGraph.Text

/-!
# Reading declarations
-/

/-- Comments right above the next token, the nearest first. -/
def above : Reader (List String) :=
  fun c => some ((c.rest.head?.map (·.above)).getD [], c)

def modifierWords : List String :=
  ["public", "private", "protected", "internal", "static", "abstract", "sealed", "virtual", "override",
    "readonly", "extern", "unsafe", "new", "const", "volatile", "fixed"]

/-- Words that are modifiers only before another word or a tuple type. -/
def softModifiers : List String :=
  ["partial", "async", "required", "file"]

def modifier : Reader String := do
  let t ← takeIf (·.kind == .word)
  if modifierWords.contains t.text then return t.text
  else
    require (softModifiers.contains t.text)
    let next ← peek?
    require (next.any fun t => t.kind == .word || t.isSymbol "(")
    return t.text

/-! ## Members -/

def interfaceName? : Reader (Option String) := do
  let from_ ← start
  let parts ← many do
    let _ ← optional qualifier
    simpleName anyType
    symbol "."
  if parts.isEmpty then return none
  else return some (trim (trimEndMatches (· == '.') (trim (← textFrom from_))))

def accessor (g : Grammar) : Reader (List Code) := do
  attributes
  let _ ← many modifier
  let _ ← takeIf (·.kind == .word)
  functionBody g

def accessors (g : Grammar) : Reader (List Code) := do
  symbol "\x7b"
  let all ← many (accessor g)
  symbol "\x7d"
  return all.flatten

def arrowBody (g : Grammar) : Reader (List Code) := do
  symbol "=>"
  let e ← g.expression
  symbol ";"
  return [e]

/-- The accessors of a property with the initializer behind them, or the expression behind its
arrow. -/
def propertyBody (g : Grammar) : Reader (List Code) :=
  (do
    let read ← accessors g
    let initial ← optional do
      symbol "="
      let e ← g.expression
      symbol ";"
      return e
    return read ++ initial.toList) <|>
  arrowBody g

def otherConstructor (g : Grammar) : Reader Code := do
  symbol ":"
  let w ← takeIf fun t => t.isWord "base" || t.isWord "this"
  return .otherConstructor (w.text == "base") (← arguments g "(" ")")

/-- Names of one type, each with its line and initializer. -/
def declarators (g : Grammar) : Reader (List (Nat × String × Option Code)) :=
  someSeparated do
    let row ← row
    return (row, ← declarator g)

structure MemberHead where
  modifiers : List String
  row : Nat
  above : List String

def MemberHead.member (h : MemberHead) (form : MemberForm) (name : String) (row : Nat) : OutlineMember :=
  ⟨form, h.modifiers, none, name, none, [], .none, [], row, h.above⟩

def memberHead : Reader MemberHead := do
  let above ← above
  let row ← row
  attributes
  return ⟨← many modifier, row, above⟩

def fields (g : Grammar) (h : MemberHead) (form : MemberForm) (type : String) :
    Reader (List OutlineMember) := do
  let declared ← declarators g
  symbol ";"
  return declared.map fun (row, name, initial) =>
    { h.member form name row with type := some type, body := initial.toList }

def destructor (g : Grammar) (h : MemberHead) : Reader OutlineMember := do
  symbol "~"
  let row ← row
  let n ← name
  let params ← parameters g "(" ")"
  return { h.member .destructor n row with parameters := params, body := ← functionBody g }

def conversion (g : Grammar) (h : MemberHead) : Reader OutlineMember := do
  let w ← takeIf fun t => t.isWord "implicit" || t.isWord "explicit"
  let _ ← interfaceName?
  word "operator"
  let _ ← optional (word "checked")
  let type ← type
  let params ← parameters g "(" ")"
  return { h.member (.conversion (w.text == "implicit")) "" h.row with
    type := some type, parameters := params, body := ← functionBody g }

def events (g : Grammar) (h : MemberHead) : Reader (List OutlineMember) := do
  word "event"
  let type ← type
  fields g h .eventField type <|> (do
    let interface ← interfaceName?
    let row ← row
    let n ← name
    let body ← accessors g <|> (do symbol ";"; return [])
    return [{ h.member .event n row with interface, type := some type, body }])

def constructor (g : Grammar) (h : MemberHead) : Reader OutlineMember := do
  let row ← row
  let n ← name
  let params ← parameters g "(" ")"
  let other ← optional (otherConstructor g)
  let body ← functionBody g
  return { h.member .constructor n row with parameters := params, body := other.toList ++ body }

def operatorMember (g : Grammar) (h : MemberHead) (type : String) : Reader OutlineMember := do
  let _ ← interfaceName?
  word "operator"
  let _ ← optional (word "checked")
  let symbol ← textOf (many (takeIf fun t => !t.isSymbol "("))
  let params ← parameters g "(" ")"
  return { h.member (.operator (trim symbol)) "" h.row with
    type := some type, parameters := params, body := ← functionBody g }

def indexer (g : Grammar) (h : MemberHead) (type : String) : Reader OutlineMember := do
  let interface ← interfaceName?
  word "this"
  let params ← parameters g "[" "]"
  return { h.member .indexer "" h.row with
    interface, type := some type, parameters := params, body := ← propertyBody g }

def method (g : Grammar) (h : MemberHead) (type : String) : Reader OutlineMember := do
  let interface ← interfaceName?
  let row ← row
  let n ← name
  let typeParams ← optional typeParameters
  let params ← parameters g "(" ")"
  constraints
  return { h.member .method n row with
    interface, type := some type, typeParams := typeParams.getD [], parameters := params
    body := ← functionBody g }

def property (g : Grammar) (h : MemberHead) (type : String) : Reader OutlineMember := do
  let interface ← interfaceName?
  let row ← row
  let n ← name
  return { h.member .property n row with interface, type := some type, body := ← propertyBody g }

def members (g : Grammar) : Reader (List OutlineMember) := do
  let h ← memberHead
  let one := fun (r : Reader OutlineMember) => do return [← r]
  one (destructor g h) <|> one (conversion g h) <|> events g h <|> one (constructor g h) <|> (do
    let type ← type
    one (operatorMember g h type) <|> one (indexer g h type) <|> one (method g h type) <|>
      one (property g h type) <|> fields g h .field type)

def enumMember (g : Grammar) : Reader OutlineMember := do
  let h ← memberHead
  let row ← row
  let n ← name
  if ← hasSymbol "=" then
    let _ ← g.expression
  return h.member .enumMember n row

/-! ## Types and namespaces -/

/-- The tokens behind the end of a part that depends on a condition. -/
def dropChoice : Nat → List Token → List Token
  | _, [] => []
  | depth, t :: rest =>
    if t.kind != .choice then dropChoice depth rest
    else if directiveName t.text = "if" then dropChoice (depth + 1) rest
    else if directiveName t.text = "endif" then
      if depth ≤ 1 then rest else dropChoice (depth - 1) rest
    else dropChoice depth rest

/-- Declarations that depend on a condition are left out. -/
def conditionalPart : Reader Unit := do
  let t ← takeIf (·.kind == .choice)
  if directiveName t.text = "if" then
    fun c => some ((), { c with rest := dropChoice 1 c.rest })

def bases : Reader (List String) := do
  symbol ":"
  someSeparated do
    let type ← type
    let _ ← optional (group "(")
    return type

def typeForm : Reader TypeForm :=
  (do word "class"; return .classType) <|> (do word "struct"; return .structType) <|>
  (do word "interface"; return .interface) <|>
  (do
    word "record"
    if ← hasWord "struct" then return .structType
    else
      let _ ← hasWord "class"
      require (← wouldRead name)
      return .record)

def delegateType (g : Grammar) (h : MemberHead) : Reader OutlineType := do
  word "delegate"
  require !(← atSymbol "*")
  let _ ← type
  let row ← row
  let n ← name
  let typeParams ← optional typeParameters
  let params ← parameters g "(" ")"
  constraints
  symbol ";"
  return ⟨.delegate, h.modifiers, n, typeParams.getD [], some params, [], row, h.above⟩

def enumType (g : Grammar) (h : MemberHead) : Reader (OutlineType × List OutlineMember) := do
  word "enum"
  let row ← row
  let n ← name
  let _ ← optional bases
  symbol "\x7b"
  let members ← many (do
    let _ ← many conditionalPart
    let m ← enumMember g
    let _ ← hasSymbol ","
    return m)
  let _ ← many conditionalPart
  symbol "\x7d"
  let _ ← hasSymbol ";"
  return (⟨.enum, h.modifiers, n, [], none, [], row, h.above⟩, members)

def typeHead (g : Grammar) (h : MemberHead) : Reader OutlineType := do
  let _ ← optional (do
    word "ref"
    many modifier)
  let form ← typeForm
  let row ← row
  let n ← name
  let typeParams ← optional typeParameters
  let params ← optional (parameters g "(" ")")
  let bases ← optional bases
  constraints
  return ⟨form, h.modifiers, n, typeParams.getD [], params, bases.getD [], row, h.above⟩

def usingDirective : Reader Using := do
  let isGlobal ← hasWord "global"
  word "using"
  let isStatic ← hasWord "static"
  let _ ← hasWord "unsafe"
  let alias? ← optional do
    let n ← name
    symbol "="
    return n
  let target ← type
  symbol ";"
  return ⟨isGlobal,
    match alias? with
    | some n => .alias n target
    | none => if isStatic then .static target else .namespacePart target⟩

def externAlias : Reader Unit := do
  word "extern"
  word "alias"
  let _ ← name
  symbol ";"

def moduleAttributes : Reader Unit := do
  let _ ← wouldRead (do
    symbol "["
    let _ ← takeIf (·.kind == .word)
    symbol ":") >>= require
  group "["

/-- Items up to a closing brace or the end. Statements outside of types declare nothing. The first
argument bounds the depth. -/
def itemsUpTo (g : Grammar) : Nat → (inType : Bool) → Reader (List OutlineItem)
  | 0, _ => return []
  | depth + 1, inType => do
    let items ← many <|
      (do conditionalPart; return []) <|>
      (do return [.using (← usingDirective)]) <|>
      (do externAlias; return []) <|>
      namespaceItem (itemsUpTo g depth false) <|>
      (do if inType then failure else moduleAttributes; return []) <|>
      typeItem (itemsUpTo g depth true) <|>
      (if inType then do return (← members g).map .member else do let _ ← g.statement; return []) <|>
      (do
        require !(← atSymbol "\x7d")
        let _ ← take
        return [])
    return items.flatten
where
  namespaceItem (inside : Reader (List OutlineItem)) : Reader (List OutlineItem) := do
    word "namespace"
    let n ← textOf (dottedName anyType)
    if ← hasSymbol ";" then return [.fileNamespace n]
    else
      symbol "\x7b"
      let items ← inside
      symbol "\x7d"
      let _ ← hasSymbol ";"
      return [.namespacePart n items]
  typeItem (inside : Reader (List OutlineItem)) : Reader (List OutlineItem) := do
    let h ← memberHead
    (do return [.type (← delegateType g h) []]) <|>
    (do
      let (type, members) ← enumType g h
      return [.type type (members.map .member)]) <|>
    (do
      let type ← typeHead g h
      let items ← (do
        symbol "\x7b"
        let items ← inside
        symbol "\x7d"
        let _ ← hasSymbol ";"
        return items) <|> (do symbol ";"; return [])
      return [.type type items])

end Reader

def SourceFile.read (path text : String) : SourceFile :=
  let chars := text.toList
  let tokens := tokens chars
  let depth := tokens.length + 1
  match Reader.itemsUpTo (.upTo depth) depth false ⟨chars.toArray, tokens, 0⟩ with
  | some (items, _) => ⟨path, items⟩
  | none => ⟨path, []⟩

end CodeGraph.CSharp
