import CodeGraph.Xml.Token

namespace CodeGraph.Xml

open CodeGraph.Text

/-!
# Element trees

A document without a type declaration is read into the tree of its elements and texts. Text and
character-data sections that stand side by side make one text node. Only attributes outside every
name space are kept, because nothing else is looked up.
-/

inductive Node where
  | element (name : String) (attributes : List (String × String)) (children : List Node)
  | text (value : String)
  | comment
  | instruction
  deriving Repr, Inhabited

/-- The name spaces in force: slots and the addresses bound to them, the innermost first. -/
abbrev Scope := List (Chars × String)

def reservedAddress (path : String) : String :=
  joinWith "/" ["http:", "", "www.w3.org", path]

def xmlAddress : String := reservedAddress "XML/1998/namespace"

def xmlnsAddress : String := reservedAddress "2000/xmlns/"

def xmlSlot : Chars := ['x', 'm', 'l']

def xmlnsSlot : Chars := ['x', 'm', 'l', 'n', 's']

/-- The bindings that a start tag declares; the reserved names have to keep their addresses, and no
slot is bound twice. -/
def declared? : List (QName × String) → Scope → Option Scope
  | [], own => some own
  | (name, value) :: more, own =>
    if name.space = xmlnsSlot then
      if value = xmlnsAddress ∨ (name.name = xmlSlot ↔ value ≠ xmlAddress) then none
      else if own.any (·.1 = name.name) then none
      else declared? more (if value = xmlAddress then own else (name.name, value) :: own)
    else if name.name = xmlnsSlot then
      if value = xmlAddress ∨ value = xmlnsAddress then none
      else declared? more (own ++ [([], value)])
    else declared? more own

/-- The address of a slot. The empty slot may be unbound. -/
def address? (scope : Scope) (slot : Chars) : Option (Option String) :=
  if slot = xmlSlot then some (some xmlAddress)
  else
    match scope.lookup slot with
    | some address => some (some address)
    | none => if slot.isEmpty then some none else none

/-- The attributes that declare no name space, each with its address; none stands twice. -/
def resolved? (scope : Scope) : List (QName × String) → Option (List (Option String × Chars × String))
  | [] => some []
  | (name, value) :: more => do
    let rest ← resolved? scope more
    if name.space = xmlnsSlot ∨ name.name = xmlnsSlot then some rest
    else
      let address ← if name.space.isEmpty then some none else address? scope name.space
      if rest.any fun (a, n, _) => a == address && n == name.name then none
      else some ((address, name.name, value) :: rest)

/-- An element whose end tag is still to come: its name as written, what is kept of it, its
children so far (the last first) and the name spaces around its content. -/
structure Open where
  tag : QName
  attributes : List (String × String)
  children : List Node
  scope : Scope

def addChild (children : List Node) (afterText : Bool) (node : Node) : List Node :=
  match node, children with
  | .text new, .text old :: before => if afterText then .text (old ++ new) :: before else node :: children
  | _, _ => node :: children

/-- Reads content until the outermost open element ends; gives it and what follows. -/
def elementFrom : Nat → Open → List Open → (afterText : Bool) → Chars → Option (Node × Chars)
  | 0, _, _, _, _ => none
  | steps + 1, inner, outer, afterText, s => do
    let (token, rest) ← content? s
    match token with
    | .text value =>
      let children := addChild inner.children afterText (.text (.ofList value))
      elementFrom steps { inner with children } outer true rest
    | .comment =>
      elementFrom steps { inner with children := .comment :: inner.children } outer false rest
    | .instruction =>
      elementFrom steps { inner with children := .instruction :: inner.children } outer false rest
    | .start tag written closed =>
      let child ← opened? tag written inner.scope
      if closed then
        let node := Node.element (.ofList tag.name) child.attributes []
        elementFrom steps { inner with children := node :: inner.children } outer false rest
      else elementFrom steps child (inner :: outer) false rest
    | .stop tag =>
      if tag = inner.tag then
        let node := Node.element (.ofList tag.name) inner.attributes inner.children.reverse
        match outer with
        | [] => some (node, rest)
        | above :: outer =>
          elementFrom steps { above with children := node :: above.children } outer false rest
      else none
where
  opened? (tag : QName) (written : List (QName × String)) (scope : Scope) : Option Open := do
    if tag.space = xmlnsSlot then none
    else
      let scope := (← declared? written []) ++ scope
      let attributes ← resolved? scope written
      let _ ← address? scope tag.space
      some ⟨tag, attributes.filterMap fun (a, n, v) => if a.isNone then some (.ofList n, v) else none, [],
        scope⟩

def misc? : Nat → Chars → Option Chars
  | 0, s => some s
  | steps + 1, s =>
    match s.dropWhile isSpace with
    | '<' :: '!' :: '-' :: '-' :: r => (comment? r).bind (misc? steps)
    | '<' :: '?' :: r => (instruction? r).bind (misc? steps)
    | rest => some rest

/-- An attribute of the document's own declaration, when it stands there, and the white space that
has to follow it. -/
def declarationPart? (name : String) (needed : Bool) (s : Chars) : Option Chars :=
  if (Chars.dropPrefix? name.toList s).isSome then do
    let (_, _, rest) ← attribute? s
    if rest.head?.any isSpace || rest.isEmpty || (Chars.dropPrefix? ['?', '>'] rest).isSome then
      some (rest.dropWhile isSpace)
    else none
  else if needed then none
  else some s

/-- What follows the document's own declaration; a document may have none. -/
def afterDeclaration? (s : Chars) : Option Chars :=
  match Chars.dropPrefix? "<?xml ".toList s with
  | none => some s
  | some r => do
    let r ← declarationPart? "version" true (r.dropWhile isSpace)
    let r ← declarationPart? "encoding" false r
    let r ← if (Chars.dropPrefix? "standalone".toList r).isSome then
        (attribute? r).map fun (_, _, rest) => rest
      else some r
    Chars.dropPrefix? ['?', '>'] (r.dropWhile isSpace)

def parse? (text : String) : Option Node := do
  let s := text.toList
  let s := if s.head? = some '\uFEFF' then s.drop 1 else s
  let s ← afterDeclaration? s
  let s ← misc? (s.length + 1) s
  match ← content? s with
  | (.start tag written closed, rest) =>
    let root ← elementFrom.opened? tag written []
    let (node, rest) ←
      if closed then some (Node.element (.ofList tag.name) root.attributes [], rest)
      else elementFrom (rest.length + 1) root [] false rest
    if (← misc? (rest.length + 1) rest).isEmpty then some node else none
  | _ => none

namespace Node

def children : Node → List Node
  | element _ _ children => children
  | _ => []

def isNamed (name : String) : Node → Bool
  | element n _ _ => n == name
  | _ => false

def attribute? (name : String) : Node → Option String
  | element _ attributes _ => attributes.lookup name
  | _ => none

/-- The text of an element's first child, when that is a text node. -/
def firstText? (node : Node) : Option String :=
  match node.children with
  | text value :: _ => some value
  | _ => none

mutual

def descendants : Node → List Node
  | element name attributes children =>
    element name attributes children :: descendantsOf children
  | node => [node]

def descendantsOf : List Node → List Node
  | [] => []
  | node :: more => node.descendants ++ descendantsOf more

end

end Node

end CodeGraph.Xml
