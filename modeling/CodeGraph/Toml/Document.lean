import CodeGraph.Toml.Value

namespace CodeGraph.Toml

open CodeGraph.Text

/-!
# Documents

A document begins with entries of its own and goes on with tables, each under a header. A header in two
brackets opens one more element of an array of tables.
-/

structure Table where
  header : List String
  isArray : Bool
  entries : Entries
  deriving Repr, Inhabited

structure Document where
  entries : Entries
  tables : List Table
  deriving Repr, Inhabited

namespace Document

def empty : Document :=
  ⟨[], []⟩

def put? (d : Document) (path : List String) (v : Value) : Option Document :=
  match d.tables.getLast? with
  | none => (Entries.put? path v d.entries).map fun entries => { d with entries }
  | some table => (Entries.put? path v table.entries).map fun entries =>
    { d with tables := d.tables.dropLast ++ [{ table with entries }] }

/-! ## Headers that do not go together -/

def isBelow (outer inner : List String) : Bool :=
  outer.isPrefixOf inner && outer != inner

/-- The earlier tables, the last one first, that lie in the same element of every array of tables
around a header. -/
def inElement (header : List String) (earlier : List Table) : List Table :=
  earlier.takeWhile fun t => !(t.isArray && isBelow t.header header)

/-- The table repeats an earlier one, or it opens an array of tables behind tables that lie in it. -/
def isMisplaced (earlier : List Table) (t : Table) : Bool :=
  let scope := inElement t.header earlier
  scope.any (fun e => e.header == t.header && !(e.isArray && t.isArray)) ||
    (t.isArray && !scope.any (·.header == t.header) && scope.any (isBelow t.header ·.header))

def hasMisplaced : (earlier : List Table) → List Table → Bool
  | _, [] => false
  | earlier, t :: more => isMisplaced earlier t || hasMisplaced (t :: earlier) more

def isConsistent (d : Document) : Bool :=
  !hasMisplaced [] d.tables

end Document

namespace Reader

/-- The end of a line, before which a comment may stand. -/
def lineRest : Reader Unit := do
  skipSpaces
  if !(← eatComment) then lineEnd

def header : Reader Table := do
  expect '['
  let isArray ← eat '['
  skipSpaces
  let path ← dottedKey
  expect ']'
  if isArray then expect ']'
  lineRest
  return ⟨path, isArray, []⟩

/-- The lines of a document, at most so many, behind those that are read. -/
def documentLines : Nat → Document → Reader Document
  | 0, _ => failure
  | more + 1, d => do
    skipLines
    match ← peek? with
    | none => return d
    | some '[' => do
      let table ← header
      documentLines more { d with tables := d.tables ++ [table] }
    | some _ => do
      let (path, v) ← keyValue value
      lineRest
      documentLines more (← d.put? path v)

end Reader

/-- Carriage returns before line feeds are dropped. -/
def unifyLineBreaks : Chars → Chars
  | '\r' :: '\n' :: r => '\n' :: unifyLineBreaks r
  | c :: r => c :: unifyLineBreaks r
  | [] => []

/-- The text without the mark that may begin it. -/
def dropMark : Chars → Chars
  | '\uFEFF' :: r => r
  | s => s

def Document.parse? (text : String) : Option Document := do
  let s := dropMark (unifyLineBreaks text.toList)
  let (d, _) ← Reader.documentLines (s.length + 1) .empty s
  if d.isConsistent then return d else none

end CodeGraph.Toml
