import CodeGraph.Dict
import CodeGraph.Doc.Summary
import CodeGraph.Symbol.TypeRef

namespace CodeGraph.Doc

open CodeGraph.Text

/-!
# Documentation files

A documentation file lists descriptions under the identifiers of types (`T:N.Foo`) and members
(`M:N.Foo.Bar(System.String)`).
-/

/-- The described members of a documentation file under their identifiers; of two under one
identifier the later counts. -/
def parseFile? (text : String) : Option (Dict String) :=
  (Xml.parse? text).map fun root =>
    (root.descendants.filter (·.isNamed "member")).foldl
      (fun entries member =>
        match member.attribute? "name", summarizeElement member with
        | some id, some description => entries.insert id description
        | _, _ => entries)
      .empty

/-- Identifier of a type, as it stands behind `T:`. -/
def typeId (ns : String) (nesting : List String) : String :=
  let chain := joinWith "." nesting
  if ns.isEmpty then chain else ns ++ "." ++ chain

def paramIndex? (letter : Char) (name : String) : Option String :=
  match name.toList with
  | c :: digits =>
    if c = letter ∧ digits ≠ [] ∧ digits.all Char.isDigit then some (.ofList digits) else none
  | [] => none

mutual

def paramId : TypeRef → String
  | .named ⟨_, ns, nesting, args, _⟩ =>
    match paramIds args with
    | [] => typeId ns nesting
    | ids =>
      typeId ns <| nesting.dropLast ++ nesting.getLast?.toList.map fun raw =>
        before (· == Name.tick) raw ++ "\x7b" ++ joinWith "," ids ++ "\x7d"
  | .array element => paramId element ++ "[]"
  | .pointer target => paramId target ++ "*"
  | .byRef target => paramId target ++ "@"
  | .param name =>
    match paramIndex? 'M' name, paramIndex? 'T' name with
    | some index, _ => "\x60\x60" ++ index
    | none, some index => "\x60" ++ index
    | none, none => name

def paramIds : List TypeRef → List String
  | [] => []
  | type :: more => paramId type :: paramIds more

end

/-- Identifier of a member, as it stands behind `M:`; without parameters it has no parentheses. -/
def memberId (owner name : String) (genericCount : Nat) (params : List TypeRef) : String :=
  let name := owner ++ "." ++ replace "." "#" name
  let name := if genericCount > 0 then name ++ "\x60\x60" ++ toString genericCount else name
  if params.isEmpty then name else name ++ "(" ++ joinWith "," (paramIds params) ++ ")"

end CodeGraph.Doc
