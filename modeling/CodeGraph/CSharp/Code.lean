import CodeGraph.CSharp.WrittenType

namespace CodeGraph.CSharp

open CodeGraph.Text

/-!
# What a body says

The code of a body as a tree that keeps what tells its references: names, calls, creations, the
expressions whose type can be told, and the declarations of locals. Every other construct is the
sequence of its parts in the order written.
-/

structure Parameter where
  name : String
  /-- Type as written; a lambda may leave it out. -/
  type : Option String
  modifiers : List String
  row : Nat
  deriving Repr, Inhabited

structure Parameters where
  ordinary : List Parameter
  /-- The parameter that gathers the remaining arguments. -/
  gathering : Option String
  deriving Repr, Inhabited

namespace Parameters

def none : Parameters :=
  ⟨[], .none⟩

end Parameters

/-- A statement, an expression or a pattern. An argument is the list of its named parts: its name,
if one is written, and its expression. -/
inductive Code where
  | name (text : String)
  | genericName (text : String) (name : String) (arguments : List String)
  | typeName (text : String)
  /-- A literal of a core type; the parts are those of an interpolated string. -/
  | literal (type : String) (parts : List Code)
  /-- The current instance; it is no part by itself. -/
  | current
  | parenthesized (inner : Code)
  /-- Access to a member; `text` is the whole as written. -/
  | member (text : String) (receiver : Code) (name : String) (arguments : List String)
  | optionalMember (receiver : Code) (name : String)
  | call (function : Code) (arguments : List (List Code))
  | element (receiver : Code) (arguments : List (List Code))
  | creation (type : String) (arguments : List (List Code)) (initializer : List Code)
  /-- A call of another constructor before a constructor's body. -/
  | otherConstructor (ofBase : Bool) (arguments : List (List Code))
  | assignment (left right : Code)
  | conversion (type : String) (value : Code)
  | awaited (value : Code)
  | lambda (parameters : Parameters) (body : Code)
  | anonymous (parameters : Parameters) (body : List Code)
  | localFunction (name : String) (parameters : Parameters) (body : List Code)
  | declaration (type : String) (declared : List (String × Option Code))
  | designation (type : String) (name : Option String)
  | foreach (type : Option String) (name : Option String) (collection body : Code)
  | caught (type : String) (name : Option String)
  | parts (codes : List Code)

namespace Code

def empty : Code :=
  .parts []

instance : Inhabited Code :=
  ⟨empty⟩

/-- The current instance has no name and does not count among the parts of an argument. -/
def isPart : Code → Bool
  | .current => false
  | _ => true

/-- A type where an expression could stand: only a plain name is taken for one. -/
def ofType (text : String) : Code :=
  if text == "var" || (keywordTypes.lookup text).isSome || !text.toList.all isTypeNameChar then empty
  else .name text
where
  isTypeNameChar (c : Char) : Bool :=
    isAlphanumeric c || c == '_' || c == '@'

end Code

end CodeGraph.CSharp
