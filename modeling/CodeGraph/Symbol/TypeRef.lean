import CodeGraph.Name.Display

namespace CodeGraph

/-!
# Types at the places that mention them
-/

/-- A named type over a kind of argument. -/
structure Named (α : Type) where
  /-- The module that holds the type; none when the reference could not be followed at all. -/
  owner : Option String
  ns : String
  /-- Raw names from the outermost declaring type down to this one. -/
  nesting : List String
  args : List α
  /-- The definition, when it lies in the module being read. -/
  handle : Option Nat
  deriving Repr, Inhabited

inductive TypeRef where
  | named (type : Named TypeRef)
  | array (element : TypeRef)
  | pointer (target : TypeRef)
  | byRef (target : TypeRef)
  /-- A generic parameter under the name it is shown by. -/
  | param (name : String)
  deriving Repr, Inhabited

abbrev NamedType := Named TypeRef

def exportKey (ns : String) (nesting : List String) : String :=
  Name.join ns (Text.joinWith "." nesting)

namespace Named

variable {α : Type}

def simple (owner : Option String) (ns name : String) : Named α :=
  ⟨owner, ns, [name], [], none⟩

def key (t : Named α) : String :=
  exportKey t.ns t.nesting

def name (t : Named α) : String :=
  t.nesting.getLast?.getD ""

def isGenerated (t : Named α) : Bool :=
  t.nesting.any Name.isGenerated

def isTopLevel (t : Named α) (ns name : String) : Bool :=
  t.ns == ns && t.nesting == [name]

end Named

namespace TypeRef

mutual

def display : TypeRef → String
  | named type => displayNamed type
  | array element => display element ++ "[]"
  | pointer target => display target ++ "*"
  | byRef target => display target ++ "&"
  | param name => name

def displayNamed : Named TypeRef → String
  | ⟨_, _, nesting, args, _⟩ =>
    let raw := nesting.getLast?.getD ""
    match displayAll args with
    | [] => Name.canonicalize raw
    | shown => Text.before (· == Name.tick) raw ++ "<" ++ Text.joinWith "," shown ++ ">"

def displayAll : List TypeRef → List String
  | [] => []
  | type :: more => display type :: displayAll more

end

/-- The named type under any array, pointer or reference marks. -/
def asNamed? : TypeRef → Option NamedType
  | named type => some type
  | array element => element.asNamed?
  | pointer target => target.asNamed?
  | byRef target => target.asNamed?
  | param _ => none

def size : TypeRef → Nat
  | named ⟨_, _, _, args, _⟩ => 1 + sizeAll args
  | array t => 1 + size t
  | pointer t => 1 + size t
  | byRef t => 1 + size t
  | param _ => 1
where
  sizeAll : List TypeRef → Nat
    | [] => 0
    | t :: more => size t + sizeAll more

def stackSize : List (TypeRef × Bool) → Nat
  | [] => 0
  | (t, _) :: more => size t + stackSize more

def pushArgs : List TypeRef → List (TypeRef × Bool) → List (TypeRef × Bool)
  | [], rest => rest
  | t :: more, rest => (t, true) :: pushArgs more rest

theorem stackSize_pushArgs (args : List TypeRef) (rest : List (TypeRef × Bool)) :
    stackSize (pushArgs args rest) = size.sizeAll args + stackSize rest := by
  induction args with
  | nil => simp [size.sizeAll, pushArgs]
  | cons a args ih => simp [stackSize, size.sizeAll, pushArgs, ih, Nat.add_assoc]

/-- The named types of a stack of types, each followed by those in its arguments; the flag tells
those that stand in some argument list. -/
def namedTypesFrom : List (TypeRef × Bool) → List (NamedType × Bool)
  | [] => []
  | (named type, inArg) :: rest =>
    (type, inArg) :: namedTypesFrom (pushArgs type.args rest)
  | (array t, inArg) :: rest => namedTypesFrom ((t, inArg) :: rest)
  | (pointer t, inArg) :: rest => namedTypesFrom ((t, inArg) :: rest)
  | (byRef t, inArg) :: rest => namedTypesFrom ((t, inArg) :: rest)
  | (param _, _) :: rest => namedTypesFrom rest
termination_by stack => stackSize stack
decreasing_by
  all_goals simp only [stackSize, size, stackSize_pushArgs]
  all_goals omega

def namedTypes (t : TypeRef) : List (NamedType × Bool) :=
  namedTypesFrom [(t, false)]

end TypeRef

end CodeGraph
