import CodeGraph.Name.Canonical

namespace CodeGraph.Name

open CodeGraph.Text

/-!
# Displayed names and operators
-/

/-- Group of the modules outside the input. -/
def externals : String := "$Externals"

/-- Operator methods and the symbols they stand for. Among methods that share a symbol the earlier
one takes two operands. -/
def operators : List (String × String) :=
  [("op_Equality", "=="), ("op_Inequality", "!="), ("op_GreaterThanOrEqual", ">="),
   ("op_LessThanOrEqual", "<="), ("op_GreaterThan", ">"), ("op_LessThan", "<"),
   ("op_Addition", "+"), ("op_Subtraction", "-"), ("op_Multiply", "*"), ("op_Division", "/"),
   ("op_Modulus", "%"), ("op_BitwiseAnd", "&"), ("op_BitwiseOr", "|"), ("op_ExclusiveOr", "^"),
   ("op_LeftShift", "<<"), ("op_RightShift", ">>"), ("op_UnsignedRightShift", ">>>"),
   ("op_LogicalNot", "!"), ("op_OnesComplement", "~"), ("op_Increment", "++"),
   ("op_Decrement", "--"), ("op_UnaryNegation", "-"), ("op_UnaryPlus", "+"), ("op_True", "true"),
   ("op_False", "false"), ("op_Implicit", "implicit"), ("op_Explicit", "explicit")]

def operatorSymbol (name : String) : Option String :=
  operators.lookup name

def operatorMethodName (symbol : String) (paramCount : Nat) : Option String :=
  if paramCount = 1 ∧ symbol = "+" then some "op_UnaryPlus"
  else if paramCount = 1 ∧ symbol = "-" then some "op_UnaryNegation"
  else
    (operators.find? fun (method, sym) =>
      sym == symbol && method != "op_UnaryPlus" && method != "op_UnaryNegation").map (·.1)

def display (segment : String) : String :=
  let chars := segment.toList
  let head := String.ofList (chars.takeWhile (· != '('))
  let params := String.ofList (chars.dropWhile (· != '('))
  let head :=
    if head == "#ctor" then "ctor"
    else if head == "#cctor" then "cctor"
    else (operatorSymbol head).getD (String.ofList (head.toList.map fun c => if c = '*' then '.' else c))
  head ++ params

/-- Fragments that compilers put into the names of types and members of their own making. -/
def syntheticMarkers : List String :=
  ["__StaticArrayInit", "__AnonymousType", "<PrivateImplementationDetails>", "__DisplayClass", "$VB$"]

/-- The name shows that a compiler made it. -/
def isGenerated (name : String) : Bool :=
  startsWith "<" name || contains "<>" name || syntheticMarkers.any (contains · name)

end CodeGraph.Name
