import CodeGraph.Name.Canonical

namespace CodeGraph.CSharp

open CodeGraph.Text

/-!
# Types as they are written

A written type is read from its text into a tree. Nullable marks, ranks of arrays, element names of
tuples and qualifiers before `::` leave no trace in it.
-/

/-- One part of a dotted name over a kind of argument. -/
structure Segment (α : Type) where
  name : String
  args : List α
  deriving Repr, Inhabited

inductive WrittenType where
  /-- A keyword type under its name in the core library. -/
  | keyword (name : String)
  | named (segments : List (Segment WrittenType))
  | array (element : WrittenType)
  | pointer (target : WrittenType)
  | byRef (target : WrittenType)
  | tuple (elements : List WrittenType)
  /-- The initializer gives the type. -/
  | inferred
  deriving Repr, Inhabited

/-- The name under which a segment's type is exported: arguments count, what they are does not. -/
def Segment.raw {α : Type} (s : Segment α) : String :=
  if s.args.isEmpty then s.name else s.name ++ "\x60" ++ toString s.args.length

def keywordTypes : List (String × String) :=
  [("bool", "Boolean"), ("byte", "Byte"), ("sbyte", "SByte"), ("char", "Char"), ("decimal", "Decimal"),
   ("double", "Double"), ("float", "Single"), ("int", "Int32"), ("uint", "UInt32"), ("long", "Int64"),
   ("ulong", "UInt64"), ("short", "Int16"), ("ushort", "UInt16"), ("object", "Object"),
   ("string", "String"), ("void", "Void"), ("nint", "IntPtr"), ("nuint", "UIntPtr"),
   ("dynamic", "Object")]

namespace WrittenType

inductive Token where
  | word (text : String)
  | mark (c : Char)
  | doubleColon
  deriving DecidableEq, Repr

def isWordChar (c : Char) : Bool :=
  isAlphanumeric c || c == '_'

/-- Words and marks; blanks only separate them, and a leading `@` is no part of a word. -/
def tokens : Chars → List Token
  | [] => []
  | ':' :: ':' :: r => .doubleColon :: tokens r
  | c :: r =>
    if isBlank c then tokens r
    else if isWordChar c ∨ c = '@' then
      let start := if c = '@' then [] else [c]
      .word (.ofList (start ++ r.takeWhile isWordChar)) :: tokens (r.dropWhile isWordChar)
    else .mark c :: tokens r
termination_by s => s.length
decreasing_by
  all_goals simp only [List.length_cons]
  all_goals try omega
  have h := (List.dropWhile_suffix (l := r) isWordChar).length_le
  omega

/-- The words before a type: whether one of them makes it a reference, and what follows them. -/
def refWords : List Token → Bool × List Token
  | .word w :: rest =>
    if w = "ref" ∨ w = "out" ∨ w = "in" then (true, (refWords rest).2)
    else if w = "readonly" ∨ w = "scoped" ∨ w = "params" ∨ w = "this" then refWords rest
    else (false, .word w :: rest)
  | ts => (false, ts)

def dropName : List Token → List Token
  | .word _ :: rest => rest
  | ts => ts

/-- The marks behind a type, from the innermost outward. -/
def marks (t : WrittenType) : List Token → Option (WrittenType × List Token)
  | .mark '[' :: rest =>
    match h : rest.dropWhile (· == .mark ',') with
    | .mark ']' :: rest' =>
      have : rest'.length < rest.length := by
        have := (List.dropWhile_suffix (l := rest) (· == Token.mark ',')).length_le
        rw [h] at this
        exact this
      marks (.array t) rest'
    | _ => none
  | .mark '*' :: rest => marks (.pointer t) rest
  | .mark '?' :: rest => marks t rest
  | ts => some (t, ts)
termination_by ts => ts.length

def skipAngles (depth : Nat) : List Token → List Token
  | [] => []
  | .mark '<' :: rest => skipAngles (depth + 1) rest
  | .mark '>' :: rest => if depth ≤ 1 then rest else skipAngles (depth - 1) rest
  | _ :: rest => skipAngles depth rest

/-- What may stand behind a type whose text ends there. -/
def endsType : List Token → Bool
  | [] => true
  | .word _ :: _ => true
  | .mark c :: _ => c == ',' || c == ')' || c == '>'
  | .doubleColon :: _ => false

def ofSegments : List (Segment WrittenType) × List Token → WrittenType × List Token
  | (segments, ts) => (.named segments, ts)

mutual

/-- A type with its modifiers and marks. The first argument bounds the depth of nesting, as it
does in the functions below. -/
def read : Nat → List Token → Option (WrittenType × List Token)
  | 0, _ => none
  | fuel + 1, ts => do
    let (isRef, ts) := refWords ts
    let (t, ts) ← readPrimary fuel ts
    let (t, ts) ← marks t ts
    return (if isRef then .byRef t else t, ts)

def readPrimary : Nat → List Token → Option (WrittenType × List Token)
  | 0, _ => none
  | fuel + 1, .mark '(' :: ts => do
    let (elements, ts) ← readElements fuel ts
    return (.tuple elements, ts)
  | fuel + 1, .word first :: ts =>
    match ts with
    | .mark '*' :: rest =>
      if first = "delegate" then some (.keyword "IntPtr", skipAngles 0 rest)
      else readNamed fuel first ts
    | _ => if first = "var" ∧ endsType ts then some (.inferred, ts) else readNamed fuel first ts
  | _, _ => none

/-- A keyword type, or a dotted name whose qualifier before `::` is dropped. -/
def readNamed : Nat → String → List Token → Option (WrittenType × List Token)
  | 0, _, _ => none
  | fuel + 1, first, ts =>
    match keywordTypes.lookup first, ts with
    | some name, _ => some (.keyword name, ts)
    | none, .doubleColon :: .word name :: rest => (readSegments fuel name rest).map ofSegments
    | none, .doubleColon :: _ => none
    | none, _ => (readSegments fuel first ts).map ofSegments

def readElements : Nat → List Token → Option (List WrittenType × List Token)
  | 0, _ => none
  | fuel + 1, ts => do
    let (t, ts) ← read fuel ts
    match dropName ts with
    | .mark ')' :: rest => return ([t], rest)
    | .mark ',' :: rest =>
      let (more, rest) ← readElements fuel rest
      return (t :: more, rest)
    | _ => none

def readSegments : Nat → String → List Token → Option (List (Segment WrittenType) × List Token)
  | 0, _, _ => none
  | fuel + 1, name, ts => do
    let (args, ts) ← match ts with
      | .mark '<' :: rest => readArgs fuel rest
      | _ => some ([], ts)
    match ts with
    | .mark '.' :: .word next :: rest =>
      let (more, rest) ← readSegments fuel next rest
      return (⟨name, args⟩ :: more, rest)
    | .mark '.' :: _ => none
    | _ => return ([⟨name, args⟩], ts)

def readArgs : Nat → List Token → Option (List WrittenType × List Token)
  | 0, _ => none
  | fuel + 1, ts => do
    let (t, ts) ← read fuel ts
    match ts with
    | .mark '>' :: rest => return ([t], rest)
    | .mark ',' :: rest =>
      let (more, rest) ← readArgs fuel rest
      return (t :: more, rest)
    | _ => none

end

/-- The tree of a type's text, when the whole text is one type. -/
def parse? (text : String) : Option WrittenType :=
  let ts := tokens text.toList
  match read (4 * ts.length + 4) ts with
  | some (t, []) => some t
  | _ => none

mutual

/-- Form in member signatures. -/
def display : WrittenType → String
  | keyword name => name
  | named segments => displaySegments segments
  | array element => display element ++ "[]"
  | pointer target => display target ++ "*"
  | byRef target => display target ++ "&"
  | tuple elements => "ValueTuple<" ++ joinWith "," (displayAll elements) ++ ">"
  | inferred => "var"

/-- The last segment counts. -/
def displaySegments : List (Segment WrittenType) → String
  | [] => ""
  | [⟨name, args⟩] =>
    match displayAll args with
    | [] => Name.canonicalize name
    | shown => name ++ "<" ++ joinWith "," shown ++ ">"
  | _ :: more => displaySegments more

def displayAll : List WrittenType → List String
  | [] => []
  | t :: more => display t :: displayAll more

end

/-- The words before a text that is no type; tells whether one of them makes it a reference. The
first argument bounds their number. -/
def dropModifiers : Nat → Bool → Chars → Bool × Chars
  | 0, isRef, text => (isRef, text)
  | fuel + 1, isRef, text =>
    match Chars.cut? isBlank text with
    | none => (isRef, text)
    | some (word, _, rest) =>
      let word := String.ofList word
      if word = "ref" ∨ word = "out" ∨ word = "in" then dropModifiers fuel true (Chars.trimStart rest)
      else if word = "readonly" ∨ word = "scoped" ∨ word = "params" ∨ word = "this" then
        dropModifiers fuel isRef (Chars.trimStart rest)
      else (isRef, text)

end WrittenType

/-- Form of a type's text in member signatures; a text that is no type is cut to last segments. -/
def displayText (text : String) : String :=
  match WrittenType.parse? text with
  | some t => t.display
  | none =>
    let chars := Chars.trim text.toList
    let (isRef, rest) := WrittenType.dropModifiers chars.length false chars
    let shown := Name.simplifyType (.ofList rest)
    if isRef then shown ++ "&" else shown

end CodeGraph.CSharp
