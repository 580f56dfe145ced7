import CodeGraph.Name.Brackets

namespace CodeGraph.Name

open CodeGraph.Text

/-!
# Canonical names

Every node has a dotted path of segments: the module with its dots escaped as `*`, the parts of the
namespace, the types with their generic arity written out, and a member segment such as
`Bar(String,Int32)`. Canonical form is reached in five passes: scope markers, separators, arities,
accessors and parameter types.
-/

def isScopeChar (c : Char) : Bool :=
  isAlphanumeric c || c == '.' || c == '_' || c == '-'

/-- `[content]` is a scope marker when the name goes on right behind it. -/
def isScopeMarker (content after : Chars) : Bool :=
  !content.isEmpty && content.all isScopeChar &&
    match after with
    | c :: _ => isAlphabetic c || c == '_'
    | [] => false

theorem cut?_length {p : Char → Bool} {s a b : Chars} {d : Char} (h : Chars.cut? p s = some (a, d, b)) :
    b.length < s.length := by
  induction s generalizing a with
  | nil => simp [Chars.cut?] at h
  | cons c r ih =>
    by_cases hc : p c
    · simp only [Chars.cut?, hc, if_true, Option.some.injEq, Prod.mk.injEq] at h
      simp [← h.2.2]
    · simp only [Chars.cut?, hc, Bool.false_eq_true, if_false, Option.map_eq_some_iff] at h
      obtain ⟨⟨a', d', b'⟩, h', heq⟩ := h
      simp only [Prod.mk.injEq] at heq
      obtain ⟨_, rfl, rfl⟩ := heq
      exact Nat.lt_succ_of_lt (ih h')

/-- The scope markers of a text are dropped; every other bracket stays. -/
def stripScopes (text : Chars) : Chars :=
  match _h : Chars.cut? (· == '[') text with
  | none => text
  | some (head, _, afterOpen) =>
    match _h' : Chars.cut? (· == ']') afterOpen with
    | none => text
    | some (content, _, after) =>
      let kept := if isScopeMarker content after then [] else '[' :: content ++ [']']
      head ++ kept ++ stripScopes after
termination_by text.length
decreasing_by exact Nat.lt_trans (cut?_length _h') (cut?_length _h)

/-- `::`, `/` and `+` become dots, and a constructor's own dot becomes `#`. -/
def normalizeSeparators (text : Chars) : Chars :=
  let text := Chars.replace ['.', '.', 'c', 't', 'o', 'r'] ['.', '#', 'c', 't', 'o', 'r'] <|
    Chars.replace ['.', '.', 'c', 'c', 't', 'o', 'r'] ['.', '#', 'c', 'c', 't', 'o', 'r'] <|
    (Chars.replace [':', ':'] ['.'] text).map fun c => if c = '/' ∨ c = '+' then '.' else c
  match text with
  | '.' :: r =>
    let isCtor := (Chars.dropPrefix? ['c', 't', 'o', 'r'] r).isSome
    let isStaticCtor := (Chars.dropPrefix? ['c', 'c', 't', 'o', 'r'] r).isSome
    if isCtor || isStaticCtor then '#' :: r else '.' :: r
  | text => text

def digitsValue (digits : Chars) : Nat :=
  digits.foldl (fun n c => n * 10 + (c.toNat - '0'.toNat)) 0

/-- The mark that stands before a generic arity. -/
def tick : Char := '\x60'

/-- `<T>`, `<T,T>` and so on. -/
def arityArguments (arity : Nat) : Chars :=
  '<' :: Chars.joinWith [','] (List.replicate arity ['T']) ++ ['>']

/-- What stands for a run of ticks and the digits behind it. One tick with an arity of one to five
is written as type parameters, and is dropped before an argument list. -/
def renderArity (ticks digits after : Chars) : Chars :=
  let arity := digitsValue digits
  if ticks.length = 1 ∧ digits ≠ [] ∧ after.head? = some '<' then []
  else if ticks.length = 1 ∧ 1 ≤ arity ∧ arity ≤ 5 then arityArguments arity
  else ticks ++ digits

def collapseArity : Chars → Chars
  | [] => []
  | c :: r =>
    if c = tick then
      let ticks := r.takeWhile (· == tick)
      let behind := r.dropWhile (· == tick)
      let after := behind.dropWhile Char.isDigit
      renderArity (c :: ticks) (behind.takeWhile Char.isDigit) after ++ collapseArity after
    else c :: collapseArity r
termination_by text => text.length
decreasing_by
  · have h₁ := (List.dropWhile_suffix (l := r) (· == tick)).length_le
    have h₂ := (List.dropWhile_suffix (l := r.dropWhile (· == tick)) Char.isDigit).length_le
    simp only [List.length_cons]
    omega
  · simp

/-- `Name<Args>Suffix`, or a name and the array, pointer, reference or nullable marks behind it. -/
def splitGeneric (text : Chars) : Chars × Option Chars × Chars :=
  let bracketed : Option (Chars × Option Chars × Chars) :=
    match Chars.cut? (· == '<') text with
    | some (base, _, r) => (closeAngle 0 r).map fun (args, suffix) => (base, some args, suffix)
    | none => none
  let isMark := fun c : Char => c == '[' || c == '&' || c == '*' || c == '?'
  bracketed.getD (text.takeWhile (! isMark ·), none, text.dropWhile (! isMark ·))

def lastDotted (text : Chars) : Chars :=
  (text.reverse.takeWhile (· != '.')).reverse

/-- A type is cut down to its last segment, and so is each of its generic arguments. The first
argument bounds the depth of nested argument lists. -/
def simplifyWithin : Nat → Chars → Chars
  | 0, _ => []
  | depth + 1, text =>
    let text := Chars.trim text
    if text.isEmpty then []
    else
      match splitGeneric text with
      | (base, some args, suffix) =>
        let args := (splitTop ',' 0 args).map (simplifyWithin depth)
        lastDotted base ++ '<' :: Chars.joinWith [','] args ++ '>' :: suffix
      | (base, none, suffix) => lastDotted base ++ suffix

def simplifyTypeChars (text : Chars) : Chars :=
  simplifyWithin (text.length + 1) text

/-- A child segment below a parent; an empty side leaves the other as it is. -/
def joinChars (parent child : Chars) : Chars :=
  if parent.isEmpty then child else if child.isEmpty then parent else parent ++ '.' :: child

/-- The property that `get_X` or `set_X` reads or writes, an interface qualifier kept. -/
def accessorProperty (segment : Chars) : Option Chars :=
  let tail := (segment.reverse.takeWhile (· != '*')).reverse
  let qualifier := (segment.reverse.dropWhile (· != '*')).reverse
  let property :=
    (Chars.dropPrefix? ['g', 'e', 't', '_'] tail).or (Chars.dropPrefix? ['s', 'e', 't', '_'] tail)
  match property with
  | some (c :: r) => some (qualifier ++ c :: r)
  | _ => none

def canonicalizeChars (raw : Chars) : Chars :=
  let text := collapseArity (normalizeSeparators (stripScopes (Chars.trim raw)))
  match splitParameters text with
  | none => text
  | some (head, params) =>
    let (above, last) := splitLast head
    match accessorProperty last with
    | some property => joinChars above property
    | none =>
      let params := ((splitTop ',' 0 params).map simplifyTypeChars).filter (! ·.isEmpty)
      joinChars above (last ++ '(' :: Chars.joinWith [','] params ++ [')'])

/-- Dots inside one segment are written `*`. -/
def escapeDots (text : Chars) : Chars :=
  text.map fun c => if c = '.' then '*' else c

def canonicalize (raw : String) : String :=
  .ofList (canonicalizeChars raw.toList)

def simplifyType (text : String) : String :=
  .ofList (simplifyTypeChars text.toList)

def moduleSegment (name : String) : String :=
  .ofList (escapeDots name.toList)

def join (parent child : String) : String :=
  .ofList (joinChars parent.toList child.toList)

/-- The name with its last segment removed. -/
def parent (name : String) : String :=
  .ofList (splitLast name.toList).1

def lastSegment (name : String) : String :=
  .ofList (splitLast name.toList).2

/-- `above` is followed in `name` by a dot and at least one more character. -/
def isAbove (above name : String) : Bool :=
  !above.isEmpty &&
    match Chars.dropPrefix? above.toList name.toList with
    | some ('.' :: _ :: _) => true
    | _ => false

/-- Segment of a member with the given raw name. Methods carry a parameter list, constructors are
written with `#`, and the dots of an explicit interface name are escaped. -/
def memberSegment (rawName : String) (params : List String) (isMethod : Bool) : String :=
  let name :=
    if rawName == ".ctor" then "#ctor"
    else if rawName == ".cctor" then "#cctor"
    else moduleSegment rawName
  if isMethod then canonicalize (name ++ "(" ++ joinWith "," params ++ ")") else canonicalize name

def typeSegment (raw : String) : String :=
  moduleSegment (canonicalize raw)

/-- Path of a type below its module: the parts of its namespace, then its nesting chain. -/
def typePath (ns : String) (nesting : List String) : String :=
  nesting.foldl (fun path raw => join path (typeSegment raw)) ns

end CodeGraph.Name
