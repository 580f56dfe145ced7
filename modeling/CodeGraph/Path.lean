import CodeGraph.Text.Basic

namespace CodeGraph.Path

open CodeGraph.Text

/-!
# File paths

A path is the text that was given. What it denotes is its list of components, in which repeated
slashes and dots after the first place do not show.
-/

inductive Component where
  | root
  | here
  | up
  | name (text : String)
  deriving DecidableEq, Repr

namespace Component

def rank : Component → Nat
  | root => 0
  | here => 1
  | up => 2
  | name _ => 3

def compare : Component → Component → Ordering
  | name a, name b => Text.ordering a b
  | a, b => Ord.compare a.rank b.rank

def text : Component → String
  | root => "/"
  | here => "."
  | up => ".."
  | name t => t

end Component

def isSlash (c : Char) : Bool :=
  c == '/'

def isAbsolute (path : String) : Bool :=
  path.toList.head? == some '/'

/-- The component of one part between slashes; empty parts and dots are none. -/
def component? (part : Chars) : Option Component :=
  if part = [] ∨ part = ['.'] then none
  else if part = ['.', '.'] then some .up
  else some (.name (.ofList part))

/-- The root or the leading dot of a path, and the text behind it. -/
def front (path : Chars) : Option Component × Chars :=
  match path with
  | '/' :: r => (some .root, r)
  | ['.'] => (some .here, [])
  | '.' :: '/' :: r => (some .here, '/' :: r)
  | p => (none, p)

def components (path : String) : List Component :=
  let (first, rest) := front path.toList
  first.toList ++ (Chars.splitBy isSlash rest).filterMap component?

/-- Paths that differ only in slashes and dots are the same. -/
def same (a b : String) : Bool :=
  components a == components b

def compareComponents : List Component → List Component → Ordering
  | [], [] => .eq
  | [], _ => .lt
  | _, [] => .gt
  | a :: as, b :: bs => (a.compare b).then (compareComponents as bs)

def compare (a b : String) : Ordering :=
  compareComponents (components a) (components b)

def sort (paths : List String) : List String :=
  paths.mergeSort fun a b => (compare a b).isLE

/-- Neighbours that are the same path are kept once. -/
def dedup : List String → List String
  | a :: b :: r => if same a b then dedup (a :: r) else a :: dedup (b :: r)
  | l => l

/-- `child` below `base`; an absolute child stands for itself. -/
def join (base child : String) : String :=
  if isAbsolute child then child
  else if base.isEmpty || base.toList.getLast? == some '/' then base ++ child
  else base ++ "/" ++ child

/-- The parts between slashes, given last first, without those at the end that show no component. -/
def dropSilent (parts : List Chars) : List Chars :=
  parts.dropWhile fun part => (component? part).isNone

/-- The parts of a path behind its front, the last component first. -/
def bodyParts (rest : Chars) : List Chars :=
  dropSilent (Chars.splitBy isSlash rest).reverse

def ofParts (first : Option Component) (parts : List Chars) : String :=
  (first.elim "" (·.text)) ++ .ofList (Chars.joinWith ['/'] parts.reverse)

/-- The path without its last component; the root and the empty path have no parent. -/
def parent? (path : String) : Option String :=
  let (first, rest) := front path.toList
  match bodyParts rest with
  | _ :: above => some (ofParts first (dropSilent above))
  | [] => if first = some .here then some "" else none

/-- The last component, when it is a name. -/
def fileName? (path : String) : Option String :=
  match (components path).getLast? with
  | some (.name n) => some n
  | _ => none

/-- A file name cut at its last dot; a dot in the first place cuts nothing. -/
def splitExtension (name : String) : String × Option String :=
  let chars := name.toList
  let behind := (chars.reverse.takeWhile (· != '.')).reverse
  match (chars.reverse.dropWhile (· != '.')).reverse with
  | [] | ['.'] => (name, none)
  | stem => (.ofList stem.dropLast, some (.ofList behind))

def stem? (path : String) : Option String :=
  (fileName? path).map fun n => (splitExtension n).1

def extension? (path : String) : Option String :=
  (fileName? path).bind fun n => (splitExtension n).2

def withFileName (path name : String) : String :=
  match fileName? path with
  | some _ => join ((parent? path).getD "") name
  | none => join path name

/-- The path with another extension; a path without file name stays as it is. -/
def withExtension (path extension : String) : String :=
  match fileName? path with
  | none => path
  | some name =>
    let (first, rest) := front path.toList
    let stem := (splitExtension name).1.toList
    let last := if extension.isEmpty then stem else stem ++ '.' :: extension.toList
    ofParts first (last :: (bodyParts rest).drop 1)

def ofComponents (components : List Component) : String :=
  components.foldl (fun path c => join path c.text) ""

/-- One more component, the components so far given last first. `..` takes back the last of them,
whatever it is, and stays where there is none but the root. -/
def step (done : List Component) : Component → List Component
  | .here => done
  | .up =>
    match done with
    | [] | [.root] => .up :: done
    | _ :: above => above
  | c => c :: done

/-- The path with its dots resolved, as far as its own text allows. -/
def normalize (path : String) : String :=
  ofComponents ((components path).foldl step []).reverse

end CodeGraph.Path
