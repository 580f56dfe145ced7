import CodeGraph.Text.Letters

namespace CodeGraph.Text

/-!
# Cutting and joining text

Text rules are functions on lists of characters; the same names on strings are their wrappers.
-/

abbrev Chars := List Char

namespace Chars

def trimStart (s : Chars) : Chars :=
  s.dropWhile isBlank

def trimEnd (s : Chars) : Chars :=
  (s.reverse.dropWhile isBlank).reverse

def trim (s : Chars) : Chars :=
  trimEnd (trimStart s)

/-- What follows `p` when the text begins with it. -/
def dropPrefix? : (p s : Chars) → Option Chars
  | [], s => some s
  | _ :: _, [] => none
  | a :: p, b :: s => if a = b then dropPrefix? p s else none

theorem dropPrefix?_eq_some_iff {p s r : Chars} : dropPrefix? p s = some r ↔ s = p ++ r := by
  induction p generalizing s with
  | nil => simp [dropPrefix?, eq_comm]
  | cons a p ih =>
    cases s with
    | nil => simp [dropPrefix?]
    | cons b s =>
      by_cases h : a = b
      · simp [dropPrefix?, h, ih]
      · simp [dropPrefix?, h, Ne.symm h]

/-- The parts between the characters that satisfy `p`: one more than there are such characters. -/
def splitBy (p : Char → Bool) : Chars → List Chars
  | [] => [[]]
  | c :: r =>
    if p c then [] :: splitBy p r
    else
      match splitBy p r with
      | [] => [[c]]
      | part :: parts => (c :: part) :: parts

/-- The text before the first character that satisfies `p`, that character and what follows it. -/
def cut? (p : Char → Bool) : Chars → Option (Chars × Char × Chars)
  | [] => none
  | c :: r =>
    if p c then some ([], c, r) else (cut? p r).map fun (a, d, b) => (c :: a, d, b)

def cutAt? (pat : Chars) : Chars → Option (Chars × Chars)
  | [] => if pat.isEmpty then some ([], []) else none
  | c :: r =>
    match dropPrefix? pat (c :: r) with
    | some rest => some ([], rest)
    | none => (cutAt? pat r).map fun (a, b) => (c :: a, b)

def containsText (pat s : Chars) : Bool :=
  (cutAt? pat s).isSome

/-- Every occurrence of the non-empty `pat`, taken left to right without overlap, becomes `new`. -/
def replaceFrom (pat new : Chars) : Nat → Chars → Chars
  | _, [] => []
  | skip + 1, _ :: r => replaceFrom pat new skip r
  | 0, c :: r =>
    match pat with
    | [] => c :: r
    | _ :: more =>
      if (dropPrefix? pat (c :: r)).isSome then new ++ replaceFrom pat new more.length r
      else c :: replaceFrom pat new 0 r

def replace (pat new s : Chars) : Chars :=
  replaceFrom pat new 0 s

/-- The parts of a text between the blanks, empty ones left out. -/
def words (s : Chars) : List Chars :=
  (splitBy isBlank s).filter (! ·.isEmpty)

def joinWith (sep : Chars) : List Chars → Chars
  | [] => []
  | [a] => a
  | a :: b :: r => a ++ sep ++ joinWith sep (b :: r)

end Chars

def trim (s : String) : String :=
  .ofList (Chars.trim s.toList)

def trimStart (s : String) : String :=
  .ofList (Chars.trimStart s.toList)

def trimEnd (s : String) : String :=
  .ofList (Chars.trimEnd s.toList)

def splitBy (p : Char → Bool) (s : String) : List String :=
  (Chars.splitBy p s.toList).map .ofList

def contains (pat s : String) : Bool :=
  Chars.containsText pat.toList s.toList

def startsWith (start s : String) : Bool :=
  (Chars.dropPrefix? start.toList s.toList).isSome

def dropPrefix? (start s : String) : Option String :=
  (Chars.dropPrefix? start.toList s.toList).map .ofList

def endsWith (ending s : String) : Bool :=
  (Chars.dropPrefix? ending.toList.reverse s.toList.reverse).isSome

def replace (pat new s : String) : String :=
  .ofList (Chars.replace pat.toList new.toList s.toList)

/-- Runs of blanks become one space, and none stands at the ends. -/
def collapseBlanks (s : String) : String :=
  .ofList (Chars.joinWith [' '] (Chars.words s.toList))

/-- The text before the first character that satisfies `p`, all of it when there is none. -/
def before (p : Char → Bool) (s : String) : String :=
  .ofList (s.toList.takeWhile (! p ·))

/-- The text after the last character that satisfies `p`, all of it when there is none. -/
def afterLast (p : Char → Bool) (s : String) : String :=
  .ofList (s.toList.reverse.takeWhile (! p ·)).reverse

def trimMatches (p : Char → Bool) (s : String) : String :=
  .ofList ((s.toList.dropWhile p).reverse.dropWhile p).reverse

def trimEndMatches (p : Char → Bool) (s : String) : String :=
  .ofList (s.toList.reverse.dropWhile p).reverse

def joinWith (sep : String) (parts : List String) : String :=
  String.intercalate sep parts

/-- Lines end at a line feed; one carriage return before it belongs to the line break. A line break
at the end of the text opens no further line. -/
def lines (s : String) : List String :=
  let parts := splitBy (· == '\n') s
  let parts := if parts.getLast? == some "" then parts.dropLast else parts
  parts.map fun l => if endsWith "\r" l then String.ofList l.toList.dropLast else l

/-- Byte-wise order of texts, which is the order of their code points. -/
def ordering (a b : String) : Ordering :=
  if a < b then .lt else if a == b then .eq else .gt

/-- Texts in order, equal ones in the order given. -/
def sort (l : List String) : List String :=
  l.mergeSort fun a b => !(b < a)

end CodeGraph.Text
