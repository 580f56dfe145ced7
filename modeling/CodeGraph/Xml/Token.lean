import CodeGraph.Xml.Reference

namespace CodeGraph.Xml

open CodeGraph.Text

/-!
# Tags, text and the other pieces of a document
-/

inductive Token where
  | start (name : QName) (attributes : List (QName × String)) (closed : Bool)
  | stop (name : QName)
  | text (value : Chars)
  | comment
  | instruction
  deriving Repr

/-- The characters before `mark`, all of them allowed in a document, and what follows the mark. -/
def upTo? (mark s : Chars) : Option (Chars × Chars) :=
  match Chars.cutAt? mark s with
  | some (inner, rest) => if inner.all isXmlChar then some (inner, rest) else none
  | none => none

/-- A character appended to gathered text, of which the last is first. A carriage return becomes a
line feed once the next character shows that it is not part of a longer line break. -/
def pushText (gathered : Chars) (c : Char) (atEnd : Bool) : Chars :=
  match gathered with
  | '\r' :: before =>
    if atEnd ∧ c = '\r' then '\n' :: '\n' :: before
    else if c = '\n' then '\n' :: before
    else c :: '\n' :: before
  | _ => if atEnd ∧ c = '\r' then '\n' :: gathered else c :: gathered

/-- Text with its references decoded. What a reference stands for, and the character right behind
it, is taken as it is. The first argument bounds the number of steps. -/
def decodeText : Nat → (asIs : Bool) → (gathered : Chars) → Chars → Option Chars
  | _, _, gathered, [] => some gathered.reverse
  | 0, _, _, _ :: _ => none
  | steps + 1, asIs, gathered, c :: r =>
    if c = '&' then do
      let (d, rest) ← reference? r
      decodeText steps true (d :: gathered) rest
    else if asIs then decodeText steps false (c :: gathered) r
    else decodeText steps false (pushText gathered c r.isEmpty) r

/-- Line breaks of a character-data section are brought to line feeds. -/
def decodeSection : (gathered : Chars) → Chars → Chars
  | gathered, [] => gathered.reverse
  | gathered, c :: r => decodeSection (pushText gathered c r.isEmpty) r

/-- An attribute's value with its references decoded and each line break or tab as one space. -/
def decodeAttribute : Nat → Chars → Option Chars
  | _, [] => some []
  | 0, _ :: _ => none
  | steps + 1, c :: r =>
    if c = '&' then do
      let (d, rest) ← reference? r
      return d :: (← decodeAttribute steps rest)
    else if c = '\r' ∧ r.head? = some '\n' then decodeAttribute steps r
    else if c = '\n' ∨ c = '\r' ∨ c = '\t' then return ' ' :: (← decodeAttribute steps r)
    else return c :: (← decodeAttribute steps r)

/-- A quoted value; it may hold neither its own quote nor `<`. -/
def quoted? (s : Chars) : Option (Chars × Chars) :=
  match s with
  | q :: r =>
    if q = '"' ∨ q = '\'' then
      let inside := fun c : Char => c != q && c != '<'
      let value := r.takeWhile inside
      match r.dropWhile inside with
      | c :: rest => if c = q ∧ value.all isXmlChar then some (value, rest) else none
      | [] => none
    else none
  | [] => none

def attribute? (s : Chars) : Option (QName × Chars × Chars) := do
  let (name, s) ← qname? s
  match s.dropWhile isSpace with
  | '=' :: r =>
    let (value, rest) ← quoted? (r.dropWhile isSpace)
    some (name, value, rest)
  | _ => none

/-- The attributes of a start tag up to its end; each is set off by white space. -/
def attributes? : Nat → Chars → Option (List (QName × String) × Bool × Chars)
  | 0, _ => none
  | steps + 1, s =>
    match s.dropWhile isSpace with
    | '/' :: '>' :: r => some ([], true, r)
    | '>' :: r => some ([], false, r)
    | rest =>
      if s.head?.any isSpace then do
        let (name, value, rest) ← attribute? rest
        let value ← decodeAttribute (value.length + 1) value
        let (more, closed, rest) ← attributes? steps rest
        some ((name, .ofList value) :: more, closed, rest)
      else none

/-- A comment, read from behind its opening mark, holds no two hyphens in a row. -/
def comment? (s : Chars) : Option Chars := do
  let (inner, rest) ← upTo? ['-', '-', '>'] s
  if Chars.containsText ['-', '-'] inner || inner.getLast? == some '-' then none else some rest

def instruction? (s : Chars) : Option Chars := do
  if (Chars.dropPrefix? ['x', 'm', 'l', ' '] s).isSome then none
  else
    let (_, s) ← name? s
    let (_, rest) ← upTo? ['?', '>'] (s.dropWhile isSpace)
    some rest

def content? (s : Chars) : Option (Token × Chars) :=
  match s with
  | '<' :: '!' :: '-' :: '-' :: r => (comment? r).map (.comment, ·)
  | '<' :: '!' :: r => do
    let r ← Chars.dropPrefix? "[CDATA[".toList r
    let (inner, rest) ← upTo? [']', ']', '>'] r
    some (.text (decodeSection [] inner), rest)
  | '<' :: '?' :: r => (instruction? r).map (.instruction, ·)
  | '<' :: '/' :: r => do
    let (name, rest) ← qname? r
    match rest.dropWhile isSpace with
    | '>' :: rest => some (.stop name, rest)
    | _ => none
  | '<' :: r => do
    let (name, rest) ← qname? r
    let (attributes, closed, rest) ← attributes? (rest.length + 1) rest
    some (.start name attributes closed, rest)
  | s => do
    let written := s.takeWhile (· != '<')
    if written.all isXmlChar && !Chars.containsText [']', ']', '>'] written then
      let value ← decodeText (written.length + 1) false [] written
      some (.text value, s.dropWhile (· != '<'))
    else none

end CodeGraph.Xml
