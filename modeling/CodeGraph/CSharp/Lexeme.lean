import CodeGraph.Text.Basic

namespace CodeGraph.CSharp

open CodeGraph.Text

/-!
# Cutting source text

The length of the first lexeme of a text. What a character means depends on where it stands: in code,
in an interpolated string, or in a hole of one.
-/

inductive Quoting where
  | escaped
  | verbatim
  /-- So many quotes close the string and so many braces open a hole. -/
  | raw (quotes braces : Nat)
  deriving DecidableEq, Repr

/-- What surrounds the code at some point of a text, beyond the file itself. -/
inductive Surrounding where
  | string (quoting : Quoting)
  /-- A hole, with the number of brackets that are open in it. -/
  | hole (quoting : Quoting) (depth : Nat)
  deriving DecidableEq, Repr

inductive LexemeKind where
  | blank
  | comment
  | directive
  | word
  | number
  | character
  | string
  | opening
  | closing
  | piece
  | symbol
  deriving DecidableEq, Repr

def isWordStart (c : Char) : Bool :=
  isAlphabetic c || c == '_' || c == '@'

def isWordPart (c : Char) : Bool :=
  isAlphanumeric c || c == '_'

def countWhile (p : Char → Bool) (s : Chars) : Nat :=
  (s.takeWhile p).length

/-- Characters up to and including the first closing quote; `escape` hides the one after it. -/
def quotedLength (quote : Char) (escape : Option Char) : Chars → Nat
  | [] => 0
  | [_] => 1
  | c :: d :: r =>
    if some c = escape then 2 + quotedLength quote escape r
    else if c = quote then 1
    else 1 + quotedLength quote escape (d :: r)

/-- As `quotedLength`, where a doubled quote is one quote of the text. -/
def verbatimLength : Chars → Nat
  | [] => 0
  | '"' :: '"' :: r => 2 + verbatimLength r
  | '"' :: _ => 1
  | _ :: r => 1 + verbatimLength r

def rawLength (quotes : Nat) : Chars → Nat
  | [] => 0
  | c :: r =>
    let run := countWhile (· == '"') (c :: r)
    if quotes ≤ run then run else 1 + rawLength quotes r

/-- A suffix that makes a string one of bytes. -/
def byteSuffix : Chars → Nat
  | 'u' :: '8' :: _ => 2
  | 'U' :: '8' :: _ => 2
  | _ => 0

/-- The length of a comment between marks, counted behind its opening. -/
def blockLength : Chars → Nat
  | [] => 0
  | '*' :: '/' :: _ => 2
  | _ :: r => 1 + blockLength r

def numberLength (s : Chars) : Nat :=
  let digit := fun c : Char => c.isDigit || c == '_'
  match s with
  | '0' :: m :: _ =>
    if m = 'x' ∨ m = 'X' ∨ m = 'b' ∨ m = 'B' then countWhile isWordPart s else decimal digit
  | _ => decimal digit
where
  decimal (digit : Char → Bool) : Nat :=
    let whole := countWhile digit s
    let fraction := match s.drop whole with
      | '.' :: d :: r => if d.isDigit then 1 + countWhile digit (d :: r) else 0
      | _ => 0
    let power := match s.drop (whole + fraction) with
      | e :: r =>
        if e = 'e' ∨ e = 'E' then
          let sign := match r with
            | c :: _ => if c = '+' ∨ c = '-' then 1 else 0
            | [] => 0
          let digits := countWhile digit (r.drop sign)
          if digits = 0 then 0 else 1 + sign + digits
        else 0
      | [] => 0
    let length := whole + fraction + power
    length + countWhile Char.isAlpha (s.drop length)

/-- Symbols of more than one character, longer ones first. A closing angle bracket is always a
symbol of its own, because it may end a list of type arguments. -/
def longSymbols : List Chars :=
  ["<<=", "??=", "=>", "==", "!=", "<=", ">=", "&&", "||", "++", "--", "+=", "-=", "*=", "/=", "%=",
    "&=", "|=", "^=", "->", "::", "..", "??", "<<"].map String.toList

def symbolLength (s : Chars) : Nat :=
  match longSymbols.find? fun w => (Chars.dropPrefix? w s).isSome with
  | some w => w.length
  | none => 1

/-- The quotes and dollar signs at the beginning of a string, if one begins here: the number of
dollar signs, whether it is verbatim, and the number of quotes. -/
def stringStart? (s : Chars) : Option (Nat × Bool × Nat) :=
  let marks := s.takeWhile fun c => c == '$' || c == '@'
  let quotes := countWhile (· == '"') (s.drop marks.length)
  if quotes = 0 ∨ 1 < marks.count '@' then none
  else some (marks.count '$', marks.contains '@', quotes)

/-- The first lexeme of a string: all of it, or its opening when it has holes. -/
def stringLexeme (s : Chars) (dollars : Nat) (verbatim : Bool) (quotes : Nat) :
    LexemeKind × Nat × Option Quoting :=
  let marks := dollars + if verbatim then 1 else 0
  if 3 ≤ quotes ∧ !verbatim then
    if dollars = 0 then
      let length := quotes + rawLength quotes (s.drop quotes)
      (.string, length + byteSuffix (s.drop length), none)
    else (.opening, marks + quotes, some (.raw quotes dollars))
  else if dollars = 0 then
    let rest := s.drop (marks + 1)
    let length := marks + 1 + if verbatim then verbatimLength rest else quotedLength '"' '\\' rest
    (.string, length + byteSuffix (s.drop length), none)
  else (.opening, marks + 1, some (if verbatim then .verbatim else .escaped))

/-- The first lexeme of code, with the string that it opens. -/
def codeLexeme (s : Chars) : LexemeKind × Nat × Option Quoting :=
  match s with
  | [] => (.blank, 0, none)
  | '/' :: '/' :: _ => (.comment, countWhile (fun c => c != '\n' && c != '\r') s, none)
  | '/' :: '*' :: r => (.comment, 2 + blockLength r, none)
  | c :: r =>
    if isBlank c ∨ c = '\uFEFF' then (.blank, countWhile (fun c => isBlank c || c == '\uFEFF') s, none)
    else if c = '#' then (.directive, countWhile (· != '\n') s, none)
    else if c = '\'' then (.character, 1 + quotedLength '\'' '\\' r, none)
    else
      match stringStart? s with
      | some (dollars, verbatim, quotes) => stringLexeme s dollars verbatim quotes
      | none =>
        if isWordStart c then (.word, 1 + countWhile isWordPart r, none)
        else if c.isDigit ∨ c = '.' ∧ r.head?.any Char.isDigit then (.number, numberLength s, none)
        else (.symbol, symbolLength s, none)

/-- The text of an interpolated string up to its end or to the next hole. -/
def pieceLength (quoting : Quoting) : Chars → Nat
  | [] => 0
  | [c] => if c = '"' ∨ c = '\x7b' then 0 else 1
  | c :: d :: r =>
    match quoting with
    | .raw quotes braces =>
      if quotes ≤ countWhile (· == '"') (c :: d :: r) then 0
      else if c = '\x7b' ∧ countWhile (· == '\x7b') (c :: d :: r) = braces then 0
      else 1 + pieceLength quoting (d :: r)
    | _ =>
      if c = '\x7b' then if d = '\x7b' then 2 + pieceLength quoting r else 0
      else if c = '"' then
        if quoting = .verbatim ∧ d = '"' then 2 + pieceLength quoting r else 0
      else if c = '\\' ∧ quoting = .escaped then 2 + pieceLength quoting r
      else 1 + pieceLength quoting (d :: r)

def Quoting.braces : Quoting → Nat
  | .raw _ braces => braces
  | _ => 1

def Quoting.quotes : Quoting → Nat
  | .raw quotes _ => quotes
  | _ => 1

def depthAfter (depth : Nat) (c : Char) : Nat :=
  if c = '(' ∨ c = '[' ∨ c = '\x7b' then depth + 1
  else if c = ')' ∨ c = ']' ∨ c = '}' then depth - 1
  else depth

/-- The first lexeme of a text and what surrounds the text behind it. -/
def lexeme (around : List Surrounding) (s : Chars) : LexemeKind × Nat × List Surrounding :=
  match around with
  | .string q :: outer =>
    let length := pieceLength q s
    if 0 < length then (.piece, length, around)
    else if s.head? = some '\x7b' then (.symbol, q.braces, .hole q 0 :: around)
    else (.closing, q.quotes, outer)
  | .hole q depth :: outer =>
    if depth = 0 ∧ s.head? = some '}' then (.symbol, q.braces, outer)
    else if depth = 0 ∧ s.head? = some ':' then (.piece, countWhile (· != '}') s, around)
    else
      match codeLexeme s with
      | (.symbol, length, _) =>
        (.symbol, length, .hole q (depthAfter depth (s.head?.getD ' ')) :: outer)
      | (kind, length, opened) => (kind, length, (opened.map .string).toList ++ around)
  | [] =>
    let (kind, length, opened) := codeLexeme s
    (kind, length, (opened.map .string).toList)

end CodeGraph.CSharp
