import CodeGraph.CSharp.Lexeme

namespace CodeGraph.CSharp

open CodeGraph.Text

/-!
# Tokens of source text

Blanks and comments separate tokens. A token keeps the comments right above it, because a declaration
is described by those above its first token.
-/

inductive TokenKind where
  | word
  | number
  | character
  | string
  | opening
  | closing
  | symbol
  /-- A line that chooses between parts of the text. -/
  | choice
  deriving DecidableEq, Repr

structure Token where
  kind : TokenKind
  text : String
  start : Nat
  /-- Offset behind the last character. -/
  stop : Nat
  /-- The line of the first character, the first line of a text being 0. -/
  row : Nat
  /-- Comments between the token and what stands before it, the nearest first. -/
  above : List String
  deriving Repr

def directiveName (line : String) : String :=
  .ofList (((line.toList.drop 1).dropWhile isBlank).takeWhile isWordPart)

/-- Directives between which the text is chosen; all others only separate tokens. -/
def choiceDirectives : List String :=
  ["if", "elif", "else", "endif"]

def LexemeKind.token? (kind : LexemeKind) (text : String) : Option TokenKind :=
  match kind with
  | .word => some .word
  | .number => some .number
  | .character => some .character
  | .string => some .string
  | .opening => some .opening
  | .closing => some .closing
  | .symbol => some .symbol
  | .directive => if choiceDirectives.contains (directiveName text) then some .choice else none
  | .blank | .comment | .piece => none

/-- The tokens of the rest of a text. The first argument bounds the number of lexemes. -/
def tokensFrom : Nat → List Surrounding → (start row : Nat) → (above : List String) → Chars → List Token
  | 0, _, _, _, _, _ => []
  | _, _, _, _, _, [] => []
  | more + 1, around, start, row, above, s =>
    let (kind, length, around) := lexeme around s
    let length := max length 1
    let text := String.ofList (s.take length)
    let stop := start + length
    let below := row + (s.take length).count '\n'
    match kind.token? text with
    | some tokenKind =>
      ⟨tokenKind, text, start, stop, row, above⟩ ::
        tokensFrom more around stop below [] (s.drop length)
    | none =>
      let above := match kind with
        | .comment => text :: above
        | .directive => []
        | _ => above
      tokensFrom more around stop below above (s.drop length)

def tokens (s : Chars) : List Token :=
  tokensFrom s.length [] 0 0 [] s

def reservedWords : List String :=
  ["abstract", "as", "await", "base", "bool", "break", "byte", "case", "catch", "char", "checked", "class",
    "const", "continue", "decimal", "default", "delegate", "do", "double", "else", "enum", "event",
    "explicit", "extern", "false", "finally", "fixed", "float", "for", "foreach", "goto", "if",
    "implicit", "in", "int", "interface", "internal", "is", "lock", "long", "namespace", "new", "null",
    "object", "operator", "out", "override", "params", "private", "protected", "public", "readonly",
    "ref", "return", "sbyte", "sealed", "short", "sizeof", "stackalloc", "static", "string", "struct",
    "switch", "this", "throw", "true", "try", "typeof", "uint", "ulong", "unchecked", "unsafe",
    "ushort", "using", "virtual", "void", "volatile", "while"]

namespace Token

def isWord (t : Token) (w : String) : Bool :=
  t.kind == .word && t.text == w

def isSymbol (t : Token) (s : String) : Bool :=
  t.kind == .symbol && t.text == s

def isName (t : Token) : Bool :=
  t.kind == .word && !reservedWords.contains t.text

end Token

end CodeGraph.CSharp
