namespace CodeGraph.Text

/-!
# Characters from bytes

A byte sequence is cut into encoded characters and into the longest pieces that begin a character but
do not complete it.
-/

def isContinuation (b : UInt8) : Bool :=
  0x80 ≤ b && b ≤ 0xBF

/-- The second byte of a character may follow its first. -/
def maySecond (first second : UInt8) : Bool :=
  if first = 0xE0 then 0xA0 ≤ second && second ≤ 0xBF
  else if first = 0xED then 0x80 ≤ second && second ≤ 0x9F
  else if first = 0xF0 then 0x90 ≤ second && second ≤ 0xBF
  else if first = 0xF4 then 0x80 ≤ second && second ≤ 0x8F
  else isContinuation second

def encodedLength (first : UInt8) : Nat :=
  if first < 0x80 then 1
  else if 0xC2 ≤ first && first ≤ 0xDF then 2
  else if 0xE0 ≤ first && first ≤ 0xEF then 3
  else if 0xF0 ≤ first && first ≤ 0xF4 then 4
  else 0

def charOf (first : UInt8) (more : List UInt8) : Char :=
  let lead := match more.length with
    | 0 => first.toNat
    | 1 => first.toNat % 0x20
    | 2 => first.toNat % 0x10
    | _ => first.toNat % 0x08
  Char.ofNat (more.foldl (fun n b => n * 0x40 + b.toNat % 0x40) lead)

/-- The bytes that continue a character as far as they do. -/
def continuation (first : UInt8) (rest : List UInt8) : List UInt8 :=
  match rest with
  | b :: more =>
    if 1 < encodedLength first ∧ maySecond first b then
      b :: (more.take (encodedLength first - 2)).takeWhile isContinuation
    else []
  | [] => []

/-- The characters of a byte sequence; a piece that is none gives none. The first argument bounds the
number of pieces. -/
def decodeUpTo : Nat → List UInt8 → List (Option Char)
  | _, [] => []
  | 0, _ :: _ => [none]
  | n + 1, first :: rest =>
    let more := continuation first rest
    let whole := encodedLength first = more.length + 1
    (if whole then some (charOf first more) else none) :: decodeUpTo n (rest.drop more.length)

def decode (s : List UInt8) : List (Option Char) :=
  decodeUpTo s.length s

def ofUtf8? (s : List UInt8) : Option String :=
  ((decode s).mapM id).map .ofList

/-- The text of a byte sequence, with a mark for every piece that is none. -/
def ofUtf8Lossy (s : List UInt8) : String :=
  .ofList ((decode s).map (·.getD '\uFFFD'))

end CodeGraph.Text
