namespace CodeGraph.Metadata

/-!
# Numbers in byte sequences

Numbers of fixed width are written lowest byte first. A compressed number tells its width in the
highest bits of its first byte: one byte holds 7 bits, two hold 14 and four hold 29, highest byte
first.
-/

abbrev Bytes := List UInt8

/-- Reads from the front of a byte sequence; a failure tells nothing about why. -/
abbrev ByteReader := StateT Bytes Option

namespace ByteReader

def byte : ByteReader Nat
  | [] => none
  | b :: rest => some (b.toNat, rest)

def number : Nat → ByteReader Nat
  | 0 => return 0
  | width + 1 => do
    let low ← byte
    return low + 256 * (← number width)

def u16 : ByteReader Nat := number 2

def u32 : ByteReader Nat := number 4

def u64 : ByteReader Nat := number 8

def bytes (n : Nat) : ByteReader Bytes :=
  fun s => if n ≤ s.length then some (s.take n, s.drop n) else none

def skip (n : Nat) : ByteReader Unit := do
  let _ ← bytes n

def peek : ByteReader Nat
  | [] => none
  | b :: rest => some (b.toNat, b :: rest)

def hasMore : ByteReader Bool :=
  fun s => some (!s.isEmpty, s)

/-- A compressed number with the number of its bits. -/
def compressedWithWidth : ByteReader (Nat × Nat) := do
  let a ← byte
  if a < 0x80 then return (a, 7)
  else if a < 0xC0 then
    let b ← byte
    return ((a % 0x40) * 0x100 + b, 14)
  else if a < 0xE0 then
    let b ← byte
    let c ← byte
    let d ← byte
    return ((((a % 0x20) * 0x100 + b) * 0x100 + c) * 0x100 + d, 29)
  else failure

def compressed : ByteReader Nat := do
  return (← compressedWithWidth).1

/-- A compressed signed number, whose lowest bit is its sign. -/
def compressedSigned : ByteReader Int := do
  let (n, width) ← compressedWithWidth
  if n % 2 = 0 then return (n / 2 : Nat)
  else return Int.subNatNat (n / 2) (Nat.pow 2 (width - 1))

def times {α : Type} (r : ByteReader α) : Nat → ByteReader (List α)
  | 0 => return []
  | n + 1 => do
    let a ← r
    return a :: (← times r n)

/-- Readings up to the end, at most so many. -/
def untilEnd {α : Type} (r : ByteReader α) : Nat → ByteReader (List α)
  | 0, [] => some ([], [])
  | 0, _ :: _ => none
  | _ + 1, [] => some ([], [])
  | n + 1, b :: s =>
    match r (b :: s) with
    | none => none
    | some (a, rest) => (untilEnd r n rest).map fun (l, rest) => (a :: l, rest)

end ByteReader

/-- The bytes of a file from an offset on, at most so many. -/
def slice (data : Array UInt8) (start length : Nat) : Bytes :=
  (data.extract start (start + length)).toList

/-- The bytes of a file from an offset on, if all of them are there. -/
def slice? (data : Array UInt8) (start length : Nat) : Option Bytes :=
  if start + length ≤ data.size then some (slice data start length) else none

def part? (data : Array UInt8) (start length : Nat) : Option (Array UInt8) :=
  if start + length ≤ data.size then some (data.extract start (start + length)) else none

end CodeGraph.Metadata
