import CodeGraph.Metadata.Bytes

namespace CodeGraph.Metadata

/-!
# The directory of streams

Metadata begins with a mark, a version text and the directory of its streams. A stream's name ends
with a zero byte and is padded to a multiple of four bytes.
-/

/-- The mark `BSJB`. -/
def rootMark : Bytes :=
  [0x42, 0x53, 0x4A, 0x42]

structure StreamEntry where
  name : String
  start : Nat
  length : Nat
  deriving Repr

/-- Bytes up to a zero byte, which is taken too. -/
def zeroEnded : Bytes → Option (Bytes × Bytes)
  | [] => none
  | b :: rest =>
    if b = 0 then some ([], rest) else (zeroEnded rest).map fun (a, rest) => (b :: a, rest)

/-- One entry of the directory of metadata of so many bytes. Its padding may not reach the end, and
its stream lies within the metadata. -/
def streamEntry (total : Nat) : ByteReader StreamEntry := do
  let start ← ByteReader.u32
  let length ← ByteReader.u32
  let name ← (fun s => zeroEnded s : ByteReader Bytes)
  let used := name.length + 1
  ByteReader.skip ((4 - used % 4) % 4)
  let _ ← ByteReader.peek
  if start + length ≤ total then
    return ⟨.ofList (name.map fun b => Char.ofNat b.toNat), start, length⟩
  else failure

/-- The directory behind the version text; what comes before that is not looked at. -/
def streamDirectory (data : Bytes) : Option (List StreamEntry) := do
  let read : ByteReader (List StreamEntry) := do
    ByteReader.skip 12
    let version ← ByteReader.u32
    ByteReader.skip version
    ByteReader.skip 2
    let count ← ByteReader.u16
    ByteReader.times (streamEntry data.length) count
  return (← read data).1

def stream? (data : Array UInt8) (entries : List StreamEntry) (name : String) : Option (Array UInt8) :=
  (entries.find? (·.name == name)).bind fun e => part? data e.start e.length

end CodeGraph.Metadata
