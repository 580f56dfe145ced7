import CodeGraph.Metadata.Image
import CodeGraph.Metadata.Instruction

namespace CodeGraph.Metadata

/-!
# Bodies of methods

A small body has a header of one byte. A larger one names the signature of its locals and may have
sections behind its code that say which exceptions it catches.
-/

structure MethodBody where
  /-- Signature of the locals. -/
  locals : Token
  /-- Types of the exceptions that are caught. -/
  caught : List Token
  code : List Instruction

namespace MethodBody

/-- A clause that names what happens in a part of the code. -/
structure Clause where
  flags : Nat
  /-- Where the guarded part ends, and where the handler does. -/
  guardedEnd : Nat
  handlerEnd : Nat
  type : Token

def clause (flagWidth offsetWidth lengthWidth : Nat) : ByteReader Clause := do
  let flags ← ByteReader.number flagWidth
  let guarded ← ByteReader.number offsetWidth
  let guardedLength ← ByteReader.number lengthWidth
  let handler ← ByteReader.number offsetWidth
  let handlerLength ← ByteReader.number lengthWidth
  return ⟨flags, guarded + guardedLength, handler + handlerLength, .ofNat (← ByteReader.u32)⟩

/-- The type that a clause catches; it says so by the number 0, and its parts lie in the code. -/
def Clause.caught? (c : Clause) (codeSize : Nat) : Option Token :=
  if c.flags = 0 ∧ c.guardedEnd ≤ codeSize ∧ c.handlerEnd ≤ codeSize then some c.type else none

/-- The caught types of the sections at the offset, of which there are at most so many. What cannot be
read is left out. -/
def sectionsFrom (data : Bytes) (codeSize : Nat) : Nat → Nat → List Token
  | 0, _ => []
  | more + 1, start =>
    let start := (start + 3) / 4 * 4
    let rest := data.drop start
    match rest with
    | kind :: _ :: _ :: _ :: _ =>
      if kind.toNat % 2 = 0 then []
      else
        let isWide := kind.toNat / 0x40 % 2 = 1
        let size := match ByteReader.number (if isWide then 3 else 1) (rest.drop 1) with
          | some (n, _) => n
          | none => 0
        let clauses := if isWide then ByteReader.times (clause 4 4 4) (size / 24)
          else ByteReader.times (clause 2 2 1) (size / 12)
        match clauses (rest.drop 4) with
        | none => []
        | some (found, _) =>
          let found := found.filterMap (·.caught? codeSize)
          if kind.toNat / 0x80 = 1 ∧ 0 < size then
            found ++ sectionsFrom data codeSize more (start + size)
          else found
    | _ => []

def read? (data : Bytes) : Option MethodBody := do
  let first ← data.head?
  if first.toNat % 4 = 2 then
    let size := first.toNat / 4
    if data.length < 1 + size then failure
    let code ← Instruction.readAll? ((data.drop 1).take size)
    return ⟨.ofNat 0, [], code⟩
  else if first.toNat % 4 = 3 then
    let read : ByteReader (Nat × Nat × Nat) := do
      let flags ← ByteReader.u16
      ByteReader.skip 2
      let size ← ByteReader.u32
      return (flags, size, ← ByteReader.u32)
    let ((flags, size, locals), _) ← read data
    let header := flags / 0x1000 * 4
    if data.length < header + size then failure
    let code ← Instruction.readAll? ((data.drop header).take size)
    let caught := if flags / 8 % 2 = 1 then sectionsFrom data size data.length (header + size) else []
    return ⟨.ofNat locals, caught, code⟩
  else failure

end MethodBody

def Image.body? (i : Image) (address : Nat) : Option MethodBody := do
  let start ← offsetOf? i.sections address
  if i.data.size < start then failure
  MethodBody.read? (slice i.data start (i.data.size - start))

end CodeGraph.Metadata
