import CodeGraph.Metadata.Signature

namespace CodeGraph.Metadata

/-!
# Instructions

An instruction is an operation with an operand whose form depends on the operation. Operations behind
the byte `FE` have numbers above 255 here.
-/

inductive OperandForm where
  | none
  | bytes (count : Nat)
  | token
  /-- A counted list of targets. -/
  | targets
  deriving DecidableEq, Repr

structure Instruction where
  operation : Nat
  token : Option Token
  deriving DecidableEq, Repr

namespace Instruction

/-- The byte before the operations of the second page. -/
def secondPage : Nat := 0xFE

/-- Operations of the first page by ranges of their numbers. -/
def firstForms : List (Nat × Nat × OperandForm) :=
  [(0x00, 0x0D, .none), (0x0E, 0x13, .bytes 1), (0x14, 0x1E, .none), (0x1F, 0x1F, .bytes 1),
    (0x20, 0x20, .bytes 4), (0x21, 0x21, .bytes 8), (0x22, 0x22, .bytes 4), (0x23, 0x23, .bytes 8),
    (0x25, 0x26, .none), (0x27, 0x29, .token), (0x2A, 0x2A, .none), (0x2B, 0x37, .bytes 1),
    (0x38, 0x44, .bytes 4), (0x45, 0x45, .targets), (0x46, 0x6E, .none), (0x6F, 0x75, .token),
    (0x76, 0x76, .none), (0x79, 0x79, .token), (0x7A, 0x7A, .none), (0x7B, 0x81, .token),
    (0x82, 0x8B, .none), (0x8C, 0x8D, .token), (0x8E, 0x8E, .none), (0x8F, 0x8F, .token),
    (0x90, 0xA2, .none), (0xA3, 0xA5, .token), (0xB3, 0xBA, .none), (0xC2, 0xC2, .token),
    (0xC3, 0xC3, .none), (0xC6, 0xC6, .token), (0xD0, 0xD0, .token), (0xD1, 0xDC, .none),
    (0xDD, 0xDD, .bytes 4), (0xDE, 0xDE, .bytes 1), (0xDF, 0xE0, .none)]

def secondForms : List (Nat × Nat × OperandForm) :=
  [(0x00, 0x05, .none), (0x06, 0x07, .token), (0x09, 0x0E, .bytes 2), (0x0F, 0x0F, .none),
    (0x11, 0x11, .none), (0x12, 0x12, .bytes 1), (0x13, 0x14, .none), (0x15, 0x16, .token),
    (0x17, 0x18, .none), (0x19, 0x19, .bytes 1), (0x1A, 0x1A, .none), (0x1C, 0x1C, .token),
    (0x1D, 0x1E, .none)]

def form? (forms : List (Nat × Nat × OperandForm)) (n : Nat) : Option OperandForm :=
  (forms.find? fun (low, high, _) => low ≤ n && n ≤ high).map (·.2.2)

def operand (operation : Nat) (form : OperandForm) : ByteReader Instruction := do
  match form with
  | .none => return ⟨operation, none⟩
  | .bytes n => do
    ByteReader.skip n
    return ⟨operation, none⟩
  | .token => return ⟨operation, some (.ofNat (← ByteReader.u32))⟩
  | .targets => do
    let n ← ByteReader.u32
    ByteReader.skip (4 * n)
    return ⟨operation, none⟩

/-- One instruction; an operation that no program has fails. -/
def read : ByteReader Instruction := do
  let b ← ByteReader.byte
  let (operation, form) ← if b = secondPage then do
      let c ← ByteReader.byte
      pure (0x100 + c, form? secondForms c)
    else pure (b, form? firstForms b)
  match form with
  | some form => operand operation form
  | none => failure

def readAll? (code : Bytes) : Option (List Instruction) :=
  (ByteReader.untilEnd read code.length code).map (·.1)

/-! ## What instructions refer to -/

inductive Usage where
  | call
  | creation
  | access
  deriving DecidableEq, Repr

def member? (i : Instruction) : Option (Token × Usage) := do
  let t ← i.token
  if [0x27, 0x28, 0x6F, 0x106, 0x107].contains i.operation then return (t, .call)
  else if i.operation = 0x73 then return (t, .creation)
  else if 0x7B ≤ i.operation ∧ i.operation ≤ 0x80 then return (t, .access)
  else failure

/-- The code only calls the constructor of the base. -/
def isTrivial (code : List Instruction) : Bool :=
  (code.filter (·.operation != 0x00)).map (·.operation) == [0x02, 0x28, 0x2A]

end Instruction

end CodeGraph.Metadata
