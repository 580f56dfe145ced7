import CodeGraph.Metadata.Signature

namespace CodeGraph.Metadata

/-!
# Tables

The table stream says which tables are there, how many rows each has and how wide references to heaps
are. The rows follow, table by table. How wide a reference to rows is depends on how many rows the
tables have that it may refer to.
-/

inductive Heap where
  | strings
  | guids
  | blobs
  deriving DecidableEq, Repr

inductive Column where
  | number (width : Nat)
  | heap (h : Heap)
  | row (table : Nat)
  /-- A row of one of several tables, which the lowest bits tell apart. -/
  | coded (bits : Nat) (tables : List (Option Nat))
  deriving DecidableEq, Repr

namespace Column

def string : Column := .heap .strings

def guid : Column := .heap .guids

def blob : Column := .heap .blobs

def tables (bits : Nat) (l : List Nat) : Column :=
  .coded bits (l.map some)

def typeDefOrRef : Column := tables 2 [0x02, 0x01, 0x1B]

def hasConstant : Column := tables 2 [0x04, 0x08, 0x17]

def attributeOwners : List Nat :=
  [0x06, 0x04, 0x01, 0x02, 0x08, 0x09, 0x0A, 0x00, 0x0E, 0x17, 0x14, 0x11, 0x1A, 0x1B, 0x20, 0x23,
    0x26, 0x27, 0x28, 0x2A, 0x2C, 0x2B]

def hasCustomAttribute : Column := tables 5 attributeOwners

def hasFieldMarshal : Column := tables 1 [0x04, 0x08]

def hasDeclSecurity : Column := tables 2 [0x02, 0x06, 0x20]

def memberRefParent : Column := tables 3 [0x02, 0x01, 0x1A, 0x06, 0x1B]

def hasSemantics : Column := tables 1 [0x14, 0x17]

def methodDefOrRef : Column := tables 1 [0x06, 0x0A]

def memberForwarded : Column := tables 1 [0x04, 0x06]

def implementation : Column := tables 2 [0x26, 0x23, 0x27]

def customAttributeType : Column := .coded 3 [none, none, some 0x06, some 0x0A, none]

def resolutionScope : Column := tables 2 [0x00, 0x1A, 0x23, 0x01]

def typeOrMethodDef : Column := tables 1 [0x02, 0x06]

def hasDebugInformation : Column :=
  tables 5 (attributeOwners ++ [0x30, 0x32, 0x33, 0x34, 0x35])

end Column

open Column in
def schema : List (Nat × List Column) :=
  [(0x00, [.number 2, string, guid, guid, guid]),
    (0x01, [resolutionScope, string, string]),
    (0x02, [.number 4, string, string, typeDefOrRef, .row 0x04, .row 0x06]),
    (0x03, [.row 0x04]),
    (0x04, [.number 2, string, blob]),
    (0x05, [.row 0x06]),
    (0x06, [.number 4, .number 2, .number 2, string, blob, .row 0x08]),
    (0x07, [.row 0x08]),
    (0x08, [.number 2, .number 2, string]),
    (0x09, [.row 0x02, typeDefOrRef]),
    (0x0A, [memberRefParent, string, blob]),
    (0x0B, [.number 2, hasConstant, blob]),
    (0x0C, [hasCustomAttribute, customAttributeType, blob]),
    (0x0D, [hasFieldMarshal, blob]),
    (0x0E, [.number 2, hasDeclSecurity, blob]),
    (0x0F, [.number 2, .number 4, .row 0x02]),
    (0x10, [.number 4, .row 0x04]),
    (0x11, [blob]),
    (0x12, [.row 0x02, .row 0x14]),
    (0x13, [.row 0x14]),
    (0x14, [.number 2, string, typeDefOrRef]),
    (0x15, [.row 0x02, .row 0x17]),
    (0x16, [.row 0x17]),
    (0x17, [.number 2, string, blob]),
    (0x18, [.number 2, .row 0x06, hasSemantics]),
    (0x19, [.row 0x02, methodDefOrRef, methodDefOrRef]),
    (0x1A, [string]),
    (0x1B, [blob]),
    (0x1C, [.number 2, memberForwarded, string, .row 0x1A]),
    (0x1D, [.number 4, .row 0x04]),
    (0x1E, [.number 4, .number 4]),
    (0x1F, [.number 4]),
    (0x20, [.number 4, .number 2, .number 2, .number 2, .number 2, .number 4, blob, string, string]),
    (0x21, [.number 4]),
    (0x22, [.number 4, .number 4, .number 4]),
    (0x23, [.number 2, .number 2, .number 2, .number 2, .number 4, blob, string, string, blob]),
    (0x24, [.number 4, .row 0x23]),
    (0x25, [.number 4, .number 4, .number 4, .row 0x23]),
    (0x26, [.number 4, string, blob]),
    (0x27, [.number 4, .number 4, string, string, implementation]),
    (0x28, [.number 4, .number 4, string, implementation]),
    (0x29, [.row 0x02, .row 0x02]),
    (0x2A, [.number 2, .number 2, typeOrMethodDef, string]),
    (0x2B, [methodDefOrRef, blob]),
    (0x2C, [.row 0x2A, typeDefOrRef]),
    (0x30, [blob, guid, blob, guid]),
    (0x31, [.row 0x30, blob]),
    (0x32, [.row 0x06, .row 0x35, .row 0x33, .row 0x34, .number 4, .number 4]),
    (0x33, [.number 2, .number 2, string]),
    (0x34, [string, blob]),
    (0x35, [.row 0x35, blob]),
    (0x36, [.row 0x06, .row 0x06]),
    (0x37, [hasDebugInformation, guid, blob])]

def columns (table : Nat) : List Column :=
  (schema.lookup table).getD []

structure Tables where
  data : Array UInt8
  counts : List (Nat × Nat)
  /-- Heaps whose offsets have four bytes. -/
  wide : List Heap
  /-- Where the rows begin. -/
  start : Nat

namespace Tables

def count (t : Tables) (table : Nat) : Nat :=
  (t.counts.lookup table).getD 0

def width (t : Tables) : Column → Nat
  | .number n => n
  | .heap h => if t.wide.contains h then 4 else 2
  | .row table => if 0xFFFF < t.count table then 4 else 2
  | .coded bits tables =>
    let rows := (tables.map fun table => (table.map t.count).getD 0).foldl max 0
    if Nat.pow 2 (16 - bits) ≤ rows then 4 else 2

def rowSize (t : Tables) (table : Nat) : Nat :=
  ((columns table).map t.width).foldl (· + ·) 0

def offset (t : Tables) (table : Nat) : Nat :=
  (t.counts.filter (·.1 < table)).foldl (fun start (other, n) => start + n * t.rowSize other) t.start

/-- The value of a cell; of several tables the row is given as a token's number. -/
def cell? (t : Tables) (c : Column) : ByteReader Nat := do
  let n ← ByteReader.number (t.width c)
  match c with
  | .coded bits tables =>
    match tables[n % Nat.pow 2 bits]? with
    | some (some table) => return (⟨table, n / Nat.pow 2 bits⟩ : Token).toNat
    | _ => failure
  | _ => return n

/-- The cells of a row. Rows count from 1. -/
def row? (t : Tables) (table row : Nat) : Option (List Nat) :=
  if row = 0 ∨ t.count table < row then none
  else do
    let size := t.rowSize table
    let bytes ← slice? t.data (t.offset table + (row - 1) * size) size
    let (cells, _) ← (columns table).mapM t.cell? bytes
    return cells

/-- Reads the head of a table stream: some table has to be there, and the tables that are there have
to begin within the stream. -/
def ofStream? (data : Array UInt8) : Option Tables := do
  let read : ByteReader (Nat × Nat × List (Nat × Nat) × Nat) := do
    ByteReader.skip 6
    let heaps ← ByteReader.byte
    ByteReader.skip 1
    let valid ← ByteReader.u64
    ByteReader.skip 8
    let present := (List.range 64).filter fun table => valid.testBit table
    let counts ← ByteReader.times ByteReader.u32 present.length
    return (heaps, valid, present.zip counts, present.length)
  let ((heaps, valid, counts, present), _) ← read (slice data 0 (24 + 64 * 4))
  let wide := [(1, Heap.strings), (2, .guids), (4, .blobs)].filterMap fun (bit, h) =>
    if heaps / bit % 2 = 1 then some h else none
  let t : Tables := ⟨data, counts, wide, 24 + 4 * present⟩
  if valid ≠ 0 ∧ counts.all fun (table, _) => t.offset table ≤ data.size then some t else none

end Tables

end CodeGraph.Metadata
