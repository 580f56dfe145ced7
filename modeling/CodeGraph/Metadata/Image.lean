import CodeGraph.Metadata.Heap
import CodeGraph.Metadata.Root
import CodeGraph.Metadata.Table

namespace CodeGraph.Metadata

/-!
# Images

An image is a file of sections that say at which address they are loaded. Its header for managed code
leads to the metadata.
-/

structure Section where
  address : Nat
  size : Nat
  /-- Offset of the section's bytes in the file. -/
  start : Nat
  deriving Repr

structure Image where
  data : Array UInt8
  sections : List Section
  tables : Tables
  strings : Array UInt8
  blobs : Array UInt8

/-- The offset in the file of what is loaded at an address. -/
def offsetOf? (sections : List Section) (address : Nat) : Option Nat :=
  (sections.find? fun s => s.address ≤ address && address < s.address + s.size).map fun s =>
    address - s.address + s.start

def numberAt? (data : Array UInt8) (start width : Nat) : Option Nat := do
  let bytes ← slice? data start width
  return (← ByteReader.number width bytes).1

def section? (data : Array UInt8) (start : Nat) : Option Section := do
  let size ← numberAt? data (start + 8) 4
  let address ← numberAt? data (start + 12) 4
  let raw ← numberAt? data (start + 20) 4
  return ⟨address, size, raw⟩

/-- Where the directory of the optional header begins, which depends on the header's format. -/
def directoryStart? (format : Nat) : Option Nat :=
  if format = 0x10B then some 96 else if format = 0x20B then some 112 else none

/-- The position of the header for managed code among the directories. -/
def managedDirectory : Nat := 14

def knownStreams : List String :=
  ["#~", "#-", "#Strings", "#US", "#GUID", "#Blob", "#Schema", "#JTD"]

namespace Image

/-- The sections of a file and the address of its header for managed code. -/
def headers? (data : Array UInt8) : Option (List Section × Nat) := do
  let mark ← slice? data 0 2
  if mark ≠ [0x4D, 0x5A] then failure
  let pe ← numberAt? data 0x3C 4
  if (← slice? data pe 4) ≠ [0x50, 0x45, 0, 0] then failure
  let count ← numberAt? data (pe + 6) 2
  let optionalSize ← numberAt? data (pe + 20) 2
  let optionalStart := pe + 24
  let directory ← directoryStart? (← numberAt? data optionalStart 2)
  let directories ← numberAt? data (optionalStart + directory - 4) 4
  if directories ≤ managedDirectory then failure
  let address ← numberAt? data (optionalStart + directory + 8 * managedDirectory) 4
  let sections ← (List.range count).mapM fun i => section? data (optionalStart + optionalSize + 40 * i)
  return (sections, address)

def metadata? (data : Array UInt8) (sections : List Section) (address : Nat) : Option (Array UInt8) := do
  if address = 0 then failure
  let header ← offsetOf? sections address
  let _ ← slice? data header 72
  let start ← offsetOf? sections (← numberAt? data (header + 8) 4)
  part? data start (← numberAt? data (header + 12) 4)

/-- Reads a file; none when it is no image with metadata. -/
def ofBytes? (data : Array UInt8) : Option Image := do
  let (sections, address) ← headers? data
  let root ← metadata? data sections address
  if slice root 0 4 ≠ rootMark then failure
  let entries ← streamDirectory root.toList
  if !(entries.all fun e => knownStreams.contains e.name) then failure
  let tables ← Tables.ofStream? (← stream? root entries "#~")
  let strings := (stream? root entries "#Strings").getD #[]
  let blobs := (stream? root entries "#Blob").getD #[]
  if (isHeap strings || strings.isEmpty) && (isHeap blobs || blobs.isEmpty) then
    return ⟨data, sections, tables, strings, blobs⟩
  else failure

def text? (i : Image) (index : Nat) : Option String :=
  textAt? i.strings index

def blob? (i : Image) (index : Nat) : Option Bytes :=
  blobAt? i.blobs index

def row? (i : Image) (table row : Nat) : Option (List Nat) :=
  i.tables.row? table row

def count (i : Image) (table : Nat) : Nat :=
  i.tables.count table

end Image

end CodeGraph.Metadata
