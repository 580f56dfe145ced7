import CodeGraph.Metadata.Heap
import CodeGraph.Metadata.Root
import CodeGraph.Metadata.Table
import CodeGraph.Text.Basic

namespace CodeGraph.Metadata

open CodeGraph.Text

/-!
# Where methods stand in their sources

A file beside an image tells for each method the points of its source that its code comes from. The
place of a method is its first visible point.
-/

structure Pdb where
  documents : List String
  /-- For each method its document, counted from 1, and the line of its first visible point. -/
  methods : List (Option (Nat × Nat))

namespace Pdb

def documentTable : Nat := 0x30

def methodTable : Nat := 0x31

/-- The first visible point behind the head of a method's points, at most so many points on. A change
of document cannot be the first record. -/
def visiblePoint : Nat → (first : Bool) → (document : Nat) → ByteReader (Option (Nat × Nat))
  | 0, _, _ => return none
  | more + 1, first, document => do
    if !(← ByteReader.hasMore) then return none
    let offset ← ByteReader.compressed
    if offset = 0 ∧ !first then
      visiblePoint more false (← ByteReader.compressed)
    else
      let lines ← ByteReader.compressed
      let columns ← if lines = 0 then do pure (Int.ofNat (← ByteReader.compressed))
        else ByteReader.compressedSigned
      if lines = 0 ∧ columns = 0 then visiblePoint more false document
      else return some (document, ← ByteReader.compressed)

/-- What a method's points tell, from their head on. They name a document themselves where their row
names none. -/
def points (fuel document : Nat) : ByteReader (Option (Nat × Nat)) := do
  let _ ← ByteReader.compressed
  let document ← if document = 0 then ByteReader.compressed else pure document
  visiblePoint fuel true document

/-- The document and the line of a method's first visible point, if it has one and its points can be
read. -/
def firstPoint? (blob : Bytes) (document : Nat) : Option (Option (Nat × Nat)) :=
  (points blob.length document blob).map (·.1)

/-- A document's name is made of parts with a separator between. -/
def documentName? (blobs : Array UInt8) (index : Nat) : Option String := do
  let name ← blobAt? blobs index
  let (separator, rest) ← ByteReader.byte name
  let (parts, _) ← ByteReader.untilEnd ByteReader.compressed rest.length rest
  let parts ← parts.mapM fun part =>
    if part = 0 then some "" else (blobAt? blobs part).map ofUtf8Lossy
  return joinWith (if separator = 0 then "" else (Char.ofNat separator).toString) parts

def isPortable (data : Array UInt8) : Bool :=
  slice data 0 4 == rootMark

/-- Reads a file of this format. A method whose points cannot be read has no place. -/
def ofBytes? (data : Array UInt8) : Option Pdb := do
  let entries ← streamDirectory data.toList
  let tables ← Tables.ofStream? (← stream? data entries "#~")
  let blobs ← stream? data entries "#Blob"
  if !isHeap blobs then failure
  let rows := fun table => (List.range (tables.count table)).map (· + 1)
  let documents ← (rows documentTable).mapM fun row => do
    match ← tables.row? documentTable row with
    | name :: _ => documentName? blobs name
    | [] => none
  let methods ← (rows methodTable).mapM fun row => do
    match ← tables.row? methodTable row with
    | [document, points] =>
      if points = 0 then some none
      else some ((blobAt? blobs points).bind fun blob => (firstPoint? blob document).join)
    | _ => none
  return ⟨documents, methods⟩

def location? (p : Pdb) (method : Nat) : Option (String × Nat) := do
  if method = 0 then failure
  let (document, line) ← (← p.methods[method - 1]?)
  if document = 0 then failure
  return (← p.documents[document - 1]?, line)

end Pdb

end CodeGraph.Metadata
