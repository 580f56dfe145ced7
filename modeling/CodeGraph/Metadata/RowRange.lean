namespace CodeGraph.Metadata

/-!
# Rows that belong to an owner

Owners follow each other, and so do their rows: the rows of an owner reach from the row that its
column names up to the one that the next owner's column names.
-/

/-- The rows from `start` up to but without `stop`. -/
structure RowRange where
  start : Nat
  stop : Nat
  deriving DecidableEq, Repr

/-- Rows have numbers of 32 bits. -/
def rowLimit : Nat := 0xFFFFFFFF

namespace RowRange

def rows (r : RowRange) : List Nat :=
  List.range' r.start (r.stop - r.start)

def contains (r : RowRange) (row : Nat) : Bool :=
  r.start ≤ row && row < r.stop

/-- What is behind the last row of a table of so many rows, where a number can say it. -/
def behind (count : Nat) : Nat :=
  min (count + 1) rowLimit

/-- The rows from a start to the next owner's start, within a table of so many rows. -/
def ofStarts (start : Nat) (next : Option Nat) (count : Nat) : RowRange :=
  let stop := behind count
  let start := min (max start 1) stop
  ⟨start, min (max (next.getD stop) start) stop⟩

def ofColumn (count : Nat) : List Nat → List RowRange
  | [] => []
  | start :: rest => ofStarts start rest.head? count :: ofColumn count rest

end RowRange

/-- Owners of the rows of a table of so many rows: the last owner whose range holds a row has it, and
0 is the owner of a row that is in no range. Owners count from 1. -/
def owners (count : Nat) (ranges : List RowRange) : Array Nat :=
  ranges.zipIdx.foldl
    (fun owners (r, i) => r.rows.foldl (fun owners row => owners.setIfInBounds (row - 1) (i + 1)) owners)
    (Array.replicate count 0)

end CodeGraph.Metadata
