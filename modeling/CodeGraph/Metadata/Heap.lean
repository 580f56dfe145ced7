import CodeGraph.Metadata.Bytes
import CodeGraph.Text.Utf8

namespace CodeGraph.Metadata

/-!
# Heaps

Rows refer to texts and blobs by their offset in a heap.
-/

/-- A heap begins with a zero byte. -/
def isHeap (data : Array UInt8) : Bool :=
  data[0]? == some 0

/-- The nearest zero byte from an offset on, searched in so many places. -/
def zeroFrom? (heap : Array UInt8) : Nat → Nat → Option Nat
  | 0, _ => none
  | more + 1, start => if heap[start]? = some 0 then some start else zeroFrom? heap more (start + 1)

def terminated? (heap : Array UInt8) (start : Nat) : Option Bytes :=
  (zeroFrom? heap (heap.size - start) start).map fun stop => slice heap start (stop - start)

/-- A text ends before a zero byte. -/
def textAt? (heap : Array UInt8) (start : Nat) : Option String :=
  (terminated? heap start).bind Text.ofUtf8?

/-- A blob has its length in front, as a compressed number. -/
def blobAt? (heap : Array UInt8) (start : Nat) : Option Bytes := do
  let front := slice heap start 4
  let (length, rest) ← ByteReader.compressed front
  slice? heap (start + (front.length - rest.length)) length

end CodeGraph.Metadata
