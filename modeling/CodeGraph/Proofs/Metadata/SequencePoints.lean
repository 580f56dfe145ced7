import CodeGraph.Metadata.Pdb
import CodeGraph.Proofs.Metadata.Written

namespace CodeGraph.Metadata.Pdb

open ByteReader

/-!
# The first visible point of a method

What is written of a method's points begins with a head and with records that show nothing: hidden points
and changes of document. Read from it are the document of the last change and the line of the visible point
behind it, whatever is written after that. Points that end before a visible one are read as having none.
-/

/-- A number that can be written compressed. -/
abbrev Number := Fin (2 ^ 29)

/-! ## What is written -/

/-- What a point of either kind begins with. Its columns may run back only where it spans several lines. -/
def pointBytes (offset lines : Nat) (columns : Int) : Bytes :=
  compressedBytes offset ++ compressedBytes lines ++
    (if lines = 0 then compressedBytes columns.toNat else signedBytes columns)

def ColumnsFit (lines : Nat) (columns : Int) : Prop :=
  if lines = 0 then 0 ≤ columns ∧ columns < 2 ^ 29 else -2 ^ 28 ≤ columns ∧ columns < 2 ^ 28

/-- A record before the first visible point. -/
inductive HiddenRecord
  | point (offset : Number)
  | document (row : Number)

namespace HiddenRecord

def bytes : HiddenRecord → Bytes
  | point offset => pointBytes offset 0 0
  | document row => compressedBytes 0 ++ compressedBytes row

/-- A point comes first, and each later one is further on than the point before it. -/
def MayStand (first : Bool) : HiddenRecord → Prop
  | point offset => first = true ∨ offset ≠ 0
  | document _ => first = false

def inForce (before : Nat) : HiddenRecord → Nat
  | point _ => before
  | document row => row

theorem bytes_ne_nil : ∀ r : HiddenRecord, r.bytes ≠ []
  | point _ => by simp [bytes, pointBytes, compressedBytes_ne_nil]
  | document _ => by simp [bytes, compressedBytes_ne_nil]

end HiddenRecord

def InOrder : (first : Bool) → List HiddenRecord → Prop
  | _, [] => True
  | first, r :: later => r.MayStand first ∧ InOrder false later

/-- What a method's points begin with. -/
structure Lead where
  signature : Number
  initial : Number
  records : List HiddenRecord
  inOrder : InOrder true records

namespace Lead

/-- The initial document is left out where the method's row names it. -/
def bytes (l : Lead) (row : Nat) : Bytes :=
  compressedBytes l.signature ++ (if row = 0 then compressedBytes l.initial else []) ++
    l.records.flatMap (·.bytes)

/-- The document in force behind the records. -/
def document (l : Lead) (row : Nat) : Nat :=
  l.records.foldl HiddenRecord.inForce (if row = 0 then l.initial else row)

end Lead

structure VisiblePoint where
  offset : Number
  lines : Number
  columns : Int
  line : Number
  fits : ColumnsFit lines columns
  visible : ¬((lines : Nat) = 0 ∧ columns = 0)

def VisiblePoint.bytes (p : VisiblePoint) : Bytes :=
  pointBytes p.offset p.lines p.columns ++ compressedBytes p.line

/-! ## Reading one record -/

section Records

variable {more document : Nat} {first : Bool}

theorem visiblePoint_nil : visiblePoint more first document [] = some (none, []) := by
  cases more with
  | zero => rfl
  | succ more => rfl

theorem visiblePoint_document (row : Number) (rest : Bytes) :
    visiblePoint (more + 1) false document ((HiddenRecord.document row).bytes ++ rest) =
      visiblePoint more false row rest := by
  rw [HiddenRecord.bytes, List.append_assoc, visiblePoint,
    bind_eq (hasMore_append (compressedBytes_ne_nil 0) _), if_neg (by decide),
    bind_eq (compressed_written (by decide) _), if_pos ⟨rfl, rfl⟩, bind_eq (compressed_written row.2 rest)]

theorem visiblePoint_point {offset lines : Number} {columns : Int}
    (hoffset : first = true ∨ offset ≠ 0) (hcolumns : ColumnsFit lines columns) (rest : Bytes) :
    visiblePoint (more + 1) first document (pointBytes offset lines columns ++ rest) =
      if (lines : Nat) = 0 ∧ columns = 0 then visiblePoint more false document rest
      else (do return some (document, ← compressed) : ByteReader (Option (Nat × Nat))) rest := by
  have hpoint : ¬((offset : Nat) = 0 ∧ (!first) = true) := by
    rintro ⟨hzero, hlater⟩
    exact hoffset.elim (by simpa using hlater) fun h => h (Fin.ext hzero)
  rw [pointBytes, List.append_assoc, List.append_assoc, visiblePoint,
    bind_eq (hasMore_append (compressedBytes_ne_nil _) _), if_neg (by decide),
    bind_eq (compressed_written offset.2 _), if_neg hpoint, bind_eq (compressed_written lines.2 _)]
  unfold ColumnsFit at hcolumns
  split at hcolumns
  · next hone =>
    have hcast : Int.ofNat columns.toNat = columns := Int.toNat_of_nonneg hcolumns.1
    rw [if_pos hone, if_pos hone, bind_eq (compressed_written (by omega) rest), hcast, pure_bind]
    exact ite_apply _ _ _ rest
  · next hmany =>
    rw [if_neg hmany, if_neg hmany, bind_eq (compressedSigned_written hcolumns.1 hcolumns.2 rest)]
    exact ite_apply _ _ _ rest

end Records

/-! ## Reading all of them -/

/-- A change of document or a hidden point is passed, and only the document in force goes on with it. -/
theorem visiblePoint_hidden {more document : Nat} {first : Bool} {r : HiddenRecord} (hr : r.MayStand first)
    (rest : Bytes) :
    visiblePoint (more + 1) first document (r.bytes ++ rest) =
      visiblePoint more false (r.inForce document) rest := by
  cases r with
  | point offset =>
      have hfit : ColumnsFit (0 : Number) 0 := by simp [ColumnsFit]
      exact (visiblePoint_point hr hfit rest).trans (if_pos ⟨rfl, rfl⟩)
  | document row =>
      obtain rfl : first = false := hr
      exact visiblePoint_document row rest

theorem visiblePoint_records {records : List HiddenRecord} {more document : Nat} {first : Bool}
    (h : InOrder first records) (rest : Bytes) :
    visiblePoint (records.length + more) first document (records.flatMap (·.bytes) ++ rest) =
      visiblePoint more (first && records.isEmpty) (records.foldl HiddenRecord.inForce document) rest := by
  induction records generalizing first document with
  | nil => simp
  | cons r records ih =>
      have hfuel : (r :: records).length + more = records.length + more + 1 := by
        rw [List.length_cons]
        omega
      rw [List.flatMap_cons, List.append_assoc, hfuel, visiblePoint_hidden h.1, ih h.2]
      simp

theorem visiblePoint_visible {more document : Nat} {first : Bool} (p : VisiblePoint)
    (hp : first = true ∨ p.offset ≠ 0) (rest : Bytes) :
    visiblePoint (more + 1) first document (p.bytes ++ rest) = some (some (document, p.line.val), rest) := by
  rw [VisiblePoint.bytes, List.append_assoc, visiblePoint_point hp p.fits, if_neg p.visible]
  exact map_eq (compressed_written p.line.2 rest) fun line => some (document, line)

theorem points_lead (l : Lead) (row fuel : Nat) (rest : Bytes) :
    points fuel row (l.bytes row ++ rest) =
      visiblePoint fuel true (if row = 0 then (l.initial : Nat) else row)
        (l.records.flatMap (·.bytes) ++ rest) := by
  rw [Lead.bytes, List.append_assoc, List.append_assoc, points, bind_eq (compressed_written l.signature.2 _)]
  split
  · exact bind_eq (compressed_written l.initial.2 _) _
  · rfl

theorem length_records_le (records : List HiddenRecord) :
    records.length ≤ (records.flatMap (·.bytes)).length := by
  induction records with
  | nil => exact Nat.le_refl 0
  | cons r records ih =>
      have hr := List.length_pos_iff.mpr r.bytes_ne_nil
      rw [List.flatMap_cons, List.length_append, List.length_cons]
      omega

/-- The records are passed with room to spare for what stands behind them. -/
theorem firstPoint_lead (l : Lead) (row : Nat) (rest : Bytes) :
    ∃ more, firstPoint? (l.bytes row ++ rest) row =
      (visiblePoint (more + 1) l.records.isEmpty (l.document row) rest).map (·.1) := by
  have hsignature := List.length_pos_iff.mpr (compressedBytes_ne_nil l.signature)
  obtain ⟨more, hmore⟩ : ∃ more, (l.bytes row ++ rest).length = l.records.length + (more + 1) := by
    refine ⟨(l.bytes row ++ rest).length - l.records.length - 1, ?_⟩
    have hrecords := length_records_le l.records
    simp only [Lead.bytes, List.length_append]
    omega
  refine ⟨more, ?_⟩
  rw [firstPoint?, hmore, points_lead, visiblePoint_records l.inOrder, Bool.true_and, Lead.document]

/-- The first visible point is read as it is written, and none is read where none is written. -/
theorem firstPoint_written (l : Lead) (row : Nat) :
    firstPoint? (l.bytes row) row = some none ∧
      ∀ (p : VisiblePoint) (rest : Bytes), l.records = [] ∨ p.offset ≠ 0 →
        firstPoint? (l.bytes row ++ p.bytes ++ rest) row = some (some (l.document row, p.line.val)) := by
  constructor
  · obtain ⟨more, hread⟩ := firstPoint_lead l row []
    rw [List.append_nil] at hread
    rw [hread, visiblePoint_nil, Option.map_some]
  · intro p rest hp
    obtain ⟨more, hread⟩ := firstPoint_lead l row (p.bytes ++ rest)
    have hp : l.records.isEmpty = true ∨ p.offset ≠ 0 := hp.imp_left List.isEmpty_iff.mpr
    rw [List.append_assoc, hread, visiblePoint_visible p hp, Option.map_some]

/-- A hidden point, then a change to document 5, then a visible point at line 40. -/
theorem firstPoint_written_switched :
    firstPoint? [0x00, 0x00, 0x00, 0x00, 0x00, 0x05, 0x02, 0x01, 0x02, 0x28, 0x01] 1 = some (some (5, 40)) :=
  (firstPoint_written ⟨0, 0, [.point 0, .document 5], by simp [InOrder, HiddenRecord.MayStand]⟩ 1).2
    ⟨2, 1, 1, 40, by simp [ColumnsFit], by decide⟩ [0x01] (.inr (by decide))

end CodeGraph.Metadata.Pdb
