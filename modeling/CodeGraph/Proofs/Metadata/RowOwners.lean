import CodeGraph.Proofs.Metadata.Indexes
import Mathlib.Data.List.Pairwise

namespace CodeGraph.Metadata

/-!
# Rows and their owners

The ranges of a column lie within the table, however the column runs. Where it never decreases each range
begins where the one before stops, so that the ranges share out the rows, and the owners that are kept row
by row are those whose ranges have the rows.
-/

namespace RowRange

variable {count start : Nat} {next : Option Nat} {column : List Nat} {r : RowRange} {row : Nat}

theorem mem_rows : row ∈ r.rows ↔ r.start ≤ row ∧ row < r.stop := by
  rw [rows, List.mem_range'_1]
  omega

theorem behind_pos (count : Nat) : 1 ≤ behind count := by
  unfold behind rowLimit
  omega

theorem behind_eq (h : count < rowLimit) : behind count = count + 1 := by
  unfold behind
  omega

/-- A range within the numbers that rows of a table can have. -/
structure Within (count : Nat) (r : RowRange) : Prop where
  one_le_start : 1 ≤ r.start
  start_le_stop : r.start ≤ r.stop
  stop_le_behind : r.stop ≤ behind count

theorem within_ofStarts (start : Nat) (next : Option Nat) (count : Nat) :
    (ofStarts start next count).Within count := by
  have hpos := behind_pos count
  constructor <;> dsimp only [ofStarts] <;> omega

theorem within_ofColumn (count : Nat) (column : List Nat) : ∀ r ∈ ofColumn count column, r.Within count := by
  induction column with
  | nil => exact List.forall_mem_nil _
  | cons start rest ih => exact List.forall_mem_cons.mpr ⟨within_ofStarts _ _ _, ih⟩

/-- The first row that an owner can have whose column says `start`. -/
def firstRow (count start : Nat) : Nat :=
  min (max start 1) (behind count)

/-- The range stops where the next owner's begins. -/
theorem ofStarts_some {other : Nat} (h : start ≤ other) :
    ofStarts start (some other) count = ⟨firstRow count start, firstRow count other⟩ := by
  have hpos := behind_pos count
  simp only [ofStarts, firstRow, Option.getD_some, RowRange.mk.injEq, true_and]
  omega

theorem ofStarts_none : ofStarts start none count = ⟨firstRow count start, behind count⟩ := by
  simp only [ofStarts, firstRow, Option.getD_none, RowRange.mk.injEq, true_and]
  omega

theorem firstRow_mono {other : Nat} (h : start ≤ other) : firstRow count start ≤ firstRow count other := by
  unfold firstRow
  omega

/-- The ranges have together what lies between the first start and the end of the table. -/
theorem exists_mem_ofColumn_iff (hsorted : (start :: column).Pairwise (· ≤ ·)) :
    (∃ r ∈ ofColumn count (start :: column), row ∈ r.rows) ↔
      firstRow count start ≤ row ∧ row < behind count := by
  induction column generalizing start with
  | nil => simp [ofColumn, ofStarts_none, mem_rows]
  | cons other rest ih =>
      obtain ⟨hfirst, hrest⟩ := List.pairwise_cons.mp hsorted
      have hle : start ≤ other := hfirst other List.mem_cons_self
      have hmono : firstRow count start ≤ firstRow count other := firstRow_mono hle
      have hbehind : firstRow count other ≤ behind count := Nat.min_le_right _ _
      rw [ofColumn, List.head?_cons, ofStarts_some hle, List.exists_mem_cons_iff, ih hrest, mem_rows]
      dsimp only
      omega

theorem disjoint_ofColumn (count : Nat) (hsorted : column.Pairwise (· ≤ ·)) :
    (ofColumn count column).Pairwise fun r r' => r.rows.Disjoint r'.rows := by
  induction column with
  | nil => exact .nil
  | cons start column ih =>
      obtain ⟨hfirst, hrest⟩ := List.pairwise_cons.mp hsorted
      refine List.pairwise_cons.mpr ⟨fun r hr row hrow hrow' => ?_, ih hrest⟩
      cases column with
      | nil => cases hr
      | cons other rest =>
          -- the later ranges begin where the first one stops
          rw [List.head?_cons, ofStarts_some (hfirst other List.mem_cons_self), mem_rows] at hrow
          have hlater := ((exists_mem_ofColumn_iff hrest).mp ⟨r, hr, hrow'⟩).1
          exact absurd hrow.2 (Nat.not_lt.mpr hlater)

theorem mem_ofColumn_iff (hcount : count < rowLimit) (hsorted : column.Pairwise (· ≤ ·)) :
    (∃ r ∈ ofColumn count column, row ∈ r.rows) ↔
      ∃ first ∈ column.head?, max first 1 ≤ row ∧ row ≤ count := by
  cases column with
  | nil => simp [ofColumn]
  | cons start column =>
      rw [exists_mem_ofColumn_iff hsorted, firstRow, behind_eq hcount]
      simp only [List.head?_cons, Option.mem_def, Option.some.injEq, exists_eq_left']
      omega

end RowRange

/-! ## The owner of each row -/

section Owners

variable {count : Nat} {ranges : List RowRange} {row : Nat}

/-- An owner takes its rows. -/
def takeRows (owners : Array Nat) (owner : Nat) (rows : List Nat) : Array Nat :=
  rows.foldl (fun owners row => owners.setIfInBounds (row - 1) owner) owners

theorem owners_concat (count : Nat) (ranges : List RowRange) (r : RowRange) :
    owners count (ranges ++ [r]) = takeRows (owners count ranges) (ranges.length + 1) r.rows := by
  simp [owners, takeRows, List.zipIdx_append]

theorem getElem?_takeRows {rows : List Nat} (hpos : ∀ row ∈ rows, 1 ≤ row) (l : Array Nat) (owner : Nat)
    (hrow : 1 ≤ row) :
    (takeRows l owner rows)[row - 1]? =
      if row ∈ rows then l[row - 1]?.map fun _ => owner else l[row - 1]? := by
  induction rows generalizing l with
  | nil => simp [takeRows]
  | cons first rows ih =>
      obtain ⟨hfirst, hmore⟩ := List.forall_mem_cons.mp hpos
      have hstep : takeRows l owner (first :: rows) =
          takeRows (l.setIfInBounds (first - 1) owner) owner rows := rfl
      rw [hstep, ih hmore, Array.getElem?_setIfInBounds]
      by_cases hsame : first = row
      · subst hsame
        by_cases hbound : first - 1 < l.size <;> simp [hbound]
      · have hne : first - 1 ≠ row - 1 := by omega
        simp [hne, Ne.symm hsame]

/-- The type is the owner that the ranges give to a row: one whose range has the row, or 0 where there is
none. -/
def IsOwner (ranges : List RowRange) (row type : Nat) : Prop :=
  (type = 0 ∧ ∀ r ∈ ranges, row ∉ r.rows) ∨
    type ≠ 0 ∧ ∃ r, ranges[type - 1]? = some r ∧ row ∈ r.rows

/-- Each row of the table has an owner. -/
theorem exists_owner (hwithin : ∀ r ∈ ranges, r.Within count) (hrow : 1 ≤ row) (hcount : row ≤ count) :
    ∃ type, (owners count ranges)[row - 1]? = some type ∧ IsOwner ranges row type := by
  induction ranges using List.reverseRecOn with
  | nil =>
      have hlt : row - 1 < count := by omega
      exact ⟨0, by simp [owners, hlt], .inl ⟨rfl, List.forall_mem_nil _⟩⟩
  | append_singleton ranges r ih =>
      obtain ⟨type, htype, howner⟩ := ih fun r' hr' => hwithin r' (List.mem_append_left _ hr')
      have hr := hwithin r (List.mem_append_right ranges (List.mem_singleton_self r))
      have hpos : ∀ row ∈ r.rows, 1 ≤ row := by
        intro row hmem
        exact hr.one_le_start.trans (RowRange.mem_rows.mp hmem).1
      rw [owners_concat, getElem?_takeRows hpos _ _ hrow, htype]
      by_cases hmem : row ∈ r.rows
      · refine ⟨ranges.length + 1, if_pos hmem, .inr ⟨Nat.succ_ne_zero _, r, ?_, hmem⟩⟩
        simp
      · refine ⟨type, if_neg hmem, howner.imp ?_ ?_⟩
        · rintro ⟨hzero, hnone⟩
          refine ⟨hzero, fun r' hr' => ?_⟩
          rcases List.mem_append.mp hr' with hr' | hr'
          · exact hnone r' hr'
          · exact List.mem_singleton.mp hr' ▸ hmem
        · rintro ⟨hne, r', hr', hmem'⟩
          have hlt := (List.getElem?_eq_some_iff.mp hr').1
          exact ⟨hne, r', by rw [List.getElem?_append_left hlt, hr'], hmem'⟩

end Owners

namespace BinaryModule

/-- The owners that are kept row by row are the types that have the rows, and 0 stands for none. Types
and rows count from 1. -/
structure OwnedOnce (count : Nat) (rowsOf : Nat → List Nat) (owners : Array Nat) : Prop where
  owner_iff : ∀ row, 1 ≤ row → row ≤ count → ∀ type, type ≠ 0 →
    (owners[row - 1]? = some type ↔ row ∈ rowsOf type)
  no_owner_iff : ∀ row, 1 ≤ row → row ≤ count →
    (owners[row - 1]? = some 0 ↔ ∀ type, row ∉ rowsOf type)

theorem mem_rangeOf {ranges : List RowRange} {row type : Nat} :
    row ∈ rangeOf ranges.toArray type ↔ type ≠ 0 ∧ ∃ r, ranges[type - 1]? = some r ∧ row ∈ r.rows := by
  unfold rangeOf
  split
  · next hzero => simp [hzero]
  · next hne =>
      cases h : ranges[type - 1]? with
      | none => simp [h]
      | some r => simp [h, hne]

theorem notMem_rangeOf {ranges : List RowRange} {row : Nat} (h : ∀ r ∈ ranges, row ∉ r.rows) (type : Nat) :
    row ∉ rangeOf ranges.toArray type := by
  intro hmem
  obtain ⟨-, r, hr, hrow⟩ := mem_rangeOf.mp hmem
  exact h r (List.mem_of_getElem? hr) hrow

theorem eq_of_mem_rangeOf {ranges : List RowRange}
    (hdisjoint : ranges.Pairwise fun r r' => r.rows.Disjoint r'.rows) {row type other : Nat}
    (h : row ∈ rangeOf ranges.toArray type) (h' : row ∈ rangeOf ranges.toArray other) : type = other := by
  obtain ⟨hne, r, hr, hmem⟩ := mem_rangeOf.mp h
  obtain ⟨hne', r', hr', hmem'⟩ := mem_rangeOf.mp h'
  obtain ⟨hlt, rfl⟩ := List.getElem?_eq_some_iff.mp hr
  obtain ⟨hlt', rfl⟩ := List.getElem?_eq_some_iff.mp hr'
  rcases Nat.lt_trichotomy (type - 1) (other - 1) with hless | heq | hless
  · exact absurd hmem' (List.pairwise_iff_getElem.mp hdisjoint _ _ hlt hlt' hless hmem)
  · omega
  · exact absurd hmem (List.pairwise_iff_getElem.mp hdisjoint _ _ hlt' hlt hless hmem')

theorem ownedOnce_owners {count : Nat} {ranges : List RowRange} (hwithin : ∀ r ∈ ranges, r.Within count)
    (hdisjoint : ranges.Pairwise fun r r' => r.rows.Disjoint r'.rows) :
    OwnedOnce count (rangeOf ranges.toArray) (owners count ranges) := by
  constructor
  · intro row hrow hcount type hne
    obtain ⟨owner, howner, ⟨rfl, hnone⟩ | hsome⟩ := exists_owner hwithin hrow hcount
    · rw [howner]
      exact ⟨fun h => absurd (Option.some.inj h).symm hne, fun h => absurd h (notMem_rangeOf hnone type)⟩
    · have hmem := mem_rangeOf.mpr hsome
      rw [howner]
      exact ⟨fun h => Option.some.inj h ▸ hmem, fun h => congrArg some (eq_of_mem_rangeOf hdisjoint hmem h)⟩
  · intro row hrow hcount
    obtain ⟨owner, howner, ⟨rfl, hnone⟩ | hsome⟩ := exists_owner hwithin hrow hcount
    · exact ⟨fun _ => notMem_rangeOf hnone, fun _ => howner⟩
    · rw [howner]
      exact ⟨fun h => absurd (Option.some.inj h) hsome.1,
        fun h => absurd (mem_rangeOf.mpr hsome) (h owner)⟩

theorem ownedOnce_ofColumn (count : Nat) {column : List Nat} (hsorted : column.Pairwise (· ≤ ·)) :
    OwnedOnce count (rangeOf (RowRange.ofColumn count column).toArray)
      (owners count (RowRange.ofColumn count column)) :=
  ownedOnce_owners (RowRange.within_ofColumn count column) (RowRange.disjoint_ofColumn count hsorted)

/-- The ranges of a column stay within the table and within the numbers of rows, whatever the column says.
Where it never decreases they are disjoint, and share out the rows from the first start on; and in an opened
module each method and each field has the owner whose range has it. -/
theorem members_ownedOnce :
    (∀ count column, ∀ r ∈ RowRange.ofColumn count column,
      1 ≤ r.start ∧ r.start ≤ r.stop ∧ r.stop ≤ count + 1 ∧ r.stop ≤ rowLimit) ∧
    (∀ count column, count < rowLimit → column.Pairwise (· ≤ ·) →
      (RowRange.ofColumn count column).Pairwise (fun r r' => r.rows.Disjoint r'.rows) ∧
      ∀ row, (∃ r ∈ RowRange.ofColumn count column, row ∈ r.rows) ↔
        ∃ first ∈ column.head?, max first 1 ≤ row ∧ row ≤ count) ∧
    ∀ t path withLocations m, ofFile t path withLocations = .ok m →
      ∃ types, (m.image.rows TableId.typeDef).mapM m.image.type? = some types ∧
        (m.image.count TableId.method < rowLimit → (types.map (·.firstMethod)).Pairwise (· ≤ ·) →
          OwnedOnce (m.image.count TableId.method) m.methodsOf m.methodOwners) ∧
        (m.image.count TableId.field < rowLimit → (types.map (·.firstField)).Pairwise (· ≤ ·) →
          OwnedOnce (m.image.count TableId.field) m.fieldsOf m.fieldOwners) := by
  refine ⟨fun count column r hr => ?_, fun count column hcount hsorted => ⟨?_, fun row => ?_⟩, ?_⟩
  · obtain ⟨hpos, hle, hbehind⟩ := RowRange.within_ofColumn count column r hr
    exact ⟨hpos, hle, hbehind.trans (Nat.min_le_left _ _), hbehind.trans (Nat.min_le_right _ _)⟩
  · exact RowRange.disjoint_ofColumn count hsorted
  · exact RowRange.mem_ofColumn_iff hcount hsorted
  · intro t path withLocations m hopened
    obtain ⟨types, nested, hgathered⟩ := gathered_ofFile hopened
    refine ⟨types, hgathered.type_rows, fun _ hsorted => ?_, fun _ hsorted => ?_⟩
    · have hmethods : m.methodsOf = rangeOf m.typeMethods := rfl
      rw [hmethods, hgathered.typeMethods, hgathered.methodOwners]
      exact ownedOnce_ofColumn _ hsorted
    · have hfields : m.fieldsOf = rangeOf m.typeFields := rfl
      rw [hfields, hgathered.typeFields, hgathered.fieldOwners]
      exact ownedOnce_ofColumn _ hsorted

/-- The third type has the last two methods, and no type has the first field. -/
theorem members_ownedOnce_twisted : ∃ m, ofFile Twisted.tree "/T.dll" false = .ok m ∧
    m.methodOwners[2]? = some 3 ∧ m.fieldOwners[0]? = some 0 := by
  obtain ⟨m, hopened, hreads⟩ := Twisted.opened
  obtain ⟨types, htypes, hmethods, hfields⟩ := members_ownedOnce.2.2 _ _ _ m hopened
  have hcolumns : types.map (fun type => (type.firstMethod, type.firstField)) = Twisted.columns := by
    have hread := hreads.columns
    rwa [htypes, Option.map_some, Option.some.injEq] at hread
  have hfirstMethods : types.map (·.firstMethod) = [0, 2, 2, 9] := by
    simpa [Twisted.columns, Function.comp_def] using congrArg (List.map Prod.fst) hcolumns
  have hfirstFields : types.map (·.firstField) = [2, 2, 3, 3] := by
    simpa [Twisted.columns, Function.comp_def] using congrArg (List.map Prod.snd) hcolumns
  rw [hreads.methodCount, hfirstMethods] at hmethods
  rw [hreads.fieldCount, hfirstFields] at hfields
  obtain ⟨types', nested, hgathered⟩ := gathered_ofFile hopened
  obtain rfl := Option.some.inj (htypes.symm.trans hgathered.type_rows)
  refine ⟨m, hopened, ?_, ?_⟩
  · rw [(hmethods (by decide) (by decide)).owner_iff 3 (by decide) (by decide) 3 (by decide), methodsOf,
      hgathered.typeMethods, hreads.methodCount, hfirstMethods]
    decide
  · rw [(hfields (by decide) (by decide)).no_owner_iff 1 (by decide) (by decide)]
    intro type
    rw [fieldsOf, hgathered.typeFields, hreads.fieldCount, hfirstFields]
    exact notMem_rangeOf (by decide) type

end BinaryModule

end CodeGraph.Metadata
