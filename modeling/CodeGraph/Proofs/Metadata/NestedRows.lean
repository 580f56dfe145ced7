import CodeGraph.Proofs.Metadata.Indexes
import CodeGraph.Proofs.Walk.Descent

namespace CodeGraph.Metadata.BinaryModule

/-!
# Nested types by their rows

Of several rows for one nested type the first counts that does not nest the type in itself. So one type at
most lies around each, whatever the rows say, and none around a type of the top level.
-/

/-- The type around a type, by the rows of nesting. -/
def aroundIn? (rows : List (Nat × Nat)) (nested : Nat) : Option Nat :=
  if nested = 0 then none else (rows.find? fun row => row.1 = nested ∧ row.2 ≠ nested).map (·.2)

section Rows

variable {rows : List (Nat × Nat)} {x outer : Nat}

/-- One row is read after others. -/
def nest (l : List (Nat × Nat)) (row : Nat × Nat) : List (Nat × Nat) :=
  if row.1 = 0 ∨ row.1 = row.2 ∨ l.any (·.1 == row.1) then l else l ++ [row]

theorem nestingOf_eq (rows : List (Nat × Nat)) : nestingOf rows = rows.foldl nest [] := rfl

theorem aroundIn?_cons (row : Nat × Nat) (rows : List (Nat × Nat)) (x : Nat) :
    aroundIn? (row :: rows) x = (aroundIn? [row] x).or (aroundIn? rows x) := by
  unfold aroundIn?
  split
  · rfl
  · by_cases hrow : row.1 = x ∧ row.2 ≠ x <;> simp [hrow]

theorem exists_lookup_of_any {l : List (Nat × Nat)} (h : l.any (·.1 == x) = true) :
    ∃ outer, l.lookup x = some outer := by
  rw [← Option.isSome_iff_exists, Option.isSome_iff_ne_none, ne_eq, List.lookup_eq_none_iff]
  intro hnone
  obtain ⟨row, hrow, heq⟩ := List.any_eq_true.mp h
  simpa [eq_of_beq heq] using hnone row hrow

theorem lookup_nest (l : List (Nat × Nat)) (row : Nat × Nat) (x : Nat) :
    (nest l row).lookup x = (l.lookup x).or (aroundIn? [row] x) := by
  unfold nest
  split
  · next hdropped =>
      by_cases hany : l.any (·.1 == x) = true
      · obtain ⟨outer, houter⟩ := exists_lookup_of_any hany
        rw [houter, Option.some_or]
      · have hnone : aroundIn? [row] x = none := by
          unfold aroundIn?
          grind
        rw [hnone, Option.or_none]
  · next hkept =>
      rw [List.lookup_append]
      congr 1
      unfold aroundIn?
      grind

theorem lookup_foldl_nest (l rows : List (Nat × Nat)) (x : Nat) :
    (rows.foldl nest l).lookup x = (l.lookup x).or (aroundIn? rows x) := by
  induction rows generalizing l with
  | nil => simp [aroundIn?]
  | cons row rows ih => rw [List.foldl_cons, ih, lookup_nest, Option.or_assoc, ← aroundIn?_cons]

theorem lookup_nestingOf (rows : List (Nat × Nat)) (x : Nat) :
    (nestingOf rows).lookup x = aroundIn? rows x := by
  rw [nestingOf_eq, lookup_foldl_nest, List.lookup_nil, Option.none_or]

theorem nodup_nest {l : List (Nat × Nat)} (hl : (l.map (·.1)).Nodup) (row : Nat × Nat) :
    ((nest l row).map (·.1)).Nodup := by
  unfold nest
  split
  · exact hl
  · next hkept =>
      rw [List.map_append, List.map_singleton]
      refine List.nodup_append.mpr ⟨hl, List.nodup_singleton _, ?_⟩
      rintro x hx y hy rfl
      obtain ⟨old, hold, rfl⟩ := List.mem_map.mp hx
      have hany : l.any (·.1 == row.1) = true :=
        List.any_eq_true.mpr ⟨old, hold, beq_iff_eq.mpr (List.mem_singleton.mp hy)⟩
      exact hkept (.inr (.inr hany))

theorem nodup_nestingOf (rows : List (Nat × Nat)) : ((nestingOf rows).map (·.1)).Nodup := by
  rw [nestingOf_eq]
  have hall : ∀ l : List (Nat × Nat), (l.map (·.1)).Nodup → ((rows.foldl nest l).map (·.1)).Nodup := by
    induction rows with
    | nil => exact fun l hl => hl
    | cons row rows ih => exact fun l hl => ih _ (nodup_nest hl row)
  exact hall [] List.nodup_nil

/-- Where no two pairs have one first component, a pair is in the list exactly if it is found there. -/
theorem mem_iff_lookup {l : List (Nat × Nat)} (hnodup : (l.map (·.1)).Nodup) :
    (x, outer) ∈ l ↔ l.lookup x = some outer := by
  constructor
  · intro hmem
    obtain ⟨before, after, rfl⟩ := List.append_of_mem hmem
    refine List.lookup_eq_some_iff.mpr ⟨before, after, rfl, fun row hrow => ?_⟩
    rw [List.map_append, List.nodup_append] at hnodup
    have hne := hnodup.2.2 row.1 (List.mem_map_of_mem hrow) x (by simp)
    simpa using Ne.symm hne
  · intro hfound
    obtain ⟨before, after, rfl, -⟩ := List.lookup_eq_some_iff.mp hfound
    exact List.mem_append_right before List.mem_cons_self

end Rows

/-! ## Opened modules -/

variable {m : BinaryModule} {types : List TypeRow} {nested : List (Nat × Nat)}

theorem Gathered.enclosing?_eq (h : m.Gathered types nested) (type : Nat) :
    m.enclosing? type = aroundIn? nested type := by
  rw [enclosing?, h.nesting, lookup_nestingOf]

theorem Gathered.nestsOnce (h : m.Gathered types nested) :
    NestsOnce m.nestedTypes (aroundIn? nested) m.topLevel where
  mem_iff inner outer := by
    have hpair : (inner, outer) ∈ nestingOf nested ↔ (nestingOf nested).lookup inner = some outer :=
      mem_iff_lookup (nodup_nestingOf nested)
    rw [nestedTypes, List.mem_mergeSort, h.nesting, ← lookup_nestingOf, ← hpair]
    simp
  nested_nodup outer := by
    rw [nestedTypes, (List.mergeSort_perm _ _).nodup_iff, h.nesting]
    exact (nodup_nestingOf nested).sublist (List.filter_sublist.map _)
  roots_nodup := by
    refine List.Nodup.sublist List.filter_sublist ?_
    exact List.nodup_range.map fun a b heq => Nat.add_right_cancel heq
  outermost root hroot := by
    have htop := (List.mem_filter.mp hroot).2
    rw [Bool.and_eq_true, h.enclosing?_eq, Option.isNone_iff_eq_none] at htop
    exact htop.1

/-- Going down from the top level comes to an end, whatever the rows of nesting say, and takes exactly the
types whose way out ends at a type of the top level, each of them once. So does the walk over types, which
goes down only where a type gets a node. -/
theorem goesDown_once {t : FileTree} {path : String} {withLocations : Bool}
    (hopened : ofFile t path withLocations = .ok m) :
    ∃ rows, m.image.pairs? TableId.nestedClass = some rows ∧
      ∃ taken, GoesDown m.nestedTypes m.topLevel taken ∧ taken.Nodup ∧
        (∀ type, type ∈ taken ↔ EndsAt (aroundIn? rows) m.topLevel type) ∧
        ∀ ctx : WalkContext, ctx.view = m.view →
          (∃ met, GoesDown ctx.inside m.topLevel met ∧ met.Sublist taken) ∧
          ∀ s, ctx.Pops ⟨.empty, .empty, s⟩ (m.topLevel.map (·, none)) (ctx.typesMet s) := by
  obtain ⟨types, nested, hgathered⟩ := gathered_ofFile hopened
  refine ⟨nested, hgathered.nested_rows, ?_⟩
  have hinner : ∀ x outer, aroundIn? nested x = some outer → x ∈ m.nesting.map (·.1) := by
    intro x outer h
    rw [← lookup_nestingOf, ← mem_iff_lookup (nodup_nestingOf nested), ← hgathered.nesting] at h
    exact List.mem_map_of_mem h
  obtain ⟨taken, hgoes, hnodup, hmem⟩ := hgathered.nestsOnce.exists_goesDown hinner
  refine ⟨taken, hgoes, hnodup, hmem, fun ctx hview => ?_⟩
  have hnested : ctx.view.nested = m.nestedTypes := congrArg ModuleView.nested hview
  have htop : ctx.view.topLevel = m.topLevel := congrArg ModuleView.topLevel hview
  have hcount : ctx.CountsTypes := WalkContext.countsTypes_of_numbered (hview ▸ m.view_numbered)
  constructor
  · exact hgoes.exists_sublist (fun x => hnested ▸ ctx.inside_sublist x) (List.Sublist.refl _)
  · intro s
    rw [← hnested, ← htop] at hgoes
    have hpops := WalkContext.pops_of_goesDown hcount hgoes hnodup s
    rwa [htop] at hpops

/-- The second type is met in the first. The third and the fourth lie in each other, and are not met. -/
theorem goesDown_once_twisted : ∃ m, ofFile Twisted.tree "/T.dll" false = .ok m ∧
    ∃ taken, GoesDown m.nestedTypes m.topLevel taken ∧ taken.Nodup ∧ 2 ∈ taken ∧ 3 ∉ taken := by
  obtain ⟨m, hopened, hreads⟩ := Twisted.opened
  obtain ⟨rows, hrows, taken, hgoes, hnodup, hmem, -⟩ := goesDown_once hopened
  obtain rfl := Option.some.inj (hreads.nested.symm.trans hrows)
  refine ⟨m, hopened, taken, hgoes, hnodup, (hmem 2).mpr ?_, fun h => ?_⟩
  · exact ⟨1, by simp [hreads.topLevel], .single rfl⟩
  · obtain ⟨root, hroot, hway⟩ := (hmem 3).mp h
    rw [hreads.topLevel, List.mem_singleton] at hroot
    have hcycle : root = 3 ∨ root = 4 := by
      clear hroot
      induction hway with
      | refl => exact .inl rfl
      | tail _ hstep ih =>
          rcases ih with rfl | rfl
          · exact .inr (Option.some.inj hstep).symm
          · exact .inl (Option.some.inj hstep).symm
    omega

end CodeGraph.Metadata.BinaryModule
