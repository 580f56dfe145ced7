import CodeGraph.Proofs.Files.PathOrder
import CodeGraph.Proofs.Graph.Nearest

namespace CodeGraph

open CodeGraph.Name

/-!
# From nodes to places

A node leads to the place where it is declared. A node without a place of its own leads to the first of the
places of all that has it among its parents, by path and then by line. The order in which the locations are
kept does not count.
-/

namespace Locator

/-! ## The order of places -/

/-- The same line of the same file, however the path is written. -/
def SamePlace (a b : SourceLocation) : Prop :=
  Path.same a.path b.path = true ∧ a.line = b.line

/-- Places by their paths alone. -/
def comparePaths (a b : SourceLocation) : Ordering :=
  Path.compare a.path b.path

theorem compareLocations_eq : compareLocations = compareLex comparePaths (compareOn (·.line)) :=
  rfl

instance : Std.TransCmp comparePaths where
  eq_swap := by
    intro a b
    exact @Std.OrientedCmp.eq_swap _ Path.compare _ a.path b.path
  isLE_trans := by
    intro a b c
    exact @Std.TransCmp.isLE_trans _ Path.compare _ a.path b.path c.path

instance : Std.TransCmp compareLocations :=
  inferInstanceAs (Std.TransCmp (compareLex comparePaths (compareOn (·.line))))

theorem compareLocations_eq_eq_iff {a b : SourceLocation} :
    compareLocations a b = .eq ↔ SamePlace a b := by
  rw [compareLocations_eq, compareLex_eq_eq, comparePaths, Path.compare_eq_eq_iff, SamePlace, compareOn,
    Nat.compare_eq_eq]

/-! ## Places below a node -/

/-- The name is located at the place, and the node is among its parents. -/
structure IsBelow (items : List Item) (node name : String) (loc : SourceLocation) : Prop where
  located : LocatedAt items name loc
  ancestor : IsAncestor node name

/-- The place of a name below the node, and no other one of them comes before it. -/
structure IsEarliest (items : List Item) (node : String) (loc : SourceLocation) : Prop where
  below : ∃ name, IsBelow items node name loc
  first : ∀ name other, IsBelow items node name other → (compareLocations loc other).isLE = true

variable {items : List Item} {node : String}

theorem IsEarliest.samePlace {a b : SourceLocation} (ha : IsEarliest items node a)
    (hb : IsEarliest items node b) : SamePlace a b := by
  obtain ⟨name, habove⟩ := ha.below
  obtain ⟨name', hbelow⟩ := hb.below
  exact compareLocations_eq_eq_iff.mp
    (Std.OrientedCmp.isLE_antisymm (ha.first name' b hbelow) (hb.first name a habove))

section

variable {s : Locator} (hpaths : ∀ name loc, LocatedAt items name loc → HasSegments name)
  (hnode : HasSegments node) (hs : s.Keeps items)

include hpaths hnode hs

theorem mem_below {loc : SourceLocation} :
    loc ∈ (s.locations.entries.filter fun (n, _) => isAbove node n).map (·.2) ↔
      ∃ name, IsBelow items node name loc := by
  rw [List.mem_map]
  constructor
  · rintro ⟨⟨name, loc⟩, hmem, rfl⟩
    obtain ⟨hmem, habove⟩ := List.mem_filter.mp hmem
    have hloc := hs.mem_iff.mp hmem
    exact ⟨name, hloc, (isAbove_iff_isAncestor hnode (hpaths name loc hloc)).mp habove⟩
  · rintro ⟨name, hloc, hancestor⟩
    refine ⟨(name, loc), List.mem_filter.mpr ⟨hs.mem_iff.mpr hloc, ?_⟩, rfl⟩
    exact (isAbove_iff_isAncestor hnode (hpaths name loc hloc)).mpr hancestor

theorem location?_of_below (hown : ¬ ∃ loc, LocatedAt items node loc)
    (hbelow : ∃ name loc, IsBelow items node name loc) :
    ∃ loc, s.location? node = some loc ∧ IsEarliest items node loc := by
  have hmem := @mem_below _ _ _ hpaths hnode hs
  rw [location?, hs.get?_eq_none hown, Option.none_or]
  cases hleast : minBy compareLocations
      ((s.locations.entries.filter fun (n, _) => isAbove node n).map (·.2)) with
  | none =>
      obtain ⟨name, loc, hin⟩ := hbelow
      have hin' := hmem.mpr ⟨name, hin⟩
      rw [minBy_eq_none.mp hleast] at hin'
      cases hin'
  | some loc =>
      obtain ⟨hloc, hfirst⟩ := minBy_eq_some hleast
      exact ⟨loc, rfl, hmem.mp hloc, fun name other hin => hfirst other (hmem.mpr ⟨name, hin⟩)⟩

theorem location?_of_not_below (hown : ¬ ∃ loc, LocatedAt items node loc)
    (hnone : ¬ ∃ name loc, IsBelow items node name loc) : s.location? node = none := by
  rw [location?, hs.get?_eq_none hown, Option.none_or, minBy_eq_none]
  refine List.eq_nil_iff_forall_not_mem.mpr fun loc hloc => hnone ?_
  obtain ⟨name, hin⟩ := (mem_below hpaths hnode hs).mp hloc
  exact ⟨name, loc, hin⟩

end

/-- A node leads to its own place, else to the first place of the names that have it among their parents,
else nowhere. -/
theorem location?_earliest (items : List Item)
    (hpaths : ∀ name loc, LocatedAt items name loc → HasSegments name) (node : String)
    (hnode : HasSegments node) :
    (∀ loc, LocatedAt items node loc → ∀ s : Locator, s.Keeps items → s.location? node = some loc) ∧
    ((¬ ∃ loc, LocatedAt items node loc) → (∃ name loc, IsBelow items node name loc) →
      ∃ first, IsEarliest items node first ∧ ∀ s : Locator, s.Keeps items →
        ∃ loc, s.location? node = some loc ∧ IsEarliest items node loc ∧ SamePlace loc first) ∧
    ((¬ ∃ loc, LocatedAt items node loc) → (¬ ∃ name loc, IsBelow items node name loc) →
      ∀ s : Locator, s.Keeps items → s.location? node = none) := by
  refine ⟨fun loc hloc s hs => ?_, fun hown hbelow => ?_, fun hown hnone s hs =>
    location?_of_not_below hpaths hnode hs hown hnone⟩
  · rw [location?, hs.get?_eq_some_iff.mpr hloc, Option.some_or]
  · have hself : (ofItems items).Keeps items := List.Perm.refl _
    obtain ⟨first, -, hfirst⟩ := location?_of_below hpaths hnode hself hown hbelow
    refine ⟨first, hfirst, fun s hs => ?_⟩
    obtain ⟨loc, hloc, hearliest⟩ := location?_of_below hpaths hnode hs hown hbelow
    exact ⟨loc, hloc, hearliest, hearliest.samePlace hfirst⟩

/-- The namespace of two files leads to the first of its types, the method to its own line, and another
module nowhere. -/
theorem location?_earliest_twoFiles :
    (∀ name loc, LocatedAt twoFiles name loc → HasSegments name) ∧
    (HasSegments "m.N" ∧ HasSegments "m.N.Foo.Bar(System.Int32)" ∧ HasSegments "n") ∧
    ∀ s : Locator, s.Keeps twoFiles →
      s.location? "m.N.Foo.Bar(System.Int32)" = some ⟨"/d/Foo.cs", 5⟩ ∧
      s.location? "m.N" = some ⟨"/d/Baz.cs", 2⟩ ∧ s.location? "n" = none := by
  have hpaths : ∀ name loc, LocatedAt twoFiles name loc → HasSegments name :=
    hasSegments_of_keys [["m", "N", "Foo"], ["m", "N", "Foo", "Bar(System.Int32)"], ["m", "N", "Baz"]]
      (by decide) (by decide)
  have hnamespace : HasSegments "m.N" := ⟨["m", "N"], by decide, by decide, by decide⟩
  have hmethod : HasSegments "m.N.Foo.Bar(System.Int32)" :=
    ⟨["m", "N", "Foo", "Bar(System.Int32)"], by decide, by decide, by decide⟩
  have hother : HasSegments "n" := ⟨["n"], by decide, by decide, by decide⟩
  refine ⟨hpaths, ⟨hnamespace, hmethod, hother⟩, fun s hs => ⟨?_, ?_, ?_⟩⟩
  · exact (location?_earliest twoFiles hpaths _ hmethod).1 _
      (locatedAt_twoFiles.mpr (.inr (.inl ⟨rfl, rfl⟩))) s hs
  · have hown : ¬ ∃ loc, LocatedAt twoFiles "m.N" loc := by
      rintro ⟨loc, hloc⟩
      rcases locatedAt_twoFiles.mp hloc with ⟨h, -⟩ | ⟨h, -⟩ | ⟨h, -⟩ <;> exact absurd h (by decide)
    have hbaz : IsBelow twoFiles "m.N" "m.N.Baz" ⟨"/d/Baz.cs", 2⟩ :=
      ⟨locatedAt_twoFiles.mpr (.inr (.inr ⟨rfl, rfl⟩)), 0, by decide⟩
    obtain ⟨first, -, hall⟩ :=
      (location?_earliest twoFiles hpaths _ hnamespace).2.1 hown ⟨_, _, hbaz⟩
    obtain ⟨loc, hloc, ⟨⟨name, hbelow⟩, hfirst⟩, -⟩ := hall s hs
    have hle := hfirst _ _ hbaz
    rw [hloc]
    rcases locatedAt_twoFiles.mp hbelow.located with ⟨-, rfl⟩ | ⟨-, rfl⟩ | ⟨-, rfl⟩
    · exact absurd hle (by decide +kernel)
    · exact absurd hle (by decide +kernel)
    · rfl
  · apply (location?_earliest twoFiles hpaths _ hother).2.2
    · rintro ⟨loc, hloc⟩
      rcases locatedAt_twoFiles.mp hloc with ⟨h, -⟩ | ⟨h, -⟩ | ⟨h, -⟩ <;> exact absurd h (by decide)
    · rintro ⟨name, loc, hbelow⟩
      have habove := (isAbove_iff_isAncestor hother (hpaths _ _ hbelow.located)).mpr hbelow.ancestor
      rcases locatedAt_twoFiles.mp hbelow.located with ⟨rfl, -⟩ | ⟨rfl, -⟩ | ⟨rfl, -⟩ <;>
        exact absurd habove (by decide)
    · exact hs

end Locator

end CodeGraph
