import CodeGraph.CSharp.Module
import CodeGraph.Metadata.Reference
import Mathlib.Data.List.Perm.Subperm

namespace CodeGraph

/-!
# Handles of a module

Both kinds of modules number what they define. A walk can be counted against these numbers: no type
nests deeper than there are types, and no more bodies are read than there are members.
-/

theorem length_le_of_forall_lt {l : List Nat} {n : Nat} (hnodup : l.Nodup) (h : ∀ x ∈ l, x < n) :
    l.length ≤ n := by
  have hsub : l ⊆ List.range n := fun x hx => List.mem_range.mpr (h x hx)
  simpa using (hnodup.subperm hsub).length_le

/-- What can be read of a module has a number below the module's counts, and the symbol of a type carries
the number of the type. -/
structure ModuleView.Numbered (v : ModuleView) : Prop where
  type_id : ∀ index id symbol, v.typeSymbol index id = .ok symbol → symbol.id = id
  type_lt : ∀ index id symbol, v.typeSymbol index id = .ok symbol → id < v.typeCount
  body_lt : ∀ index id mentions, v.body index id = .ok mentions → id < v.memberCount

namespace Metadata

theorem Tables.row_le_count {t : Tables} {table row : Nat} {cells : List Nat}
    (h : t.row? table row = some cells) :
    row ≤ t.count table := by
  unfold row? at h
  split at h
  · cases h
  · next hrow =>
      rw [not_or] at hrow
      exact Nat.le_of_not_lt hrow.2

theorem Image.row_le_count {i : Image} {row : Nat} {type : TypeRow} (h : i.type? row = some type) :
    row ≤ i.count TableId.typeDef := by
  simp only [type?, Option.bind_eq_bind, Option.bind_eq_some_iff] at h
  obtain ⟨cells, hcells, -⟩ := h
  exact Tables.row_le_count hcells

namespace BinaryModule

variable {m : BinaryModule}

theorem of_typeSymbol_eq_ok {row : Nat} {symbol : TypeSymbol} (h : m.typeSymbol row = .ok symbol) :
    symbol.id = row ∧ ∃ type, m.image.type? row = some type := by
  unfold typeSymbol at h
  cases hchain : m.chain? row with
  | none =>
      rw [hchain] at h
      cases h
  | some chain =>
      cases htype : m.image.type? row with
      | none =>
          rw [hchain, htype] at h
          cases h
      | some type =>
          rw [hchain, htype] at h
          cases h
          exact ⟨rfl, type, rfl⟩

theorem view_numbered (m : BinaryModule) : m.view.Numbered where
  type_id _ _ _ h := (of_typeSymbol_eq_ok h).1
  type_lt _ _ _ h := by
    obtain ⟨-, type, htype⟩ := of_typeSymbol_eq_ok h
    exact Nat.lt_succ_of_le (Image.row_le_count htype)
  body_lt index token mentions h := by
    simp only [view] at h
    split at h
    · assumption
    · cases h

end BinaryModule

end Metadata

namespace CSharp.SourceModule

theorem view_numbered (s : SourceModule) : s.view.Numbered where
  type_id index id symbol h := by
    simp only [view] at h
    split at h
    · cases h
      rfl
    · cases h
  type_lt index id symbol h := by
    simp only [view] at h
    split at h
    · next htype => exact (Array.getElem?_eq_some_iff.mp htype).1
    · cases h
  body_lt index id mentions h := by
    simp only [view, body] at h
    split at h
    · cases h
    · next hmember => exact (Array.getElem?_eq_some_iff.mp hmember).1

end CSharp.SourceModule

end CodeGraph
