import CodeGraph.Proofs.Name.Segments
import Mathlib.Data.List.Induction

namespace CodeGraph.Name

open CodeGraph.Text

/-!
# Paths below a root

The name of a node is the root of its module with segments put behind it. Different lists of segments
give different names, and names below roots of which none lies below the other are different as well.
-/

/-- One part of a path. -/
structure IsSegment (s : String) : Prop where
  ne_empty : s ≠ ""
  balanced : Balanced s
  undotted : IsUndotted s

instance (s : String) : Decidable (IsSegment s) :=
  decidable_of_iff (s ≠ "" ∧ Balanced s ∧ IsUndotted s)
    ⟨fun h => ⟨h.1, h.2.1, h.2.2⟩, fun h => ⟨h.ne_empty, h.balanced, h.undotted⟩⟩

/-! ## Names within names -/

/-- The name is `above`, or it lies below it. -/
def IsWithin (above name : String) : Prop :=
  above.toList ++ ['.'] <+: name.toList ++ ['.']

instance (above name : String) : Decidable (IsWithin above name) :=
  inferInstanceAs (Decidable (_ <+: _))

theorem IsWithin.refl (name : String) : IsWithin name name :=
  List.prefix_rfl

theorem IsWithin.trans {a b c : String} (h : IsWithin a b) (h' : IsWithin b c) : IsWithin a c :=
  List.IsPrefix.trans h h'

theorem isWithin_join {a : String} (ha : a ≠ "") (b : String) : IsWithin a (join a b) := by
  unfold IsWithin
  by_cases hb : b = ""
  · simp [hb]
  · rw [toList_join, joinChars_of_ne_nil (toList_ne_nil ha) (toList_ne_nil hb)]
    exact ⟨b.toList ++ ['.'], by simp⟩

theorem not_isWithin_join {a b : String} (ha : a ≠ "") (hb : b ≠ "") : ¬ IsWithin (join a b) a := by
  intro h
  have hlength := List.IsPrefix.length_le h
  rw [toList_join, joinChars_of_ne_nil (toList_ne_nil ha) (toList_ne_nil hb)] at hlength
  simp only [List.length_append, List.length_cons, List.length_nil] at hlength
  omega

theorem isWithin_foldl_join {root : String} (hroot : root ≠ "") (segments : List String) :
    IsWithin root (segments.foldl join root) := by
  induction segments generalizing root with
  | nil => exact .refl root
  | cons segment segments ih =>
      exact (isWithin_join hroot segment).trans (ih (join_ne_empty (Or.inl hroot)))

/-- Of two names that a third one lies within, one lies within the other. -/
theorem IsWithin.comparable {a b name : String} (ha : IsWithin a name) (hb : IsWithin b name) :
    IsWithin a b ∨ IsWithin b a :=
  List.prefix_or_prefix_of_prefix ha hb

/-! ## Lists of segments -/

theorem join_right_cancel {a b c : String} (ha : a ≠ "") (hb : b ≠ "") (hc : c ≠ "")
    (h : join a b = join a c) : b = c := by
  have hchars := congrArg String.toList h
  rw [toList_join, toList_join, joinChars_of_ne_nil (toList_ne_nil ha) (toList_ne_nil hb),
    joinChars_of_ne_nil (toList_ne_nil ha) (toList_ne_nil hc)] at hchars
  exact String.toList_injective (List.cons.inj (List.append_cancel_left hchars)).2

theorem foldl_join_ne_empty {root : String} (hroot : root ≠ "") (segments : List String) :
    segments.foldl join root ≠ "" := by
  induction segments generalizing root with
  | nil => exact hroot
  | cons segment segments ih => exact ih (join_ne_empty (Or.inl hroot))

/-- A name is cut into its segments in one way only. -/
theorem foldl_join_injective {root : String} (hroot : root ≠ "" ∧ Balanced root) {a b : List String}
    (ha : ∀ segment ∈ a, IsSegment segment) (hb : ∀ segment ∈ b, IsSegment segment)
    (h : a.foldl join root = b.foldl join root) : a = b := by
  -- a path that goes on is not the root itself
  have longer : ∀ (l : List String) (x : String), x ≠ "" → root ≠ join (l.foldl join root) x := by
    intro l x hx heq
    apply not_isWithin_join (foldl_join_ne_empty hroot.1 l) hx
    rw [← heq]
    exact isWithin_foldl_join hroot.1 l
  have above : ∀ (l : List String) (x : String), (∀ segment ∈ l ++ [x], IsSegment segment) →
      parent (join (l.foldl join root) x) = l.foldl join root := by
    intro l x hl
    have hx := hl x (by simp)
    refine parent_join (foldl_join_ne_empty hroot.1 l) hx.ne_empty ?_ hx.undotted
    exact foldl_join_balanced (fun segment hs => (hl segment (by simp [hs])).balanced) hroot.2
  induction a using List.reverseRecOn generalizing b with
  | nil =>
      rcases List.eq_nil_or_concat b with rfl | ⟨l, y, rfl⟩
      · rfl
      · rw [List.concat_eq_append] at hb h
        simp only [List.foldl_append, List.foldl_cons, List.foldl_nil] at h
        exact absurd h (longer l y (hb y (by simp)).ne_empty)
  | append_singleton a x ih =>
      rcases List.eq_nil_or_concat b with rfl | ⟨l, y, rfl⟩
      · simp only [List.foldl_append, List.foldl_cons, List.foldl_nil] at h
        exact absurd h.symm (longer a x (ha x (by simp)).ne_empty)
      · rw [List.concat_eq_append] at hb ⊢
        simp only [List.concat_eq_append, List.foldl_append, List.foldl_cons, List.foldl_nil] at h
        have hinit : a.foldl join root = l.foldl join root := by
          rw [← above a x ha, ← above l y hb, h]
        obtain rfl := ih (fun s hs => ha s (by simp [hs])) (fun s hs => hb s (by simp [hs])) hinit
        rw [join_right_cancel (foldl_join_ne_empty hroot.1 a) (ha x (by simp)).ne_empty
          (hb y (by simp)).ne_empty h]

end CodeGraph.Name
