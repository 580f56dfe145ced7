import CodeGraph.Path

namespace CodeGraph.Path

open CodeGraph.Text

/-!
# The order of paths

Paths are ordered by their components, from the left. This is a total order of the lists of components, so
that paths of which none comes before the other are the same path.
-/

theorem ordering_eq_compare (a b : String) : Text.ordering a b = Ord.compare a b := by
  simp only [Text.ordering, Ord.compare, String.compare, compareOfLessAndEq, beq_iff_eq]

namespace Component

/-- The text of a name, by which names are told apart. -/
def nameText : Component → String
  | name text => text
  | _ => ""

theorem compare_eq : Component.compare = compareLex (compareOn rank) (compareOn nameText) := by
  funext a b
  cases a <;> cases b <;> first
    | rfl
    | simp [Component.compare, compareLex, compareOn, rank, nameText, ordering_eq_compare]

theorem eq_of_rank_of_nameText {a b : Component} (hrank : a.rank = b.rank)
    (htext : a.nameText = b.nameText) : a = b := by
  cases a <;> cases b <;> simp_all [rank, nameText]

instance : Std.TransCmp Component.compare :=
  compare_eq ▸ inferInstanceAs (Std.TransCmp (compareLex _ _))

instance : Std.LawfulEqCmp Component.compare where
  eq_of_compare {a b} h := by
    rw [compare_eq, compareLex_eq_eq] at h
    exact eq_of_rank_of_nameText (Nat.compare_eq_eq.mp h.1) (Std.LawfulEqOrd.eq_of_compare h.2)

end Component

theorem compareComponents_eq : compareComponents = List.compareLex Component.compare := by
  funext a b
  induction a generalizing b with
  | nil => cases b <;> rfl
  | cons x a ih =>
      cases b with
      | nil => rfl
      | cons y b =>
          rw [compareComponents, ih, List.compareLex_cons_cons]

theorem compare_eq_compareOn : Path.compare = fun a b =>
    List.compareLex Component.compare (components a) (components b) := by
  funext a b
  rw [Path.compare, compareComponents_eq]

theorem compare_eq_eq_iff {a b : String} : Path.compare a b = .eq ↔ same a b = true := by
  rw [compare_eq_compareOn, Std.LawfulEqCmp.compare_eq_iff_eq, same, beq_iff_eq]

instance : Std.TransCmp Path.compare where
  eq_swap := by
    intro a b
    rw [compare_eq_compareOn]
    exact Std.OrientedCmp.eq_swap
  isLE_trans := by
    intro a b c
    rw [compare_eq_compareOn]
    exact Std.TransCmp.isLE_trans

end CodeGraph.Path
