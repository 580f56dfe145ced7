import CodeGraph.Graph.Collected
import Mathlib.Algebra.GroupWithZero.Nat
import Mathlib.Data.List.Sort
import Mathlib.Data.List.SplitBy

namespace CodeGraph

open CodeGraph.Text

/-!
# Tallies

A tally tells of each name how often it comes. It does not depend on the order of the names.
-/

theorem Text.sort_perm (names : List String) : (sort names).Perm names :=
  List.mergeSort_perm names _

/-- The order that texts are sorted by. -/
theorem Text.not_decide_lt {a b : String} : (!decide (b < a)) = true ↔ a ≤ b := by
  rw [Bool.not_eq_true', decide_eq_false_iff_not, String.not_lt]

theorem Text.sort_pairwise (names : List String) : (sort names).Pairwise (· ≤ ·) := by
  have htrans : ∀ a b c : String, (!decide (b < a)) = true → (!decide (c < b)) = true →
      (!decide (c < a)) = true := fun a b c hab hbc =>
    not_decide_lt.mpr (String.le_trans (not_decide_lt.mp hab) (not_decide_lt.mp hbc))
  have htotal : ∀ a b : String, (!decide (b < a) || !decide (a < b)) = true := by
    intro a b
    rw [Bool.or_eq_true, not_decide_lt, not_decide_lt]
    exact String.le_total a b
  exact (List.pairwise_mergeSort htrans htotal names).imp not_decide_lt.mp

theorem Text.sort_eq_of_perm {names names' : List String} (h : names.Perm names') :
    sort names = sort names' :=
  ((sort_perm names).trans (h.trans (sort_perm names').symm)).eq_of_pairwise
    (fun _ _ _ _ hab hba => String.le_antisymm hab hba) (sort_pairwise names) (sort_pairwise names')

namespace Graph

theorem tally_eq_of_perm {names names' : List String} (h : names.Perm names') :
    tally names = tally names' := by
  rw [tally, tally, sort_eq_of_perm h]

/-- The name of a run of equal names, with its length. -/
def counted? (run : List String) : Option (String × Nat) :=
  run.head?.map (·, run.length)

def runs (names : List String) : List (String × Nat) :=
  (names.splitBy (· == ·)).filterMap counted?

/-- In order, the names begin with all those that are equal to the first one. -/
theorem exists_replicate_append {name : String} {more : List String}
    (h : (name :: more).Pairwise (· ≤ ·)) :
    ∃ count rest, name :: more = List.replicate (count + 1) name ++ rest ∧ name ∉ rest := by
  induction more with
  | nil => exact ⟨0, [], rfl, List.not_mem_nil⟩
  | cons next more ih =>
      obtain ⟨hle, hmore⟩ := List.pairwise_cons.mp h
      by_cases heq : next = name
      · subst heq
        obtain ⟨count, rest, hrest, hmem⟩ := ih hmore
        exact ⟨count + 1, rest, by rw [hrest]; rfl, hmem⟩
      · refine ⟨0, next :: more, rfl, fun hmem => ?_⟩
        have hback : next ≤ name := by
          rcases List.mem_cons.mp hmem with rfl | hmem
          · exact String.le_refl _
          · exact (List.pairwise_cons.mp hmore).1 _ hmem
        exact heq (String.le_antisymm hback (hle next List.mem_cons_self))

theorem runs_replicate_append (count : Nat) {name : String} {rest : List String} (h : name ∉ rest) :
    runs (List.replicate (count + 1) name ++ rest) = (name, count + 1) :: runs rest := by
  have hapart : ∀ x ∈ (List.replicate (count + 1) name).getLast?, ∀ y ∈ rest.head?, (x == y) = false := by
    intro x hx y hy
    have hxname : x = name := List.eq_of_mem_replicate (List.mem_of_getLast? hx)
    have hne : x ≠ y := fun heq => h (hxname ▸ heq ▸ List.mem_of_head? hy)
    simpa using hne
  have hchain : (List.replicate (count + 1) name).IsChain fun x y => (x == y) = true :=
    List.isChain_replicate_of_rel _ (by simp)
  rw [runs, List.splitBy_append hapart, List.splitBy_of_isChain (by simp) hchain, runs]
  simp [List.replicate_succ, counted?]

theorem mem_runs_iff {names : List String} (h : names.Pairwise (· ≤ ·)) {name : String} {count : Nat} :
    (name, count) ∈ runs names ↔ count = names.count name ∧ 0 < count := by
  induction hlength : names.length using Nat.strongRecOn generalizing names with
  | _ length ih =>
      cases names with
      | nil =>
          simp only [runs, List.splitBy_nil, List.filterMap_nil, List.not_mem_nil, List.count_nil, false_iff]
          omega
      | cons first more =>
          obtain ⟨repeats, rest, heq, hmem⟩ := exists_replicate_append h
          rw [heq] at h hlength ⊢
          have hshorter : rest.length < length := by
            rw [List.length_append, List.length_replicate] at hlength
            omega
          have hrest := ih rest.length hshorter (List.pairwise_append.mp h).2.1 rfl
          rw [runs_replicate_append repeats hmem, List.mem_cons, hrest, List.count_append,
            List.count_replicate, Prod.mk.injEq]
          by_cases hname : name = first
          · subst hname
            simp only [List.count_eq_zero_of_not_mem hmem, beq_self_eq_true, if_true, true_and]
            omega
          · have hne : (first == name) = false := by simpa using Ne.symm hname
            simp [hname, hne]

/-- Each name that comes is counted as often as it comes. -/
theorem mem_tally_iff {names : List String} {name : String} {count : Nat} :
    (name, count) ∈ tally names ↔ count = names.count name ∧ 0 < count := by
  rw [← (sort_perm names).count_eq name]
  exact mem_runs_iff (sort_pairwise names)

theorem sum_tally (names : List String) : ((tally names).map (·.2)).sum = names.length := by
  have hsum : ∀ parts : List (List String),
      ((parts.filterMap counted?).map (·.2)).sum = parts.flatten.length := by
    intro parts
    induction parts with
    | nil => rfl
    | cons run parts ih =>
        cases run with
        | nil => exact ih
        | cons name run =>
            have hrun : ((name :: run) :: parts).filterMap counted? =
                (name, run.length + 1) :: parts.filterMap counted? := rfl
            rw [hrun, List.map_cons, List.sum_cons, ih, List.flatten_cons, List.length_append,
              List.length_cons]
  rw [← (sort_perm names).length_eq, ← List.flatten_splitBy (· == ·) (sort names)]
  exact hsum _

end Graph

end CodeGraph
