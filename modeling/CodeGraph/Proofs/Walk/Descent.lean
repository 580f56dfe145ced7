import CodeGraph.Proofs.Walk.TypeOrder
import Mathlib.Logic.Relation

namespace CodeGraph

/-!
# Going down from the top level

What waits is taken from the front, and what is nested in it waits in its place. Where at most one type
lies around each, and none around those at the top, this comes to an end whatever else the nesting says:
a type waits only once, since the type around it is taken only once. Cycles have no way in.
-/

/-- From what waits, the second list is taken, one after the other, until nothing waits any more. -/
inductive GoesDown (nested : Nat → List Nat) : List Nat → List Nat → Prop
  | done : GoesDown nested [] []
  | take {handle : Nat} {waiting taken : List Nat} (h : GoesDown nested (nested handle ++ waiting) taken) :
      GoesDown nested (handle :: waiting) (handle :: taken)

namespace GoesDown

open TypeTree

variable {nested : Nat → List Nat} {waiting taken : List Nat}

/-- Less waits and less is nested, so less is taken. -/
theorem exists_sublist {nested' : Nat → List Nat} (hsub : ∀ x, (nested' x).Sublist (nested x))
    (h : GoesDown nested waiting taken) {waiting' : List Nat} (hwaiting : waiting'.Sublist waiting) :
    ∃ taken', GoesDown nested' waiting' taken' ∧ taken'.Sublist taken := by
  induction h generalizing waiting' with
  | done =>
      obtain rfl := List.sublist_nil.mp hwaiting
      exact ⟨[], .done, List.Sublist.refl _⟩
  | @take handle waiting taken _ ih =>
      cases hwaiting with
      | cons _ hrest =>
          obtain ⟨taken', hgoes, htaken⟩ := ih (hrest.trans (List.sublist_append_right _ _))
          exact ⟨taken', hgoes, htaken.cons handle⟩
      | cons_cons _ hrest =>
          obtain ⟨taken', hgoes, htaken⟩ := ih ((hsub handle).append hrest)
          exact ⟨handle :: taken', .take hgoes, htaken.cons_cons handle⟩

/-- What is taken are the handles of trees that unfold from what waits. -/
theorem exists_trees (h : GoesDown nested waiting taken) :
    ∃ trees, trees.map handle = waiting ∧ UnfoldAll nested trees ∧ handlesAll trees = taken := by
  induction h with
  | done => exact ⟨[], rfl, trivial, rfl⟩
  | @take root waiting taken _ ih =>
      obtain ⟨trees, hroots, hunfolds, hhandles⟩ := ih
      obtain ⟨inside, rest, rfl, hinside, hrest⟩ := List.map_eq_append_iff.mp hroots
      have hall := unfoldAll_iff.mp hunfolds
      refine ⟨.node root inside :: rest, ?_, ?_, ?_⟩
      · rw [List.map_cons, hrest]
        rfl
      · refine ⟨⟨hinside, unfoldAll_iff.mpr ?_⟩, unfoldAll_iff.mpr ?_⟩
        · exact fun t ht => hall t (List.mem_append_left rest ht)
        · exact fun t ht => hall t (List.mem_append_right inside ht)
      · rw [← hhandles, handlesAll_eq, handlesAll_eq, List.flatMap_cons, List.flatMap_append, handles,
          handlesAll_eq, List.cons_append]

end GoesDown

/-! ## One type around each -/

/-- The way from a type through those around it ends at one of the roots. -/
def EndsAt (around : Nat → Option Nat) (roots : List Nat) (x : Nat) : Prop :=
  ∃ root ∈ roots, Relation.ReflTransGen (fun inner outer => around inner = some outer) x root

/-- Each type lies in the one type around it, listed once, and nothing lies around the roots. -/
structure NestsOnce (nested : Nat → List Nat) (around : Nat → Option Nat) (roots : List Nat) : Prop where
  mem_iff : ∀ inner outer, inner ∈ nested outer ↔ around inner = some outer
  nested_nodup : ∀ outer, (nested outer).Nodup
  roots_nodup : roots.Nodup
  outermost : ∀ root ∈ roots, around root = none

/-- The types that were taken and those that wait: each is there once, for the roots wait from the start and
the others since the type around them was taken. -/
structure Descending (around : Nat → Option Nat) (roots taken waiting : List Nat) : Prop where
  nodup : (taken ++ waiting).Nodup
  roots_met : roots ⊆ taken ++ waiting
  around_taken : ∀ x ∈ taken ++ waiting, x ∈ roots ∨ ∃ outer ∈ taken, around x = some outer
  nested_met : ∀ outer ∈ taken, ∀ x, around x = some outer → x ∈ taken ++ waiting
  endsAt : ∀ x ∈ taken ++ waiting, EndsAt around roots x

namespace Descending

variable {nested : Nat → List Nat} {around : Nat → Option Nat} {roots taken waiting : List Nat}

theorem start (hn : NestsOnce nested around roots) : Descending around roots [] roots where
  nodup := hn.roots_nodup
  roots_met := List.Subset.refl _
  around_taken _ hx := .inl hx
  nested_met _ h := absurd h List.not_mem_nil
  endsAt x hx := ⟨x, hx, .refl⟩

/-- What is nested in a type that waits was not met before. -/
theorem notMem_of_nested (hn : NestsOnce nested around roots) {first x : Nat}
    (h : Descending around roots taken (first :: waiting)) (hx : around x = some first) :
    x ∉ taken ++ first :: waiting := by
  intro hmet
  rcases h.around_taken x hmet with hroot | ⟨outer, houter, heq⟩
  · exact absurd (hx.symm.trans (hn.outermost x hroot)) (by simp)
  · obtain rfl := Option.some.inj (heq.symm.trans hx)
    exact (List.nodup_append.mp h.nodup).2.2 outer houter outer List.mem_cons_self rfl

theorem take (hn : NestsOnce nested around roots) {first : Nat}
    (h : Descending around roots taken (first :: waiting)) :
    Descending around roots (taken ++ [first]) (nested first ++ waiting) := by
  have hperm : (taken ++ [first] ++ (nested first ++ waiting)).Perm
      (nested first ++ (taken ++ first :: waiting)) := by
    rw [List.append_cons taken first waiting]
    exact List.perm_append_comm_assoc _ _ _
  have hmem : ∀ x, x ∈ taken ++ [first] ++ (nested first ++ waiting) ↔
      x ∈ nested first ∨ x ∈ taken ++ first :: waiting := by
    intro x
    rw [hperm.mem_iff, List.mem_append]
  refine ⟨hperm.nodup_iff.mpr ?_, fun x hx => (hmem x).mpr (.inr (h.roots_met hx)), ?_, ?_, ?_⟩
  · refine List.nodup_append.mpr ⟨hn.nested_nodup first, h.nodup, ?_⟩
    rintro x hx y hy rfl
    exact h.notMem_of_nested hn ((hn.mem_iff x first).mp hx) hy
  · intro x hx
    rcases (hmem x).mp hx with hnew | hmet
    · exact .inr ⟨first, by simp, (hn.mem_iff x first).mp hnew⟩
    · refine (h.around_taken x hmet).imp_right ?_
      rintro ⟨outer, houter, heq⟩
      exact ⟨outer, List.mem_append_left _ houter, heq⟩
  · intro outer houter x hx
    rcases List.mem_append.mp houter with houter | houter
    · exact (hmem x).mpr (.inr (h.nested_met outer houter x hx))
    · obtain rfl := List.mem_singleton.mp houter
      exact (hmem x).mpr (.inl ((hn.mem_iff x outer).mpr hx))
  · intro x hx
    rcases (hmem x).mp hx with hnew | hmet
    · obtain ⟨root, hroot, hway⟩ := h.endsAt first (by simp)
      exact ⟨root, hroot, .head ((hn.mem_iff x first).mp hnew) hway⟩
    · exact h.endsAt x hmet

/-- What is taken next is a root or nested in something, as is all that was taken before. -/
theorem length_lt {inner : List Nat} (hinner : ∀ x outer, around x = some outer → x ∈ inner) {first : Nat}
    (h : Descending around roots taken (first :: waiting)) : taken.length < (roots ++ inner).length := by
  have hmet : (taken ++ [first]).Sublist (taken ++ first :: waiting) :=
    List.Sublist.append_left (by simp) taken
  have hsub : taken ++ [first] ⊆ roots ++ inner := by
    intro x hx
    refine List.mem_append.mpr ((h.around_taken x (hmet.subset hx)).imp_right ?_)
    rintro ⟨outer, -, heq⟩
    exact hinner x outer heq
  have hlength := ((h.nodup.sublist hmet).subperm hsub).length_le
  rw [List.length_append, List.length_singleton] at hlength
  omega

/-- Each step takes a type that was not taken before, so the steps come to an end. -/
theorem exists_goesDown (hn : NestsOnce nested around roots) {inner : List Nat}
    (hinner : ∀ x outer, around x = some outer → x ∈ inner)
    (h : Descending around roots taken waiting) :
    ∃ rest, GoesDown nested waiting rest ∧ Descending around roots (taken ++ rest) [] := by
  induction hleft : (roots ++ inner).length - taken.length using Nat.strongRecOn
    generalizing taken waiting with
  | ind left ih =>
      cases waiting with
      | nil => exact ⟨[], .done, by rwa [List.append_nil]⟩
      | cons first waiting =>
          have hlt := h.length_lt hinner
          have hless : (roots ++ inner).length - (taken ++ [first]).length < left := by
            have hmore : (taken ++ [first]).length = taken.length + 1 := by simp
            omega
          obtain ⟨rest, hgoes, hlast⟩ := ih _ hless (h.take hn) rfl
          exact ⟨first :: rest, .take hgoes, by rwa [List.append_cons]⟩

theorem mem_iff (h : Descending around roots taken []) {x : Nat} :
    x ∈ taken ↔ EndsAt around roots x := by
  have hnil := List.append_nil taken
  refine ⟨fun hx => h.endsAt x (hnil.symm ▸ hx), ?_⟩
  rintro ⟨root, hroot, hway⟩
  induction hway using Relation.ReflTransGen.head_induction_on with
  | refl => exact hnil ▸ h.roots_met hroot
  | head hstep _ ih => exact hnil ▸ h.nested_met _ ih _ hstep

end Descending

/-- Exactly the types whose way out ends at a root are taken, each of them once. -/
theorem NestsOnce.exists_goesDown {nested : Nat → List Nat} {around : Nat → Option Nat} {roots : List Nat}
    (hn : NestsOnce nested around roots) {inner : List Nat}
    (hinner : ∀ x outer, around x = some outer → x ∈ inner) :
    ∃ taken, GoesDown nested roots taken ∧ taken.Nodup ∧ ∀ x, x ∈ taken ↔ EndsAt around roots x := by
  obtain ⟨taken, hgoes, hlast⟩ := (Descending.start hn).exists_goesDown hn hinner
  rw [List.nil_append] at hlast
  exact ⟨taken, hgoes, by simpa using hlast.nodup, fun x => hlast.mem_iff⟩

/-! ## The walk over types -/

namespace WalkContext

variable {ctx : WalkContext} {taken : List Nat}

theorem inside_sublist (root : Nat) : (ctx.inside root).Sublist (ctx.view.nested root) := by
  rcases ctx.inside_cases root with hnone | ⟨-, hnested⟩
  · exact hnone ▸ List.nil_sublist _
  · exact hnested ▸ List.Sublist.refl _

/-- Where going down takes no type twice, the stack of the walk runs empty, and ends as the walk does. -/
theorem pops_of_goesDown (hcount : ctx.CountsTypes)
    (h : GoesDown ctx.view.nested ctx.view.topLevel taken) (hnodup : taken.Nodup) (s : Sink) :
    ctx.Pops ⟨.empty, .empty, s⟩ (ctx.view.topLevel.map (·, none)) (ctx.typesMet s) := by
  obtain ⟨trees, hroots, hunfolds, rfl⟩ := h.exists_trees
  have hnest : NestWithin ctx.inside (ctx.view.typeCount + 1)
      ((ctx.view.topLevel.map fun root => (root, (none : Option String))).map (·.1)) := by
    have hroots' : NestWithin ctx.inside (ctx.view.typeCount + 1) (trees.map TypeTree.handle) :=
      nestWithin_of_forest hcount hunfolds hnodup List.nodup_nil (by simp) (by simp) rfl
    simpa [Function.comp_def, hroots] using hroots'
  have hpops := pops_walkNested hnest (.done (ctx.typesMet s))
  rwa [List.append_nil] at hpops

end WalkContext

end CodeGraph
