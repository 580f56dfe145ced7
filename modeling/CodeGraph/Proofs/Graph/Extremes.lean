import CodeGraph.Graph.Locator

namespace CodeGraph.Locator

/-!
# Least and greatest elements

What is picked out of a list, one element after the other, comes from the list and stands before all of
it, whenever each pick stands before the two that it is made of.
-/

variable {α : Type}

theorem foldl_pick {r : α → α → Prop} (refl : ∀ a, r a a) (trans : ∀ {a b c}, r a b → r b c → r a c)
    {pick : α → α → α}
    (hpick : ∀ a b, (pick a b = a ∨ pick a b = b) ∧ r (pick a b) a ∧ r (pick a b) b)
    (first : α) (l : List α) :
    l.foldl pick first ∈ first :: l ∧ ∀ b ∈ first :: l, r (l.foldl pick first) b := by
  induction l generalizing first with
  | nil => exact ⟨List.mem_cons_self, by simpa using refl first⟩
  | cons next l ih =>
      obtain ⟨hone, hfirst, hnext⟩ := hpick first next
      obtain ⟨hmem, hall⟩ := ih (pick first next)
      obtain ⟨hbefore, hmore⟩ := List.forall_mem_cons.mp hall
      rw [List.foldl_cons]
      refine ⟨?_, List.forall_mem_cons.mpr ⟨trans hbefore hfirst,
        List.forall_mem_cons.mpr ⟨trans hbefore hnext, hmore⟩⟩⟩
      rcases List.mem_cons.mp hmem with heq | hmem
      · rw [heq]
        rcases hone with h | h <;> simp [h]
      · exact List.mem_cons_of_mem _ (List.mem_cons_of_mem _ hmem)

variable {cmp : α → α → Ordering}

theorem minBy_eq_none {l : List α} : minBy cmp l = none ↔ l = [] := by
  cases l <;> simp [minBy]

theorem maxBy_eq_none {l : List α} : maxBy cmp l = none ↔ l = [] := by
  cases l <;> simp [maxBy]

section

variable [Std.TransCmp cmp]

theorem isLE_of_not_isLT {a b : α} (h : ¬ (cmp b a).isLT = true) : (cmp a b).isLE = true := by
  rw [Ordering.isLT_iff_eq_lt] at h
  exact Decidable.byContradiction fun hle => h (Std.OrientedCmp.lt_of_not_isLE hle)

theorem minBy_eq_some {l : List α} {a : α} (h : minBy cmp l = some a) :
    a ∈ l ∧ ∀ b ∈ l, (cmp a b).isLE = true := by
  cases l with
  | nil => cases h
  | cons first l =>
      obtain rfl := Option.some.inj h
      refine foldl_pick (r := fun a b => (cmp a b).isLE = true)
        (fun a => by simp [Std.ReflCmp.compare_self]) Std.TransCmp.isLE_trans (fun best b => ?_) first l
      split
      · next hless =>
          exact ⟨.inr rfl, Ordering.isLE_of_eq_lt (Ordering.isLT_iff_eq_lt.mp hless),
            by simp [Std.ReflCmp.compare_self]⟩
      · next hless => exact ⟨.inl rfl, by simp [Std.ReflCmp.compare_self], isLE_of_not_isLT hless⟩

theorem maxBy_eq_some {l : List α} {a : α} (h : maxBy cmp l = some a) :
    a ∈ l ∧ ∀ b ∈ l, (cmp b a).isLE = true := by
  cases l with
  | nil => cases h
  | cons first l =>
      obtain rfl := Option.some.inj h
      refine foldl_pick (r := fun a b => (cmp b a).isLE = true)
        (fun a => by simp [Std.ReflCmp.compare_self])
        (fun hab hbc => Std.TransCmp.isLE_trans hbc hab) (fun best b => ?_) first l
      split
      · next hless =>
          exact ⟨.inl rfl, by simp [Std.ReflCmp.compare_self],
            Ordering.isLE_of_eq_lt (Ordering.isLT_iff_eq_lt.mp hless)⟩
      · next hless => exact ⟨.inr rfl, isLE_of_not_isLT hless, by simp [Std.ReflCmp.compare_self]⟩

/-- Of several greatest elements the last one is found. -/
theorem maxBy_concat {l : List α} {a : α} (h : ∀ b ∈ l, (cmp b a).isLE = true) :
    maxBy cmp (l ++ [a]) = some a := by
  cases l with
  | nil => rfl
  | cons first l =>
      have hfound : maxBy cmp (first :: l) =
          some (l.foldl (fun best b => if (cmp b best).isLT then best else b) first) := rfl
      have hbest := h _ (maxBy_eq_some hfound).1
      rw [List.cons_append, maxBy, List.foldl_append, List.foldl_cons, List.foldl_nil, if_neg]
      rw [Ordering.isLT_iff_eq_lt]
      exact Std.OrientedCmp.not_lt_of_isLE hbest

end

end CodeGraph.Locator
