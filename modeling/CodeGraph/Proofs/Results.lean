import Mathlib.Data.List.Forall2

namespace CodeGraph

/-!
# Results of runs of steps

What a run of steps gives, each of which may fail, is taken apart step by step.
-/

namespace Except

variable {α β ε : Type} {x : Except ε α} {f g : α → Except ε β} {l : List α}

theorem exists_of_map_eq_ok {f : α → β} {b : β} (h : x.map f = .ok b) : ∃ a, x = .ok a ∧ f a = b := by
  cases x with
  | error e => cases h
  | ok a => exact ⟨a, rfl, Except.ok.inj h⟩

theorem toOption_eq_some {a : α} (h : x.toOption = some a) : x = .ok a := by
  cases x with
  | error e => cases h
  | ok b => exact congrArg Except.ok (Option.some.inj h)

theorem bind_congr (h : ∀ a, x = .ok a → g a = f a) : x.bind g = x.bind f := by
  cases x with
  | error e => rfl
  | ok a => exact h a rfl

theorem exists_of_bind_eq_ok {b : β} (h : x.bind f = .ok b) : ∃ a, x = .ok a ∧ f a = .ok b := by
  cases x with
  | error e => cases h
  | ok a => exact ⟨a, rfl, h⟩

theorem bind_eq_error {e : ε} (h : x.bind f = .error e) :
    x = .error e ∨ ∃ a, x = .ok a ∧ f a = .error e := by
  cases x with
  | error e' => exact .inl (congrArg Except.error (Except.error.inj h))
  | ok a => exact .inr ⟨a, rfl, h⟩

theorem mapM_congr (h : ∀ a ∈ l, g a = f a) : l.mapM g = l.mapM f := by
  induction l with
  | nil => rfl
  | cons a l ih =>
      obtain ⟨ha, hl⟩ := List.forall_mem_cons.mp h
      rw [List.mapM_cons, List.mapM_cons, ha, ih hl]

theorem mapM_eq_ok {l' : List β} (h : l.mapM f = .ok l') :
    (∀ a ∈ l, ∃ b ∈ l', f a = .ok b) ∧ ∀ b ∈ l', ∃ a ∈ l, f a = .ok b := by
  induction l generalizing l' with
  | nil =>
      obtain rfl := Except.ok.inj h
      exact ⟨List.forall_mem_nil _, List.forall_mem_nil _⟩
  | cons a l ih =>
      rw [List.mapM_cons] at h
      obtain ⟨b, ha, hrest⟩ := exists_of_bind_eq_ok h
      obtain ⟨more, hl, hcons⟩ := exists_of_bind_eq_ok hrest
      obtain rfl := Except.ok.inj hcons
      obtain ⟨hinto, honto⟩ := ih hl
      constructor
      · refine List.forall_mem_cons.mpr ⟨⟨b, List.mem_cons_self, ha⟩, fun a' ha' => ?_⟩
        obtain ⟨b', hb', heq⟩ := hinto a' ha'
        exact ⟨b', List.mem_cons_of_mem b hb', heq⟩
      · refine List.forall_mem_cons.mpr ⟨⟨a, List.mem_cons_self, ha⟩, fun b' hb' => ?_⟩
        obtain ⟨a', ha', heq⟩ := honto b' hb'
        exact ⟨a', List.mem_cons_of_mem a ha', heq⟩

theorem exists_mapM_eq_ok (h : ∀ a ∈ l, ∃ b, f a = .ok b) :
    ∃ l', l.mapM f = .ok l' ∧ List.Forall₂ (fun a b => f a = .ok b) l l' := by
  induction l with
  | nil => exact ⟨[], rfl, .nil⟩
  | cons a l ih =>
      obtain ⟨⟨b, hb⟩, hmore⟩ := List.forall_mem_cons.mp h
      obtain ⟨l', hl', hrel⟩ := ih hmore
      refine ⟨b :: l', ?_, .cons hb hrel⟩
      rw [List.mapM_cons, hb, hl']
      rfl

end Except

theorem Option.exists_of_mapM {α β : Type} {f : α → Option β} {l : List α} {l' : List β}
    (h : l.mapM f = some l') {b : β} (hb : b ∈ l') : ∃ a ∈ l, f a = some b := by
  induction l generalizing l' with
  | nil =>
      obtain rfl := Option.some.inj h
      cases hb
  | cons a l ih =>
      rw [List.mapM_cons] at h
      obtain ⟨first, hfirst, hrest⟩ := Option.bind_eq_some_iff.mp h
      obtain ⟨more, hmore, hl'⟩ := Option.bind_eq_some_iff.mp hrest
      obtain rfl := Option.some.inj hl'
      rcases List.mem_cons.mp hb with rfl | hb
      · exact ⟨a, List.mem_cons_self, hfirst⟩
      · obtain ⟨a', ha', hfa'⟩ := ih hmore hb
        exact ⟨a', List.mem_cons_of_mem a ha', hfa'⟩

end CodeGraph
