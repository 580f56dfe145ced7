namespace CodeGraph

/-!
# Dictionaries

A dictionary keeps its keys in the order in which they were first inserted.
-/

structure Dict (α : Type) where
  entries : List (String × α)
  deriving Repr

namespace Dict

variable {α : Type}

def empty : Dict α :=
  ⟨[]⟩

instance : Inhabited (Dict α) :=
  ⟨empty⟩

def get? (d : Dict α) (key : String) : Option α :=
  d.entries.lookup key

def contains (d : Dict α) (key : String) : Bool :=
  d.entries.any (·.1 == key)

/-- The key's value becomes `a`; a key that is there stays in its place. -/
def insert (d : Dict α) (key : String) (a : α) : Dict α :=
  if d.contains key then ⟨d.entries.map fun (k, old) => if k == key then (k, a) else (k, old)⟩
  else ⟨d.entries ++ [(key, a)]⟩

def keys (d : Dict α) : List String :=
  d.entries.map (·.1)

def values (d : Dict α) : List α :=
  d.entries.map (·.2)

def size (d : Dict α) : Nat :=
  d.entries.length

@[simp] theorem keys_empty : (empty : Dict α).keys = [] := rfl

theorem contains_iff_mem_keys {d : Dict α} {key : String} : d.contains key = true ↔ key ∈ d.keys := by
  simp [contains, keys]

theorem get?_eq_none {d : Dict α} {key : String} (h : d.contains key = false) : d.get? key = none := by
  rw [get?, List.lookup_eq_none_iff]
  intro e he
  rw [contains, List.any_eq_false] at h
  have hne : ¬ e.1 = key := by simpa using h e he
  simpa using Ne.symm hne

theorem get?_empty (key : String) : (empty : Dict α).get? key = none := rfl

theorem isSome_get? (d : Dict α) (key : String) : (d.get? key).isSome = d.contains key := by
  rw [get?, contains]
  induction d.entries with
  | nil => rfl
  | cons e entries ih =>
    obtain ⟨k, a⟩ := e
    by_cases hk : k = key
    · simp [hk]
    · have hne : (key == k) = false := by simpa using Ne.symm hk
      simp [List.lookup_cons, hne, hk, ih]

/-- A replaced value is found under its key, and all others where they were. -/
theorem lookup_replace (entries : List (String × α)) (key x : String) (a : α) :
    (entries.map fun (k, old) => if k == key then (k, a) else (k, old)).lookup x =
      if x = key then (entries.lookup x).map fun _ => a else entries.lookup x := by
  induction entries with
  | nil => simp
  | cons e entries ih =>
    obtain ⟨k, old⟩ := e
    by_cases hk : k = key
    · subst hk
      by_cases hx : x = k
      · simp [hx]
      · have hne : (x == k) = false := by simpa using hx
        simpa [List.lookup_cons, hne, hx] using ih
    · by_cases hx : x = k
      · subst hx
        simp [hk]
      · have hne : (x == k) = false := by simpa using hx
        simpa [List.lookup_cons, hne, hk] using ih

theorem get?_insert (d : Dict α) (key : String) (a : α) (x : String) :
    (d.insert key a).get? x = if x = key then some a else d.get? x := by
  by_cases h : d.contains key = true
  · rw [insert, if_pos h, get?, lookup_replace]
    split
    · next hx =>
      obtain ⟨old, hold⟩ := Option.isSome_iff_exists.mp ((isSome_get? d key).trans h)
      rw [get?] at hold
      rw [hx, hold, Option.map_some]
    · rfl
  · rw [insert, if_neg h, get?, List.lookup_append]
    by_cases hx : x = key
    · have hnone : d.entries.lookup key = none := get?_eq_none (by simpa using h)
      simp [hx, hnone]
    · have hne : (x == key) = false := by simpa using hx
      simp [hx, hne, List.lookup_cons, get?]

theorem keys_insert_of_contains {d : Dict α} {key : String} (h : d.contains key = true) (a : α) :
    (d.insert key a).keys = d.keys := by
  simp only [insert, h, if_true, keys, List.map_map]
  refine List.map_congr_left fun e _ => ?_
  by_cases he : e.1 == key <;> simp_all

theorem keys_insert_of_not_contains {d : Dict α} {key : String} (h : ¬ d.contains key = true) (a : α) :
    (d.insert key a).keys = d.keys ++ [key] := by
  simp [insert, h, keys]

theorem mem_keys_insert {d : Dict α} {key x : String} {a : α} :
    x ∈ (d.insert key a).keys ↔ x = key ∨ x ∈ d.keys := by
  by_cases h : d.contains key = true
  · rw [keys_insert_of_contains h]
    refine ⟨Or.inr, ?_⟩
    rintro (rfl | hx)
    · exact contains_iff_mem_keys.mp h
    · exact hx
  · simp [keys_insert_of_not_contains h, or_comm]

/-- No key stands twice in a dictionary that is built by insertions. -/
theorem nodup_keys_insert {d : Dict α} (hd : d.keys.Nodup) (key : String) (a : α) :
    (d.insert key a).keys.Nodup := by
  by_cases h : d.contains key = true
  · rwa [keys_insert_of_contains h]
  · rw [keys_insert_of_not_contains h]
    refine List.nodup_append.mpr ⟨hd, by simp, ?_⟩
    rintro x hx y hy rfl
    obtain rfl := List.mem_singleton.mp hy
    exact h (contains_iff_mem_keys.mpr hx)

theorem get?_eq_some_iff {d : Dict α} (hd : d.keys.Nodup) {key : String} {a : α} :
    d.get? key = some a ↔ (key, a) ∈ d.entries := by
  rw [keys] at hd
  rw [get?, List.lookup_eq_some_iff]
  constructor
  · rintro ⟨before, behind, hentries, -⟩
    rw [hentries]
    exact List.mem_append_right before List.mem_cons_self
  · intro hmem
    obtain ⟨before, behind, hentries⟩ := List.append_of_mem hmem
    refine ⟨before, behind, hentries, fun e he => ?_⟩
    rw [hentries, List.map_append, List.map_cons] at hd
    have hne := (List.nodup_append.mp hd).2.2 e.1 (List.mem_map_of_mem he) key List.mem_cons_self
    simpa using Ne.symm hne

/-- Entries of different new keys come behind what is there. -/
theorem entries_foldl_insert {β : Type} (key : β → String) (value : β → α) (l : List β) (d : Dict α)
    (hkeys : (d.keys ++ l.map key).Nodup) :
    (l.foldl (fun d b => d.insert (key b) (value b)) d).entries =
      d.entries ++ l.map fun b => (key b, value b) := by
  induction l generalizing d with
  | nil => simp
  | cons b l ih =>
    have hnew : ¬ d.contains (key b) = true := by
      rw [contains_iff_mem_keys]
      intro hold
      exact (List.nodup_append.mp hkeys).2.2 _ hold _ List.mem_cons_self rfl
    have hentries : (d.insert (key b) (value b)).entries = d.entries ++ [(key b, value b)] := by
      rw [insert, if_neg hnew]
    rw [List.foldl_cons, ih, hentries, List.append_assoc]
    · rfl
    · rw [keys_insert_of_not_contains hnew, List.append_assoc]
      exact hkeys

theorem get?_foldl_insert {β : Type} (key : β → String) (value : β → α) {l : List β}
    (hkeys : (l.map key).Nodup) {k : String} {a : α} :
    (l.foldl (fun d b => d.insert (key b) (value b)) empty).get? k = some a ↔
      ∃ b ∈ l, key b = k ∧ value b = a := by
  have hentries := entries_foldl_insert key value l empty hkeys
  rw [get?_eq_some_iff]
  · rw [hentries]
    simp [empty]
  · rw [keys, hentries]
    simpa [empty, Function.comp_def] using hkeys

end Dict

end CodeGraph
