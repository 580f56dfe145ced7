import CodeGraph.CSharp.Module
import CodeGraph.Proofs.Symbol.Keys
import Mathlib.Data.List.Nodup

namespace CodeGraph

/-!
# Tables of declarations

Types and members are gathered from many files, and parts of one type into one entry. However they come,
each type stands in the list of the type around it or at the top level, each member in the list of its
type, and a key leads to the one type that has it.
-/

/-! ## Lists of positions -/

/-- The list holds the positions with a property, each of them once. -/
structure Enumerates (l : List Nat) (p : Nat → Prop) : Prop where
  nodup : l.Nodup
  mem_iff : ∀ i, i ∈ l ↔ p i

namespace Enumerates

variable {l : List Nat} {p q : Nat → Prop}

theorem nil (h : ∀ i, ¬ p i) : Enumerates [] p :=
  ⟨List.nodup_nil, fun i => by simp [h i]⟩

theorem congr (h : Enumerates l p) (hpq : ∀ i, q i ↔ p i) : Enumerates l q :=
  ⟨h.nodup, fun i => (h.mem_iff i).trans (hpq i).symm⟩

theorem append (h : Enumerates l p) {n : Nat} (hn : ¬ p n) (hq : ∀ i, q i ↔ p i ∨ i = n) :
    Enumerates (l ++ [n]) q := by
  constructor
  · rw [← List.concat_eq_append]
    exact List.Nodup.concat (fun hmem => hn ((h.mem_iff n).mp hmem)) h.nodup
  · intro i
    rw [List.mem_append, List.mem_singleton, h.mem_iff, hq]

theorem perm_range {n : Nat} (h : Enumerates l (· < n)) : l.Perm (List.range n) := by
  rw [List.perm_ext_iff_of_nodup h.nodup List.nodup_range]
  intro i
  rw [h.mem_iff, List.mem_range]

/-- Lists that are kept by different entries of a table have no position in common. -/
theorem flatMap {α : Type} {table : Array α} {lists : α → List Nat} {p : Nat → Nat → Prop}
    (h : ∀ o a, table[o]? = some a → Enumerates (lists a) (p o))
    (hone : ∀ o o' i, p o i → p o' i → o = o') :
    Enumerates (table.toList.flatMap lists) fun i => ∃ o < table.size, p o i := by
  constructor
  · apply List.nodup_flatMap.mpr
    constructor
    · intro a ha
      obtain ⟨o, ho⟩ := List.getElem?_of_mem ha
      exact (h o a (Array.getElem?_toList.symm.trans ho)).nodup
    · apply List.pairwise_iff_getElem.mpr
      intro o o' ho ho' hlt i hi hi'
      have hfirst := h o _ (Array.getElem?_eq_getElem ho)
      have hsecond := h o' _ (Array.getElem?_eq_getElem ho')
      exact Nat.ne_of_lt hlt (hone o o' i ((hfirst.mem_iff i).mp hi) ((hsecond.mem_iff i).mp hi'))
  · intro i
    rw [List.mem_flatMap]
    constructor
    · rintro ⟨a, ha, hi⟩
      obtain ⟨o, ho⟩ := List.getElem?_of_mem ha
      rw [Array.getElem?_toList] at ho
      exact ⟨o, (Array.getElem?_eq_some_iff.mp ho).1, ((h o a ho).mem_iff i).mp hi⟩
    · rintro ⟨o, ho, hi⟩
      have hentry := Array.getElem?_eq_getElem ho
      exact ⟨table[o], Array.getElem_mem_toList ho, ((h o _ hentry).mem_iff i).mpr hi⟩

end Enumerates

namespace CSharp

namespace Declarations

variable {d : Declarations}

/-- A type that is declared in another one, or at the top level. -/
def TypeIn (d : Declarations) (outer : Option Nat) (id : Nat) : Prop :=
  ∃ t, d.types[id]? = some t ∧ t.declaring = outer

def MemberIn (d : Declarations) (owner id : Nat) : Prop :=
  ∃ m, d.members[id]? = some m ∧ m.declaring = owner

/-- A type lies in the namespace of the type around it and has one name more. -/
structure LiesIn (t outer : DeclaredType) : Prop where
  ns : t.ns = outer.ns
  nesting : ∃ name, t.nesting = outer.nesting ++ [name]

/-- The tables refer to each other as they should: a key leads to the type that has it, and a type or a
member is listed where it says that it is declared. -/
structure Consistent (d : Declarations) : Prop where
  byKey_iff : ∀ key (id : Nat), d.byKey.get? key = some id ↔ ∃ t, d.types[id]? = some t ∧ t.key = key
  topLevel : Enumerates d.topLevel (d.TypeIn none)
  nested : ∀ (id : Nat) t, d.types[id]? = some t → Enumerates t.nested (d.TypeIn (some id))
  members : ∀ (id : Nat) t, d.types[id]? = some t → Enumerates t.members (d.MemberIn id)
  owner_lt : ∀ (id : Nat) m, d.members[id]? = some m → m.declaring < d.types.size
  outermost : ∀ (id : Nat) t, d.types[id]? = some t → t.declaring = none →
    ∃ name, t.nesting = [name]
  /-- The type around another one was declared before it. -/
  outer : ∀ (id : Nat) t o, d.types[id]? = some t → t.declaring = some o →
    o < id ∧ ∃ outer, d.types[o]? = some outer ∧ LiesIn t outer

/-! ## Steps -/

theorem consistent_empty : Consistent .empty where
  byKey_iff key id := by simp [empty, Dict.get?_empty]
  topLevel := .nil fun id => by simp [TypeIn, empty]
  nested id t h := by simp [empty] at h
  members id t h := by simp [empty] at h
  owner_lt id m h := by simp [empty] at h
  outermost id t h := by simp [empty] at h
  outer id t o h := by simp [empty] at h

/-- Types that are changed, but stay where they are. -/
structure Updates (d d' : Declarations) (f : Nat → DeclaredType → DeclaredType) : Prop where
  types : ∀ id : Nat, d'.types[id]? = (d.types[id]?).map (f id)
  place : ∀ id t, (f id t).ns = t.ns ∧ (f id t).nesting = t.nesting ∧ (f id t).declaring = t.declaring
  nested : ∀ id t, (f id t).nested = t.nested
  topLevel : d'.topLevel = d.topLevel
  byKey : d'.byKey = d.byKey

namespace Updates

variable {d' : Declarations} {f : Nat → DeclaredType → DeclaredType}

theorem typeIn_iff (hf : d.Updates d' f) (outer : Option Nat) (id : Nat) :
    d'.TypeIn outer id ↔ d.TypeIn outer id := by
  simp only [TypeIn, hf.types, Option.map_eq_some_iff]
  constructor
  · rintro ⟨_, ⟨t, ht, rfl⟩, houter⟩
    exact ⟨t, ht, (hf.place id t).2.2.symm.trans houter⟩
  · rintro ⟨t, ht, houter⟩
    exact ⟨f id t, ⟨t, ht, rfl⟩, (hf.place id t).2.2.trans houter⟩

/-- Only what the types say about their members has to be looked at again. -/
theorem consistent (hf : d.Updates d' f) (h : d.Consistent)
    (hmembers : ∀ (id : Nat) t, d.types[id]? = some t → Enumerates (f id t).members (d'.MemberIn id))
    (howner : ∀ (id : Nat) m, d'.members[id]? = some m → m.declaring < d'.types.size) :
    d'.Consistent := by
  have hkey : ∀ id t, (f id t).key = t.key := by
    intro id t
    obtain ⟨hns, hnesting, -⟩ := hf.place id t
    rw [DeclaredType.key, DeclaredType.key, hns, hnesting]
  have hback : ∀ (id : Nat) t', d'.types[id]? = some t' → ∃ t, d.types[id]? = some t ∧ f id t = t' := by
    intro id t' ht'
    rw [hf.types] at ht'
    exact Option.map_eq_some_iff.mp ht'
  constructor
  · intro key id
    rw [hf.byKey, h.byKey_iff, hf.types]
    simp [hkey]
  · rw [hf.topLevel]
    exact h.topLevel.congr (hf.typeIn_iff none)
  · intro id t' ht'
    obtain ⟨t, ht, rfl⟩ := hback id t' ht'
    rw [hf.nested]
    exact (h.nested id t ht).congr (hf.typeIn_iff (some id))
  · intro id t' ht'
    obtain ⟨t, ht, rfl⟩ := hback id t' ht'
    exact hmembers id t ht
  · exact howner
  · intro id t' ht' htop
    obtain ⟨t, ht, rfl⟩ := hback id t' ht'
    obtain ⟨-, hnesting, hdeclaring⟩ := hf.place id t
    rw [hnesting]
    exact h.outermost id t ht (hdeclaring.symm.trans htop)
  · intro id t' o ht' ho
    obtain ⟨t, ht, rfl⟩ := hback id t' ht'
    obtain ⟨hns, hnesting, hdeclaring⟩ := hf.place id t
    obtain ⟨hlt, outer, houter, hin⟩ := h.outer id t o ht (hdeclaring.symm.trans ho)
    obtain ⟨hns', hnesting', -⟩ := hf.place o outer
    refine ⟨hlt, f o outer, by rw [hf.types, houter, Option.map_some], ?_, ?_⟩
    · rw [hns, hns', hin.ns]
    · rw [hnesting, hnesting']
      exact hin.nesting

end Updates

theorem updates_addMember (d : Declarations) (m : DeclaredMember) :
    d.Updates (d.addMember m) fun id t =>
      if m.declaring = id then { t with members := t.members ++ [d.members.size] } else t where
  types id := by
    rw [addMember, Array.getElem?_modify]
    split
    · rfl
    · exact Option.map_id'.symm
  place id t := by split <;> exact ⟨rfl, rfl, rfl⟩
  nested id t := by split <;> rfl
  topLevel := rfl
  byKey := rfl

theorem size_addMember (d : Declarations) (m : DeclaredMember) :
    (d.addMember m).types.size = d.types.size :=
  Array.size_modify

theorem members_addMember (d : Declarations) (m : DeclaredMember) (id : Nat) :
    (d.addMember m).members[id]? = if id = d.members.size then some m else d.members[id]? :=
  Array.getElem?_push

theorem memberIn_addMember (d : Declarations) (m : DeclaredMember) (owner id : Nat) :
    (d.addMember m).MemberIn owner id ↔
      d.MemberIn owner id ∨ (m.declaring = owner ∧ id = d.members.size) := by
  simp only [MemberIn, members_addMember]
  by_cases hid : id = d.members.size <;> simp [hid]

theorem Consistent.addMember (h : d.Consistent) {m : DeclaredMember} (hm : m.declaring < d.types.size) :
    (d.addMember m).Consistent := by
  apply (d.updates_addMember m).consistent h
  · intro id t ht
    have hbefore := h.members id t ht
    by_cases hid : m.declaring = id
    · rw [if_pos hid]
      apply hbefore.append
      · rintro ⟨last, hlast, -⟩
        exact absurd (Array.getElem?_eq_some_iff.mp hlast).1 (Nat.lt_irrefl _)
      · intro i
        rw [memberIn_addMember, and_iff_right hid]
    · rw [if_neg hid]
      apply hbefore.congr
      intro i
      rw [memberIn_addMember, or_iff_left fun hnew => hid hnew.1]
  · intro id m' hm'
    rw [size_addMember]
    rw [members_addMember] at hm'
    split at hm'
    · obtain rfl := Option.some.inj hm'
      exact hm
    · exact h.owner_lt id m' hm'

theorem updates_merge (d : Declarations) (id : Nat) (part : DeclaredType) :
    d.Updates { d with types := d.types.modify id (·.merge part) } fun i t =>
      if id = i then t.merge part else t where
  types i := by
    rw [Array.getElem?_modify]
    split
    · rfl
    · exact Option.map_id'.symm
  place i t := by split <;> exact ⟨rfl, rfl, rfl⟩
  nested i t := by split <;> rfl
  topLevel := rfl
  byKey := rfl

theorem Consistent.merge (h : d.Consistent) (id : Nat) (part : DeclaredType) :
    Consistent { d with types := d.types.modify id (·.merge part) } := by
  apply (d.updates_merge id part).consistent h
  · intro i t ht
    have hmembers : (if id = i then t.merge part else t).members = t.members := by split <;> rfl
    rw [hmembers]
    exact h.members i t ht
  · intro i m hm
    rw [Array.size_modify]
    exact h.owner_lt i m hm

/-- The type around a new one has it as the last of its nested types. -/
def grown (d : Declarations) (t : DeclaredType) (id : Nat) (o : DeclaredType) : DeclaredType :=
  if t.declaring = some id then { o with nested := o.nested ++ [d.types.size] } else o

section Grown

variable (d : Declarations) (t : DeclaredType) (id : Nat) (o : DeclaredType)

@[simp] theorem ns_grown : (d.grown t id o).ns = o.ns := by unfold grown; split <;> rfl

@[simp] theorem nesting_grown : (d.grown t id o).nesting = o.nesting := by unfold grown; split <;> rfl

@[simp] theorem declaring_grown : (d.grown t id o).declaring = o.declaring := by
  unfold grown; split <;> rfl

@[simp] theorem members_grown : (d.grown t id o).members = o.members := by unfold grown; split <;> rfl

@[simp] theorem key_grown : (d.grown t id o).key = o.key := by simp [DeclaredType.key]

end Grown

theorem types_addType (d : Declarations) (t : DeclaredType) (id : Nat) :
    (d.addType t).types[id]? =
      if id = d.types.size then some t else (d.types[id]?).map (d.grown t id) := by
  unfold addType grown
  cases t.declaring with
  | none => simp [Array.getElem?_push]
  | some outer =>
      dsimp only
      rw [Array.getElem?_push, Array.size_modify, Array.getElem?_modify]
      by_cases hid : outer = id <;> simp [hid]

theorem topLevel_addType (d : Declarations) (t : DeclaredType) :
    (d.addType t).topLevel = if t.declaring = none then d.topLevel ++ [d.types.size] else d.topLevel := by
  unfold addType
  cases t.declaring <;> rfl

theorem members_addType (d : Declarations) (t : DeclaredType) : (d.addType t).members = d.members := by
  unfold addType
  cases t.declaring <;> rfl

theorem byKey_addType (d : Declarations) (t : DeclaredType) :
    (d.addType t).byKey = d.byKey.insert t.key d.types.size := by
  unfold addType
  cases t.declaring <;> rfl

theorem size_addType (d : Declarations) (t : DeclaredType) :
    (d.addType t).types.size = d.types.size + 1 := by
  unfold addType
  cases t.declaring <;> simp

theorem lt_size {t : DeclaredType} {id : Nat} (h : d.types[id]? = some t) : id < d.types.size :=
  (Array.getElem?_eq_some_iff.mp h).1

/-- A type behind a step is the new one, or an old one in its place. -/
theorem types_addType_eq_some {t u : DeclaredType} {id : Nat} :
    (d.addType t).types[id]? = some u ↔
      (id = d.types.size ∧ u = t) ∨ ∃ o, d.types[id]? = some o ∧ u = d.grown t id o := by
  rw [types_addType]
  constructor
  · intro h
    split at h
    · next hid => exact .inl ⟨hid, (Option.some.inj h).symm⟩
    · obtain ⟨o, ho, heq⟩ := Option.map_eq_some_iff.mp h
      exact .inr ⟨o, ho, heq.symm⟩
  · rintro (⟨rfl, rfl⟩ | ⟨o, ho, rfl⟩)
    · rw [if_pos rfl]
    · rw [if_neg (Nat.ne_of_lt (lt_size ho)), ho, Option.map_some]

theorem typeIn_addType (d : Declarations) (t : DeclaredType) (outer : Option Nat) (id : Nat) :
    (d.addType t).TypeIn outer id ↔ d.TypeIn outer id ∨ (t.declaring = outer ∧ id = d.types.size) := by
  simp only [TypeIn, types_addType]
  by_cases hid : id = d.types.size <;> simp [hid]

theorem not_typeIn_size (d : Declarations) (outer : Option Nat) : ¬ d.TypeIn outer d.types.size := by
  simp [TypeIn]

/-- What a new part says about its place is so in the tables. -/
structure Fits (d : Declarations) (t : DeclaredType) : Prop where
  nested : t.nested = []
  members : t.members = []
  outermost : t.declaring = none → ∃ name, t.nesting = [name]
  outer : ∀ o, t.declaring = some o → ∃ outer, d.types[o]? = some outer ∧ LiesIn t outer

section AddType

variable (h : d.Consistent) {t : DeclaredType} (ht : d.Fits t)

include h

theorem byKey_addType_iff (hfresh : d.byKey.get? t.key = none) (key : String) (id : Nat) :
    (d.addType t).byKey.get? key = some id ↔
      ∃ u, (d.addType t).types[id]? = some u ∧ u.key = key := by
  simp only [types_addType_eq_some, byKey_addType, Dict.get?_insert]
  constructor
  · intro hget
    split at hget
    · next hkey => exact ⟨t, .inl ⟨(Option.some.inj hget).symm, rfl⟩, hkey.symm⟩
    · obtain ⟨o, ho, hkey⟩ := (h.byKey_iff key id).mp hget
      exact ⟨_, .inr ⟨o, ho, rfl⟩, (key_grown d t id o).trans hkey⟩
  · rintro ⟨u, ⟨rfl, rfl⟩ | ⟨o, ho, rfl⟩, rfl⟩
    · rw [if_pos rfl]
    · have hget := (h.byKey_iff o.key id).mpr ⟨o, ho, rfl⟩
      rw [key_grown, if_neg, hget]
      intro heq
      rw [heq, hfresh] at hget
      cases hget

theorem topLevel_addType_enumerates :
    Enumerates (d.addType t).topLevel ((d.addType t).TypeIn none) := by
  rw [topLevel_addType]
  split
  · next htop =>
      apply h.topLevel.append (d.not_typeIn_size none)
      intro i
      rw [typeIn_addType, and_iff_right htop]
  · next htop =>
      apply h.topLevel.congr
      intro i
      rw [typeIn_addType, or_iff_left fun hi => htop hi.1]

include ht

theorem nested_addType_enumerates {u : DeclaredType} {id : Nat}
    (hu : (d.addType t).types[id]? = some u) :
    Enumerates u.nested ((d.addType t).TypeIn (some id)) := by
  rcases types_addType_eq_some.mp hu with ⟨rfl, rfl⟩ | ⟨o, ho, rfl⟩
  · -- nothing is declared in a type before the type itself is
    rw [ht.nested]
    apply Enumerates.nil
    intro i hi
    rcases (typeIn_addType d u _ i).mp hi with ⟨inner, hinner, hdeclaring⟩ | ⟨hself, -⟩
    · exact absurd (lt_size hinner) (Nat.not_lt_of_lt (h.outer i inner _ hinner hdeclaring).1)
    · obtain ⟨outer, houter, -⟩ := ht.outer _ hself
      exact absurd (lt_size houter) (Nat.lt_irrefl _)
  · have hbefore := h.nested id o ho
    unfold grown
    split
    · next hin =>
        apply hbefore.append (d.not_typeIn_size (some id))
        intro i
        rw [typeIn_addType, and_iff_right hin]
    · next hin =>
        apply hbefore.congr
        intro i
        rw [typeIn_addType, or_iff_left fun hi => hin hi.1]

theorem members_addType_enumerates {u : DeclaredType} {id : Nat}
    (hu : (d.addType t).types[id]? = some u) :
    Enumerates u.members ((d.addType t).MemberIn id) := by
  have hsame : ∀ i, (d.addType t).MemberIn id i ↔ d.MemberIn id i := by
    intro i
    rw [MemberIn, members_addType, MemberIn]
  rcases types_addType_eq_some.mp hu with ⟨rfl, rfl⟩ | ⟨o, ho, rfl⟩
  · rw [ht.members]
    apply Enumerates.nil
    intro i hi
    obtain ⟨m, hm, howner⟩ := (hsame i).mp hi
    exact absurd (h.owner_lt i m hm) (howner ▸ Nat.lt_irrefl _)
  · rw [members_grown]
    exact (h.members id o ho).congr hsame

theorem outer_addType {u : DeclaredType} {id o : Nat} (hu : (d.addType t).types[id]? = some u)
    (ho : u.declaring = some o) :
    o < id ∧ ∃ outer, (d.addType t).types[o]? = some outer ∧ LiesIn u outer := by
  have hlies : ∀ {inner outer : DeclaredType}, d.types[o]? = some outer → LiesIn inner outer →
      ∃ outer', (d.addType t).types[o]? = some outer' ∧ LiesIn inner outer' := by
    intro inner outer houter hin
    refine ⟨d.grown t o outer, types_addType_eq_some.mpr (.inr ⟨outer, houter, rfl⟩), ?_, ?_⟩
    · rw [ns_grown]
      exact hin.ns
    · rw [nesting_grown]
      exact hin.nesting
  rcases types_addType_eq_some.mp hu with ⟨rfl, rfl⟩ | ⟨inner, hinner, rfl⟩
  · obtain ⟨outer, houter, hin⟩ := ht.outer o ho
    exact ⟨lt_size houter, hlies houter hin⟩
  · rw [declaring_grown] at ho
    obtain ⟨hlt, outer, houter, hin⟩ := h.outer id inner o hinner ho
    obtain ⟨outer', houter', hin'⟩ := hlies houter hin
    exact ⟨hlt, outer', houter', (ns_grown d t id inner).trans hin'.ns,
      (nesting_grown d t id inner).symm ▸ hin'.nesting⟩

theorem Consistent.addType (hfresh : d.byKey.get? t.key = none) : (d.addType t).Consistent where
  byKey_iff := byKey_addType_iff h hfresh
  topLevel := topLevel_addType_enumerates h
  nested _ _ hu := nested_addType_enumerates h ht hu
  members _ _ hu := members_addType_enumerates h ht hu
  owner_lt id m hm := by
    rw [members_addType] at hm
    rw [size_addType]
    exact Nat.lt_succ_of_lt (h.owner_lt id m hm)
  outermost id u hu htop := by
    rcases types_addType_eq_some.mp hu with ⟨rfl, rfl⟩ | ⟨o, ho, rfl⟩
    · exact ht.outermost htop
    · rw [nesting_grown]
      exact h.outermost id o ho ((declaring_grown d t id o).symm.trans htop)
  outer _ _ _ hu ho := outer_addType h ht hu ho

end AddType

/-! ## Reading -/

/-- The tables stay in order, and no position is lost. -/
structure Grows (d d' : Declarations) : Prop where
  consistent : d'.Consistent
  size_le : d.types.size ≤ d'.types.size

theorem Grows.trans {d' d'' : Declarations} (h : d.Grows d') (h' : d'.Grows d'') : d.Grows d'' :=
  ⟨h'.consistent, Nat.le_trans h.size_le h'.size_le⟩

theorem Consistent.enter (h : d.Consistent) {part : DeclaredType} (hpart : d.Fits part) :
    d.Grows (d.enter part).1 ∧ (d.enter part).2 < (d.enter part).1.types.size := by
  unfold Declarations.enter find?
  split
  · next id hfound =>
      obtain ⟨t, ht, -⟩ := (h.byKey_iff _ id).mp hfound
      have hsize : (d.types.modify id (·.merge part)).size = d.types.size := Array.size_modify
      constructor
      · exact ⟨h.merge id part, Nat.le_of_eq hsize.symm⟩
      · rw [hsize]
        exact lt_size ht
  · next hfresh =>
      have hsize := d.size_addType part
      constructor
      · exact ⟨h.addType hpart hfresh, hsize ▸ Nat.le_succ _⟩
      · rw [hsize]
        exact Nat.lt_succ_self _

theorem Consistent.addMembers (h : d.Consistent) {own : List DeclaredMember}
    (hown : ∀ m ∈ own, m.declaring < d.types.size) : d.Grows (own.foldl .addMember d) := by
  induction own generalizing d with
  | nil => exact ⟨h, Nat.le_refl _⟩
  | cons m own ih =>
      obtain ⟨hm, hmore⟩ := List.forall_mem_cons.mp hown
      have hsize := d.size_addMember m
      have hrest := ih (h.addMember hm) (by rwa [hsize])
      exact ⟨hrest.consistent, hsize ▸ hrest.size_le⟩

end Declarations

open Declarations

variable {d : Declarations} {f : FilePlace} {scope : Scope} {declaring : Option Nat}

theorem declaring_of_mem_primaryMembersOf {t : OutlineType} {owner : Nat} {m : DeclaredMember}
    (hm : m ∈ primaryMembersOf f t scope owner) : m.declaring = owner := by
  unfold primaryMembersOf primaryMembers at hm
  split at hm
  · rcases List.mem_append.mp hm with hm | hm
    · split at hm
      · obtain ⟨p, -, rfl⟩ := List.mem_map.mp hm
        rfl
      · cases hm
    · obtain rfl := List.mem_singleton.mp hm
      rfl
  · cases hm

theorem declaring_of_declaredMember? {o : OutlineMember} {owner : Nat} {t : DeclaredType}
    {m : DeclaredMember} (h : declaredMember? f o scope owner t = some m) : m.declaring = owner := by
  unfold declaredMember? at h
  obtain ⟨⟨kind, name⟩, -, h⟩ := Option.bind_eq_some_iff.mp h
  dsimp only at h
  split at h
  all_goals
    obtain rfl := Option.some.inj h
    rfl

theorem fits_declaredType (f : FilePlace) (t : OutlineType) (scope : Scope) (d : Declarations)
    (hdeclaring : ∀ o, declaring = some o → o < d.types.size) :
    d.Fits (declaredType f t scope declaring d) where
  nested := rfl
  members := rfl
  outermost htop := by
    obtain rfl : declaring = none := htop
    exact ⟨_, rfl⟩
  outer o ho := by
    obtain rfl : declaring = some o := ho
    have houter := Array.getElem?_eq_getElem (hdeclaring o rfl)
    refine ⟨_, houter, ?_, arityName t.name t.typeParams, ?_⟩ <;>
      simp [declaredType, around, houter]

/-- The table has the type's position before its members are read. -/
theorem declareType_grows (h : d.Consistent) (t : OutlineType)
    (hdeclaring : ∀ o, declaring = some o → o < d.types.size) :
    d.Grows (declareType f t scope declaring d).1 ∧
      (declareType f t scope declaring d).2.1 < (declareType f t scope declaring d).1.types.size := by
  obtain ⟨henter, hlt⟩ := h.enter (fits_declaredType f t scope d hdeclaring)
  have hmembers : (d.enter (declaredType f t scope declaring d)).1.Grows
      (declareType f t scope declaring d).1 :=
    henter.consistent.addMembers fun m hm => declaring_of_mem_primaryMembersOf hm ▸ hlt
  exact ⟨henter.trans hmembers, Nat.lt_of_lt_of_le hlt hmembers.size_le⟩

theorem declareMember_grows (f : FilePlace) (scope : Scope) (h : d.Consistent) (m : OutlineMember)
    (owner : Nat) : d.Grows (declareMember f m scope owner d) := by
  unfold declareMember
  split
  · next member hmember =>
      obtain ⟨t, ht, hmember⟩ := Option.bind_eq_some_iff.mp hmember
      have hlt : member.declaring < d.types.size :=
        declaring_of_declaredMember? hmember ▸ lt_size ht
      exact ⟨h.addMember hlt, Nat.le_of_eq (d.size_addMember member).symm⟩
  · exact ⟨h, Nat.le_refl _⟩

/-- The types that the items stand in are in the table. -/
def Known (d : Declarations) (pending : List PendingItems) : Prop :=
  ∀ p ∈ pending, ∀ o, p.declaring = some o → o < d.types.size

theorem Known.grows {d' : Declarations} {pending : List PendingItems} (hknown : Known d pending)
    (h : d.Grows d') : Known d' pending :=
  fun p hp o ho => Nat.lt_of_lt_of_le (hknown p hp o ho) h.size_le

theorem survey_grows (f : FilePlace) (scope : Scope) (h : d.Consistent) {pending : List PendingItems}
    (hknown : Known d pending) (items : List OutlineItem)
    (hdeclaring : ∀ o, declaring = some o → o < d.types.size) :
    d.Grows (survey f declaring items scope d pending).1 ∧
      Known (survey f declaring items scope d pending).1 (survey f declaring items scope d pending).2 := by
  induction items generalizing scope d pending with
  | nil => exact ⟨⟨h, Nat.le_refl _⟩, hknown⟩
  | cons item items ih =>
      -- what is read first leaves tables in which the rest can be read
      have hrest : ∀ {d' : Declarations} {pending' : List PendingItems} (scope' : Scope),
          d.Grows d' → Known d' pending' →
          d.Grows (survey f declaring items scope' d' pending').1 ∧
            Known (survey f declaring items scope' d' pending').1
              (survey f declaring items scope' d' pending').2 := by
        intro d' pending' scope' hgrows hknown'
        obtain ⟨hmore, hknown''⟩ := ih scope' hgrows.consistent hknown'
          fun o ho => Nat.lt_of_lt_of_le (hdeclaring o ho) hgrows.size_le
        exact ⟨hgrows.trans hmore, hknown''⟩
      have hsame : d.Grows d := ⟨h, Nat.le_refl _⟩
      cases item with
      | namespacePart name inner =>
          apply hrest _ hsame
          exact List.forall_mem_cons.mpr ⟨fun o ho => (by cases ho), hknown⟩
      | type t inner =>
          obtain ⟨hgrows, hlt⟩ := declareType_grows (f := f) h t hdeclaring
          apply hrest _ hgrows
          exact List.forall_mem_cons.mpr ⟨fun o ho => Option.some.inj ho ▸ hlt, hknown.grows hgrows⟩
      | member m =>
          cases declaring with
          | none => exact hrest _ hsame hknown
          | some owner =>
              have hgrows := declareMember_grows f scope h m owner
              exact hrest _ hgrows (hknown.grows hgrows)
      | _ => exact hrest _ hsame hknown

theorem readPending_grows (h : d.Consistent) {pending : List PendingItems} (hknown : Known d pending) :
    d.Grows (readPending f pending d) := by
  induction pending, d using readPending.induct f with
  | case1 d =>
      rw [readPending]
      exact ⟨h, Nat.le_refl _⟩
  | case2 p rest d next hless ih =>
      obtain ⟨hp, hrest⟩ := List.forall_mem_cons.mp hknown
      obtain ⟨hgrows, hnext⟩ := survey_grows f p.scope h hrest p.items hp
      rw [readPending]
      exact hgrows.trans (ih hgrows.consistent hnext)

theorem readFiles_grows (h : d.Consistent) (scope : Scope) (files : List SourceFile)
    (withLocations : Bool) :
    d.Grows (files.foldl
      (fun d file => readPending ⟨file.path, withLocations⟩ [⟨file.items, scope, none⟩] d) d) := by
  induction files generalizing d with
  | nil => exact ⟨h, Nat.le_refl _⟩
  | cons file files ih =>
      have hknown : Known d [⟨file.items, scope, none⟩] := by
        intro p hp o ho
        obtain rfl := List.mem_singleton.mp hp
        cases ho
      have hfirst := readPending_grows (f := ⟨file.path, withLocations⟩) h hknown
      exact hfirst.trans (ih hfirst.consistent)

theorem consistent_collect (owner : String) (files : List SourceFile) (withLocations : Bool) :
    (Declarations.collect owner files withLocations).Consistent :=
  (readFiles_grows consistent_empty _ files withLocations).consistent

/-! ## What the tables hold -/

namespace Declarations.Consistent

variable (h : d.Consistent)

include h

theorem types_perm : (d.topLevel ++ d.types.toList.flatMap (·.nested)).Perm (List.range d.types.size) := by
  have hone : ∀ o o' i, d.TypeIn (some o) i → d.TypeIn (some o') i → o = o' := by
    rintro o o' i ⟨t, ht, ho⟩ ⟨t', ht', ho'⟩
    obtain rfl := Option.some.inj (ht.symm.trans ht')
    exact Option.some.inj (ho.symm.trans ho')
  have hnested := Enumerates.flatMap h.nested hone
  apply Enumerates.perm_range
  constructor
  · apply List.nodup_append.mpr
    refine ⟨h.topLevel.nodup, hnested.nodup, ?_⟩
    rintro i hi i' hi' rfl
    obtain ⟨t, ht, htop⟩ := (h.topLevel.mem_iff i).mp hi
    obtain ⟨o, -, t', ht', ho⟩ := (hnested.mem_iff i).mp hi'
    obtain rfl := Option.some.inj (ht.symm.trans ht')
    cases htop.symm.trans ho
  · intro i
    rw [List.mem_append, h.topLevel.mem_iff, hnested.mem_iff]
    constructor
    · rintro (⟨t, ht, -⟩ | ⟨o, -, t, ht, -⟩) <;> exact lt_size ht
    · intro hi
      have ht := Array.getElem?_eq_getElem hi
      cases hplace : d.types[i].declaring with
      | none => exact .inl ⟨_, ht, hplace⟩
      | some o =>
          obtain ⟨hlt, -⟩ := h.outer i _ o ht hplace
          exact .inr ⟨o, Nat.lt_trans hlt hi, _, ht, hplace⟩

theorem members_perm : (d.types.toList.flatMap (·.members)).Perm (List.range d.members.size) := by
  have hone : ∀ o o' i, d.MemberIn o i → d.MemberIn o' i → o = o' := by
    rintro o o' i ⟨m, hm, rfl⟩ ⟨m', hm', rfl⟩
    obtain rfl := Option.some.inj (hm.symm.trans hm')
    rfl
  apply ((Enumerates.flatMap h.members hone).congr ?_).perm_range
  intro i
  constructor
  · intro hi
    have hm := Array.getElem?_eq_getElem hi
    exact ⟨d.members[i].declaring, h.owner_lt i _ hm, _, hm, rfl⟩
  · rintro ⟨o, -, m, hm, -⟩
    exact (Array.getElem?_eq_some_iff.mp hm).1

/-- Two types of one key are one type. -/
theorem eq_of_key_eq {id id' : Nat} {t t' : DeclaredType} (ht : d.types[id]? = some t)
    (ht' : d.types[id']? = some t') (hkey : t.key = t'.key) : id = id' := by
  have hfirst := (h.byKey_iff t'.key id).mpr ⟨t, ht, hkey⟩
  have hsecond := (h.byKey_iff t'.key id').mpr ⟨t', ht', rfl⟩
  exact Option.some.inj (hfirst.symm.trans hsecond)

theorem keys_nodup : (d.types.toList.map (·.key)).Nodup := by
  apply List.pairwise_iff_getElem.mpr
  intro i j hi hj hlt hkey
  rw [List.length_map] at hi hj
  rw [List.getElem_map, List.getElem_map] at hkey
  exact Nat.ne_of_lt hlt
    (h.eq_of_key_eq (Array.getElem?_eq_getElem hi) (Array.getElem?_eq_getElem hj) hkey)

/-- Going outwards from a type comes to an end. -/
theorem declaring_wellFounded : WellFounded fun o id => d.TypeIn (some o) id := by
  apply Subrelation.wf _ Nat.lt_wfRel.wf
  rintro o id ⟨t, ht, ho⟩
  exact (h.outer id t o ht ho).1

theorem ids_exportedType {id : Nat} {t : DeclaredType} (ht : d.types[id]? = some t) :
    (SourceModule.exportedType d id t).members.map (·.id) = t.members := by
  have hmember : ∀ i ∈ t.members, ∃ m, d.members[i]? = some m := by
    intro i hi
    obtain ⟨m, hm, -⟩ := ((h.members id t ht).mem_iff i).mp hi
    exact ⟨m, hm⟩
  rw [SourceModule.exportedType, List.map_filterMap]
  have hid : ∀ i ∈ t.members,
      ((d.members[i]?).map (SourceModule.exportedMember i)).map (·.id) = some i := by
    intro i hi
    obtain ⟨m, hm⟩ := hmember i hi
    rw [hm]
    rfl
  rw [List.filterMap_congr hid, List.filterMap_some]

end Declarations.Consistent

theorem SourceModule.map_key_zipIdx (d : Declarations) :
    d.types.toList.zipIdx.map (fun entry => entry.1.key) = d.types.toList.map (·.key) := by
  calc d.types.toList.zipIdx.map (fun entry => entry.1.key)
      = (d.types.toList.zipIdx.map Prod.fst).map (·.key) := by
        rw [List.map_map]
        rfl
    _ = d.types.toList.map (·.key) := by rw [List.zipIdx_map_fst]

/-- Each type has one entry, which stands under its key and lists its members. -/
theorem SourceModule.entries_exports {s : SourceModule} (h : s.declarations.Consistent) :
    s.exports.types.entries =
      s.declarations.types.toList.zipIdx.map fun (t, id) => (t.key, exportedType s.declarations id t) := by
  have hentries := Dict.entries_foldl_insert (fun (entry : DeclaredType × Nat) => entry.1.key)
    (fun entry => exportedType s.declarations entry.2 entry.1) s.declarations.types.toList.zipIdx .empty
    (by rw [map_key_zipIdx]; exact h.keys_nodup)
  exact (congrArg Dict.entries (Exports.types_foldl_insert _ _ _ (.empty s.name))).trans hentries

/-- Whatever the files declare, their tables refer to each other as they should, and the module offers
what they hold. -/
theorem SourceModule.tables_collect (name : String) (references : List String)
    (files : List SourceFile) (withLocations : Bool) :
    let s := ofOutlines name references files withLocations
    let d := s.declarations
    d.Consistent ∧
      (d.types.toList.map (·.key)).Nodup ∧
      (d.topLevel ++ d.types.toList.flatMap (·.nested)).Perm (List.range d.types.size) ∧
      (d.types.toList.flatMap (·.members)).Perm (List.range d.members.size) ∧
      (WellFounded fun o id => d.TypeIn (some o) id) ∧
      s.exports.types.entries =
        d.types.toList.zipIdx.map (fun (t, id) => (t.key, exportedType d id t)) ∧
      ∀ (id : Nat) t, d.types[id]? = some t → (exportedType d id t).members.map (·.id) = t.members := by
  intro s d
  have h : d.Consistent := consistent_collect name files withLocations
  exact ⟨h, h.keys_nodup, h.types_perm, h.members_perm, h.declaring_wellFounded,
    SourceModule.entries_exports (s := s) h, fun _ _ ht => h.ids_exportedType ht⟩

end CSharp

end CodeGraph
