import CodeGraph.Proofs.CSharp.DeclarationTables
import Mathlib.Data.List.Induction

namespace CodeGraph.CSharp

open Declarations

/-!
# Parts of types

A type may be declared in several parts, each in a scope of its own. What a part says does not depend on
the other parts, and the entry of a type is the sum of its parts in the order in which they are read.
-/

/-- A declaration of a type as it stands in its file. -/
structure Part where
  ns : String
  nesting : List String
  form : TypeForm
  bases : List String
  /-- The scope inside the declaration, in which its bases are read. -/
  scope : Scope

def Part.key (p : Part) : String :=
  exportKey p.ns p.nesting

/-- A namespace and the types in it that stand around a declaration, none outside of types. -/
abbrev Around : Type :=
  Option (String × List String)

def OutlineType.part (t : OutlineType) (scope : Scope) (around : Around) : Part :=
  let (ns, outer) := around.getD (scope.ns, [])
  let nesting := outer ++ [arityName t.name t.typeParams]
  { ns, nesting, form := t.form
    bases := if t.form = .enum then [] else t.bases
    scope := scope.inType (exportKey ns nesting) t.typeParams }

/-- The scope behind an item of a file. -/
def OutlineItem.rescope : OutlineItem → Scope → Scope
  | .using u, scope => if u.isGlobal then scope else u.apply scope
  | .fileNamespace name, scope => scope.inNamespace name
  | _, scope => scope

mutual

/-- The declarations of types in an item, with those in them. -/
def OutlineItem.parts (around : Around) : OutlineItem → Scope → List Part
  | .namespacePart name items, scope => partsIn none items (scope.inNamespace name)
  | .type t items, scope =>
    let p := t.part scope around
    p :: partsIn (some (p.ns, p.nesting)) items p.scope
  | _, _ => []

def partsIn (around : Around) : List OutlineItem → Scope → List Part
  | [], _ => []
  | item :: rest, scope => item.parts around scope ++ partsIn around rest (item.rescope scope)

end

def partsOf (scope : Scope) (files : List SourceFile) : List Part :=
  files.flatMap fun file => partsIn none file.items scope

/-- The declarations of types in the files of a module. -/
def parts (name : String) (files : List SourceFile) : List Part :=
  partsOf (globalScope name files) files

/-- Declarations of one key are parts of one type. -/
def Coherent (ps : List Part) : Prop :=
  ∀ p ∈ ps, ∀ q ∈ ps, p.key = q.key → p.ns = q.ns ∧ p.nesting = q.nesting ∧ p.form = q.form

/-! ## Merged bases -/

variable {bases more : List (String × Scope)}

theorem mergeBases_cons (bases more : List (String × Scope)) (b : String × Scope) :
    mergeBases bases (b :: more) =
      mergeBases (if bases.any (·.1 == b.1) then bases else bases ++ [b]) more :=
  rfl

theorem prefix_mergeBases (bases more : List (String × Scope)) : bases <+: mergeBases bases more := by
  induction more generalizing bases with
  | nil => exact List.prefix_rfl
  | cons b more ih =>
      rw [mergeBases_cons]
      split
      · exact ih bases
      · exact (List.prefix_append bases [b]).trans (ih _)

theorem mem_mergeBases {b : String × Scope} (h : b ∈ mergeBases bases more) : b ∈ bases ∨ b ∈ more := by
  induction more generalizing bases with
  | nil => exact .inl h
  | cons c more ih =>
      rw [mergeBases_cons] at h
      rcases ih h with h | h
      · split at h
        · exact .inl h
        · rcases List.mem_append.mp h with h | h
          · exact .inl h
          · exact .inr (List.mem_singleton.mp h ▸ List.mem_cons_self)
      · exact .inr (List.mem_cons_of_mem c h)

theorem head?_mergeBases (bases more : List (String × Scope)) :
    (mergeBases bases more).head? = bases.head?.or more.head? := by
  cases bases with
  | cons b bases =>
      obtain ⟨rest, hrest⟩ := prefix_mergeBases (b :: bases) more
      rw [← hrest]
      rfl
  | nil =>
      cases more with
      | nil => rfl
      | cons b more =>
          obtain ⟨rest, hrest⟩ := prefix_mergeBases [b] more
          rw [mergeBases_cons]
          exact (congrArg List.head? hrest).symm.trans rfl

/-- The texts of the bases. -/
def texts (bases : List (String × Scope)) : List String :=
  bases.map (·.1)

theorem any_text_iff {b : String × Scope} : bases.any (·.1 == b.1) = true ↔ b.1 ∈ texts bases := by
  simp [texts]

/-- Each text of another part is there in the end. -/
theorem mem_texts_mergeBases {b : String × Scope} (h : b ∈ more) :
    b.1 ∈ texts (mergeBases bases more) := by
  induction more generalizing bases with
  | nil => cases h
  | cons c more ih =>
      rw [mergeBases_cons]
      rcases List.mem_cons.mp h with rfl | h
      · have hthere : b.1 ∈ texts (if bases.any (·.1 == b.1) then bases else bases ++ [b]) := by
          split
          · next hany => exact any_text_iff.mp hany
          · simp [texts]
        exact List.map_subset _ (prefix_mergeBases _ more).subset hthere
      · exact ih h

theorem nodup_texts_mergeBases (h : (texts bases).Nodup) : (texts (mergeBases bases more)).Nodup := by
  induction more generalizing bases with
  | nil => exact h
  | cons b more ih =>
      rw [mergeBases_cons]
      split
      · exact ih h
      · next hany =>
          apply ih
          rw [any_text_iff] at hany
          rw [texts, List.map_append, List.map_singleton, ← List.concat_eq_append]
          exact List.Nodup.concat hany h

/-! ## Sums of parts -/

/-- What a part declares, as an entry. -/
structure Part.Declares (p : Part) (t : DeclaredType) : Prop where
  ns : t.ns = p.ns
  nesting : t.nesting = p.nesting
  form : t.form = p.form
  bases : t.bases = p.bases.map (·, p.scope)
  scope : t.scope = p.scope

/-- The entry has what the parts of its key say, the bases in some order that begins with that of a part
that has any. -/
structure Sums (ps : List Part) (t : DeclaredType) : Prop where
  place : ∃ p ∈ ps, t.ns = p.ns ∧ t.nesting = p.nesting ∧ t.form = p.form
  written : ∀ b ∈ t.bases, ∃ p ∈ ps, p.key = t.key ∧ b.1 ∈ p.bases ∧ b.2 = p.scope
  kept : ∀ p ∈ ps, p.key = t.key → ∀ text ∈ p.bases, text ∈ texts t.bases
  first : ∀ b, t.bases.head? = some b →
    ∃ p ∈ ps, p.key = t.key ∧ p.bases.head? = some b.1 ∧ b.2 = p.scope
  nodup : (∀ p ∈ ps, p.key = t.key → p.bases.Nodup) → (texts t.bases).Nodup

/-- The entries of the table are the sums of the parts. -/
structure Gathers (d : Declarations) (ps : List Part) : Prop where
  find?_iff : ∀ key, (∃ id, d.find? key = some id) ↔ ∃ p ∈ ps, p.key = key
  sums : ∀ (id : Nat) t, d.types[id]? = some t → Sums ps t

theorem Part.Declares.key {p : Part} {t : DeclaredType} (h : p.Declares t) : t.key = p.key := by
  rw [DeclaredType.key, Part.key, h.ns, h.nesting]

section Sums

variable {ps : List Part} {p : Part} {t part : DeclaredType}

theorem Sums.congr {ps' : List Part} (h : Sums ps t) (hps : ∀ p, p ∈ ps' ↔ p ∈ ps) : Sums ps' t where
  place := by
    obtain ⟨p, hp, hplace⟩ := h.place
    exact ⟨p, (hps p).mpr hp, hplace⟩
  written b hb := by
    obtain ⟨p, hp, hwritten⟩ := h.written b hb
    exact ⟨p, (hps p).mpr hp, hwritten⟩
  kept p hp := h.kept p ((hps p).mp hp)
  first b hb := by
    obtain ⟨p, hp, hfirst⟩ := h.first b hb
    exact ⟨p, (hps p).mpr hp, hfirst⟩
  nodup hnodup := h.nodup fun p hp => hnodup p ((hps p).mpr hp)

/-- A part that stands alone. -/
theorem Sums.single (hpart : p.Declares part) (hfresh : ∀ q ∈ ps, q.key ≠ p.key) :
    Sums (p :: ps) part where
  place := ⟨p, List.mem_cons_self, hpart.ns, hpart.nesting, hpart.form⟩
  written b hb := by
    rw [hpart.bases] at hb
    obtain ⟨text, htext, rfl⟩ := List.mem_map.mp hb
    exact ⟨p, List.mem_cons_self, hpart.key.symm, htext, rfl⟩
  kept q hq hkey := by
    rcases List.mem_cons.mp hq with rfl | hq
    · intro text htext
      rw [hpart.bases, texts, List.map_map]
      exact List.mem_map.mpr ⟨text, htext, rfl⟩
    · exact absurd (hkey.trans hpart.key) (hfresh q hq)
  first b hb := by
    rw [hpart.bases, List.head?_map] at hb
    obtain ⟨text, htext, rfl⟩ := Option.map_eq_some_iff.mp hb
    exact ⟨p, List.mem_cons_self, hpart.key.symm, htext, rfl⟩
  nodup hnodup := by
    have hsame : texts (p.bases.map (·, p.scope)) = p.bases := by
      rw [texts, List.map_map]
      exact List.map_id _
    rw [hpart.bases, hsame]
    exact hnodup p List.mem_cons_self hpart.key.symm

/-- A part of another type changes nothing. -/
theorem Sums.cons (h : Sums ps t) (hkey : p.key ≠ t.key) : Sums (p :: ps) t where
  place := by
    obtain ⟨q, hq, hplace⟩ := h.place
    exact ⟨q, List.mem_cons_of_mem p hq, hplace⟩
  written b hb := by
    obtain ⟨q, hq, hwritten⟩ := h.written b hb
    exact ⟨q, List.mem_cons_of_mem p hq, hwritten⟩
  kept q hq hsame := by
    rcases List.mem_cons.mp hq with rfl | hq
    · exact absurd hsame hkey
    · exact h.kept q hq hsame
  first b hb := by
    obtain ⟨q, hq, hfirst⟩ := h.first b hb
    exact ⟨q, List.mem_cons_of_mem p hq, hfirst⟩
  nodup hnodup := h.nodup fun q hq => hnodup q (List.mem_cons_of_mem p hq)

theorem Sums.merge (h : Sums ps t) (hpart : p.Declares part) (hkey : p.key = t.key) :
    Sums (p :: ps) (t.merge part) where
  place := by
    obtain ⟨q, hq, hplace⟩ := h.place
    exact ⟨q, List.mem_cons_of_mem p hq, hplace⟩
  written b hb := by
    rcases mem_mergeBases hb with hb | hb
    · obtain ⟨q, hq, hwritten⟩ := h.written b hb
      exact ⟨q, List.mem_cons_of_mem p hq, hwritten⟩
    · rw [hpart.bases] at hb
      obtain ⟨text, htext, rfl⟩ := List.mem_map.mp hb
      exact ⟨p, List.mem_cons_self, hkey, htext, rfl⟩
  kept q hq hsame text htext := by
    rcases List.mem_cons.mp hq with rfl | hq
    · have hb : (text, q.scope) ∈ part.bases := by
        rw [hpart.bases]
        exact List.mem_map_of_mem htext
      exact mem_texts_mergeBases hb
    · have hkept := h.kept q hq hsame text htext
      exact List.map_subset _ (prefix_mergeBases t.bases part.bases).subset hkept
  first b hb := by
    change (mergeBases t.bases part.bases).head? = some b at hb
    rw [head?_mergeBases, Option.or_eq_some_iff] at hb
    rcases hb with hb | ⟨-, hb⟩
    · obtain ⟨q, hq, hfirst⟩ := h.first b hb
      exact ⟨q, List.mem_cons_of_mem p hq, hfirst⟩
    · rw [hpart.bases, List.head?_map] at hb
      obtain ⟨text, htext, rfl⟩ := Option.map_eq_some_iff.mp hb
      exact ⟨p, List.mem_cons_self, hkey, htext, rfl⟩
  nodup hnodup := nodup_texts_mergeBases (h.nodup fun q hq => hnodup q (List.mem_cons_of_mem p hq))

/-- An entry that differs in what no part says. -/
structure SameSum (t u : DeclaredType) : Prop where
  ns : u.ns = t.ns
  nesting : u.nesting = t.nesting
  form : u.form = t.form
  bases : u.bases = t.bases

theorem SameSum.key {u : DeclaredType} (h : SameSum t u) : u.key = t.key := by
  rw [DeclaredType.key, DeclaredType.key, h.ns, h.nesting]

theorem Sums.same {u : DeclaredType} (h : Sums ps t) (hu : SameSum t u) : Sums ps u := by
  obtain ⟨hplace, hwritten, hkept, hfirst, hnodup⟩ := h
  rw [← hu.ns, ← hu.nesting, ← hu.form] at hplace
  rw [← hu.key, ← hu.bases] at hwritten hfirst hkept hnodup
  exact ⟨hplace, hwritten, hkept, hfirst, hnodup⟩

end Sums

/-! ## Steps -/

section Steps

variable {d : Declarations} {ps : List Part} {p : Part}

theorem gathers_empty : Gathers .empty [] where
  find?_iff key := by simp [find?, empty, Dict.get?_empty]
  sums id t h := by simp [empty] at h

theorem Gathers.congr {ps' : List Part} (h : Gathers d ps) (hps : ∀ p, p ∈ ps' ↔ p ∈ ps) :
    Gathers d ps' where
  find?_iff key := by
    rw [h.find?_iff]
    exact exists_congr fun p => and_congr_left fun _ => (hps p).symm
  sums id t ht := (h.sums id t ht).congr hps

theorem Gathers.addMember (h : Gathers d ps) (m : DeclaredMember) : Gathers (d.addMember m) ps where
  find?_iff := h.find?_iff
  sums id u hu := by
    rw [(d.updates_addMember m).types, Option.map_eq_some_iff] at hu
    obtain ⟨t, ht, rfl⟩ := hu
    apply (h.sums id t ht).same
    split <;> exact ⟨rfl, rfl, rfl, rfl⟩

theorem Gathers.addMembers (h : Gathers d ps) (own : List DeclaredMember) :
    Gathers (own.foldl .addMember d) ps := by
  induction own generalizing d with
  | nil => exact h
  | cons m own ih => exact ih (h.addMember m)

theorem Gathers.merge (h : Gathers d ps) (hd : d.Consistent) {part t : DeclaredType} {id : Nat}
    (hpart : p.Declares part) (ht : d.types[id]? = some t) (hkey : t.key = p.key) :
    Gathers { d with types := d.types.modify id (·.merge part) } (p :: ps) where
  find?_iff key := by
    have hthere := (h.find?_iff p.key).mp ⟨id, (hd.byKey_iff p.key id).mpr ⟨t, ht, hkey⟩⟩
    change (∃ i, d.find? key = some i) ↔ _
    rw [h.find?_iff, List.exists_mem_cons_iff]
    refine ⟨.inr, ?_⟩
    rintro (rfl | hmore)
    · exact hthere
    · exact hmore
  sums i u hu := by
    rw [(d.updates_merge id part).types, Option.map_eq_some_iff] at hu
    obtain ⟨o, ho, rfl⟩ := hu
    split
    · next hid =>
        subst hid
        obtain rfl := Option.some.inj (ho.symm.trans ht)
        exact (h.sums id o ho).merge hpart hkey.symm
    · next hid =>
        apply (h.sums i o ho).cons
        intro hsame
        exact hid (hd.eq_of_key_eq ht ho (hkey.trans hsame))

theorem Gathers.addType (h : Gathers d ps) (hd : d.Consistent) {part : DeclaredType}
    (hpart : p.Declares part) (hfresh : d.find? part.key = none) :
    Gathers (d.addType part) (p :: ps) := by
  have hnew : ∀ q ∈ ps, q.key ≠ p.key := by
    intro q hq hkey
    obtain ⟨id, hid⟩ := (h.find?_iff q.key).mpr ⟨q, hq, rfl⟩
    rw [hkey, ← hpart.key, hfresh] at hid
    cases hid
  constructor
  · intro key
    rw [find?, byKey_addType, Dict.get?_insert, List.exists_mem_cons_iff, ← h.find?_iff, hpart.key]
    by_cases hkey : key = p.key
    · simp [hkey]
    · simp [hkey, Ne.symm hkey, find?]
  · intro id u hu
    rcases types_addType_eq_some.mp hu with ⟨-, rfl⟩ | ⟨o, ho, rfl⟩
    · exact .single hpart hnew
    · have hsame : SameSum o (d.grown part id o) := by
        unfold grown
        split <;> exact ⟨rfl, rfl, rfl, rfl⟩
      apply Sums.same _ hsame
      apply (h.sums id o ho).cons
      intro hkey
      have hget := (hd.byKey_iff o.key id).mpr ⟨o, ho, rfl⟩
      rw [← hkey, ← hpart.key] at hget
      cases hfresh.symm.trans hget

theorem Gathers.enter (h : Gathers d ps) (hd : d.Consistent) {part : DeclaredType}
    (hpart : p.Declares part) :
    Gathers (d.enter part).1 (p :: ps) ∧
      ∃ t, (d.enter part).1.types[(d.enter part).2]? = some t ∧ t.key = p.key := by
  unfold Declarations.enter
  split
  · next id hfound =>
      obtain ⟨t, ht, hkey⟩ := (hd.byKey_iff _ id).mp hfound
      rw [hpart.key] at hkey
      refine ⟨h.merge hd hpart ht hkey, t.merge part, ?_, hkey⟩
      rw [(d.updates_merge id part).types, ht, Option.map_some, if_pos rfl]
  · next hfresh =>
      refine ⟨h.addType hd hpart hfresh, part, ?_, hpart.key⟩
      exact types_addType_eq_some.mpr (.inl ⟨rfl, rfl⟩)

end Steps

/-! ## Reading -/

variable {d d' : Declarations} {f : FilePlace} {all : List Part} {pending : List PendingItems}

/-- What stands around the declarations in a type, or outside of all types. -/
def Declarations.placeOf (d : Declarations) (declaring : Option Nat) : Around :=
  (declaring.bind (d.types[·]?)).map fun t => (t.ns, t.nesting)

/-- The types stay in their places. -/
def Places (d d' : Declarations) : Prop :=
  ∀ id : Nat, id < d.types.size → d'.placeOf (some id) = d.placeOf (some id)

theorem Declarations.Updates.places {g : Nat → DeclaredType → DeclaredType} (h : d.Updates d' g) :
    Places d d' := by
  intro id _
  unfold placeOf
  rw [Option.bind_some, Option.bind_some, h.types]
  cases d.types[id]? with
  | none => rfl
  | some t =>
      obtain ⟨hns, hnesting, -⟩ := h.place id t
      simp [hns, hnesting]

theorem places_addType (d : Declarations) (t : DeclaredType) : Places d (d.addType t) := by
  intro id hid
  unfold placeOf
  rw [Option.bind_some, Option.bind_some, types_addType, if_neg (Nat.ne_of_lt hid)]
  cases d.types[id]? <;> simp

theorem places_enter (d : Declarations) (part : DeclaredType) : Places d (d.enter part).1 := by
  unfold Declarations.enter
  split
  · exact (d.updates_merge _ part).places
  · exact places_addType d part

theorem Places.trans {d'' : Declarations} (h : Places d d') (h' : Places d' d'')
    (hsize : d.types.size ≤ d'.types.size) : Places d d'' :=
  fun id hid => (h' id (Nat.lt_of_lt_of_le hid hsize)).trans (h id hid)

theorem places_addMembers (d : Declarations) (own : List DeclaredMember) :
    Places d (own.foldl .addMember d) := by
  induction own generalizing d with
  | nil => exact fun _ _ => rfl
  | cons m own ih =>
      exact (d.updates_addMember m).places.trans (ih _) (Nat.le_of_eq (d.size_addMember m).symm)

def pendingParts (d : Declarations) (pending : List PendingItems) : List Part :=
  pending.flatMap fun q => partsIn (d.placeOf q.declaring) q.items q.scope

theorem Places.pendingParts_eq (h : Places d d') (hknown : Known d pending) :
    pendingParts d' pending = pendingParts d pending := by
  apply List.flatMap_congr
  intro q hq
  have hplace : d'.placeOf q.declaring = d.placeOf q.declaring := by
    cases hdeclaring : q.declaring with
    | none => rfl
    | some o => exact h o (hknown q hq o hdeclaring)
  rw [hplace]

/-- What is in the table and what is still to be read are the parts of all files. -/
structure Reading (all : List Part) (d : Declarations) (pending : List PendingItems) : Prop where
  consistent : d.Consistent
  known : Known d pending
  gathers : ∃ ps, Gathers d ps ∧ ∀ p, p ∈ all ↔ p ∈ ps ∨ p ∈ pendingParts d pending

theorem declares_declaredType (f : FilePlace) (t : OutlineType) (scope : Scope) (declaring : Option Nat)
    (d : Declarations) :
    (t.part scope (d.placeOf declaring)).Declares (declaredType f t scope declaring d) := by
  have haround : d.around scope declaring = (d.placeOf declaring).getD (scope.ns, []) := by
    unfold around placeOf
    cases declaring.bind (d.types[·]?) <;> rfl
  unfold declaredType OutlineType.part
  rw [haround]
  refine ⟨rfl, rfl, rfl, ?_, rfl⟩
  dsimp only
  split <;> rfl

variable {items rest : List OutlineItem} {item : OutlineItem} {scope : Scope} {declaring : Option Nat}

theorem known_cons {q : PendingItems} :
    Known d (q :: pending) ↔ (∀ o, q.declaring = some o → o < d.types.size) ∧ Known d pending :=
  List.forall_mem_cons

theorem pendingParts_cons (d : Declarations) (q : PendingItems) (pending : List PendingItems) :
    pendingParts d (q :: pending) =
      partsIn (d.placeOf q.declaring) q.items q.scope ++ pendingParts d pending :=
  List.flatMap_cons

theorem Reading.congr {pending' : List PendingItems} (h : Reading all d pending)
    (hknown : Known d pending') (hparts : ∀ p, p ∈ pendingParts d pending' ↔ p ∈ pendingParts d pending) :
    Reading all d pending' := by
  obtain ⟨ps, hps, hall⟩ := h.gathers
  exact ⟨h.consistent, hknown, ps, hps, fun p => by rw [hall, hparts]⟩

/-- All parts of an entry stand where any one of them does. -/
theorem Gathers.placeOf_eq {ps : List Part} {p : Part} {id : Nat} {t : DeclaredType} (h : Gathers d ps)
    (hall : Coherent all) (hps : ∀ q ∈ ps, q ∈ all) (hp : p ∈ all) (ht : d.types[id]? = some t)
    (hkey : t.key = p.key) : d.placeOf (some id) = some (p.ns, p.nesting) := by
  obtain ⟨q, hq, hns, hnesting, -⟩ := (h.sums id t ht).place
  have hqkey : q.key = p.key := by
    rw [← hkey, DeclaredType.key, Part.key, hns, hnesting]
  obtain ⟨hns', hnesting', -⟩ := hall q (hps q hq) p hp hqkey
  rw [placeOf, Option.bind_some, ht, Option.map_some, hns, hnesting, hns', hnesting']

/-- The part is entered, and what is in it is read below its entry. -/
theorem Reading.declareType (hall : Coherent all) {t : OutlineType}
    (h : Reading all d (⟨.type t items :: rest, scope, declaring⟩ :: pending)) :
    Reading all (declareType f t scope declaring d).1
      (⟨rest, scope, declaring⟩ :: ⟨items, (declareType f t scope declaring d).2.2,
        some (declareType f t scope declaring d).2.1⟩ :: pending) := by
  obtain ⟨ps, hps, hmem⟩ := h.gathers
  obtain ⟨hd, hknown, -⟩ := h
  obtain ⟨hself, hpending⟩ := known_cons.mp hknown
  change ∀ o, declaring = some o → o < d.types.size at hself
  obtain ⟨hgrows, hlt⟩ : d.Grows (CSharp.declareType f t scope declaring d).1 ∧
      (CSharp.declareType f t scope declaring d).2.1 <
        (CSharp.declareType f t scope declaring d).1.types.size := declareType_grows hd t hself
  have hdeclares := declares_declaredType f t scope declaring d
  obtain ⟨hentered, entry, hentry, hkey⟩ := hps.enter hd hdeclares
  have hscope : (CSharp.declareType f t scope declaring d).2.2 =
      (t.part scope (d.placeOf declaring)).scope := hdeclares.scope
  have hparts : partsIn (d.placeOf declaring) (.type t items :: rest) scope =
      t.part scope (d.placeOf declaring) :: partsIn (some ((t.part scope (d.placeOf declaring)).ns,
        (t.part scope (d.placeOf declaring)).nesting)) items (t.part scope (d.placeOf declaring)).scope ++
        partsIn (d.placeOf declaring) rest scope := rfl
  rw [pendingParts_cons, hparts] at hmem
  generalize t.part scope (d.placeOf declaring) = p at *
  have hsize := (hd.enter (fits_declaredType f t scope d hself)).1.size_le
  have hplaces : Places d (CSharp.declareType f t scope declaring d).1 :=
    (places_enter d _).trans (places_addMembers _ _) hsize
  have hrest : (CSharp.declareType f t scope declaring d).1.placeOf declaring = d.placeOf declaring := by
    cases declaring with
    | none => rfl
    | some o => exact hplaces o (hself o rfl)
  have hinner : (CSharp.declareType f t scope declaring d).1.placeOf
      (some (CSharp.declareType f t scope declaring d).2.1) = some (p.ns, p.nesting) := by
    have hp : p ∈ all := (hmem p).mpr (.inr (by simp))
    have hall' : ∀ q ∈ p :: ps, q ∈ all :=
      List.forall_mem_cons.mpr ⟨hp, fun q hq => (hmem q).mpr (.inl hq)⟩
    have hplace := hentered.placeOf_eq hall hall' hp hentry hkey
    exact (places_addMembers _ _ _ (lt_size hentry)).trans hplace
  refine ⟨hgrows.consistent, ?_, _, hentered.addMembers _, fun q => ?_⟩
  · refine known_cons.mpr ⟨fun o ho => Nat.lt_of_lt_of_le (hself o ho) hgrows.size_le, ?_⟩
    exact known_cons.mpr ⟨fun o ho => Option.some.inj ho ▸ hlt, Known.grows hpending hgrows⟩
  · rw [hmem, pendingParts_cons, pendingParts_cons, hplaces.pendingParts_eq hpending, hinner, hrest, hscope]
    simp only [List.mem_append, List.mem_cons]
    tauto

theorem Reading.declareMember {owner : Nat} {m : OutlineMember}
    (h : Reading all d (⟨.member m :: rest, scope, some owner⟩ :: pending)) :
    Reading all (declareMember f m scope owner d) (⟨rest, scope, some owner⟩ :: pending) := by
  have hgrows := declareMember_grows f scope h.consistent m owner
  obtain ⟨hself, hpending⟩ := known_cons.mp h.known
  have hknown : Known d (⟨rest, scope, some owner⟩ :: pending) := known_cons.mpr ⟨hself, hpending⟩
  have hrest : Reading all d (⟨rest, scope, some owner⟩ :: pending) := h.congr hknown fun _ => Iff.rfl
  obtain ⟨ps, hps, hmem⟩ := hrest.gathers
  unfold CSharp.declareMember at hgrows ⊢
  split
  · next member hmember =>
      have hplaces := (d.updates_addMember member).places
      rw [hmember] at hgrows
      exact ⟨hgrows.consistent, hknown.grows hgrows, ps, hps.addMember member, by
        rwa [hplaces.pendingParts_eq hknown]⟩
  · exact hrest

theorem reading_survey (hall : Coherent all) (items : List OutlineItem)
    (h : Reading all d (⟨items, scope, declaring⟩ :: pending)) :
    Reading all (survey f declaring items scope d pending).1
      (survey f declaring items scope d pending).2 := by
  induction items generalizing scope d pending with
  | nil => exact h.congr (known_cons.mp h.known).2 fun p => by rw [pendingParts_cons]; rfl
  | cons item items ih =>
      obtain ⟨hself, hpending⟩ := known_cons.mp h.known
      cases item with
      | namespacePart name inner =>
          apply ih
          apply h.congr
          · exact known_cons.mpr ⟨hself, known_cons.mpr ⟨fun o ho => (by cases ho), hpending⟩⟩
          · intro p
            have hparts : partsIn (d.placeOf declaring) (.namespacePart name inner :: items) scope =
                partsIn none inner (scope.inNamespace name) ++
                  partsIn (d.placeOf declaring) items scope := rfl
            have hnone : d.placeOf none = none := rfl
            simp only [pendingParts_cons, hparts, hnone, List.mem_append]
            tauto
      | type t inner => exact ih (h.declareType hall)
      | member m =>
          cases declaring with
          | none => exact ih (h.congr (known_cons.mpr ⟨hself, hpending⟩) fun _ => Iff.rfl)
          | some owner => exact ih h.declareMember
      | _ => exact ih (h.congr (known_cons.mpr ⟨hself, hpending⟩) fun _ => Iff.rfl)

theorem reading_readPending (hall : Coherent all) (h : Reading all d pending) :
    Reading all (readPending f pending d) [] := by
  induction pending, d using readPending.induct f with
  | case1 d =>
      rw [readPending]
      exact h
  | case2 p rest d next hless ih =>
      rw [readPending]
      exact ih (reading_survey hall p.items h)

theorem reading_files (scope : Scope) (withLocations : Bool) (files : List SourceFile)
    (hall : Coherent (partsOf scope files)) :
    Reading (partsOf scope files) (files.foldl (fun d file =>
      readPending ⟨file.path, withLocations⟩ [⟨file.items, scope, none⟩] d) .empty) [] := by
  induction files using List.reverseRecOn with
  | nil =>
      refine ⟨consistent_empty, List.forall_mem_nil _, [], gathers_empty, fun p => ?_⟩
      simp [partsOf, pendingParts]
  | append_singleton files file ih =>
      have hparts : partsOf scope (files ++ [file]) =
          partsOf scope files ++ partsIn none file.items scope := by
        simp [partsOf]
      rw [List.foldl_append, List.foldl_cons, List.foldl_nil]
      apply reading_readPending hall
      rw [hparts] at hall ⊢
      have hbefore : Coherent (partsOf scope files) := fun p hp q hq =>
        hall p (List.mem_append_left _ hp) q (List.mem_append_left _ hq)
      obtain ⟨hd, -, ps, hps, hmem⟩ := ih hbefore
      refine ⟨hd, known_cons.mpr ⟨fun o ho => (by cases ho), List.forall_mem_nil _⟩, ps, hps, fun p => ?_⟩
      rw [List.mem_append, hmem, pendingParts_cons, List.mem_append]
      exact or_assoc.trans (or_congr_right Or.comm)

/-- The entries of a module are the sums of the parts in its files. -/
theorem gathers_collect {name : String} {files : List SourceFile} (hall : Coherent (parts name files))
    (withLocations : Bool) : Gathers (.collect name files withLocations) (parts name files) := by
  obtain ⟨-, -, ps, hps, hmem⟩ := reading_files _ withLocations files hall
  exact hps.congr fun p => (hmem p).trans (or_iff_left List.not_mem_nil)

/-! ## Parts in other scopes -/

/-- Parts that differ at most in their scopes. -/
structure Part.Alike (p p' : Part) : Prop where
  ns : p'.ns = p.ns
  nesting : p'.nesting = p.nesting
  form : p'.form = p.form
  bases : p'.bases = p.bases

theorem Part.Alike.key {p p' : Part} (h : p.Alike p') : p'.key = p.key := by
  rw [Part.key, Part.key, h.ns, h.nesting]

section Alike

variable {scope scope' : Scope}

theorem ns_apply (u : Using) (scope : Scope) : (u.apply scope).ns = scope.ns := by
  unfold Using.apply
  split <;> rfl

theorem ns_rescope (h : scope'.ns = scope.ns) (item : OutlineItem) :
    (item.rescope scope').ns = (item.rescope scope).ns := by
  unfold OutlineItem.rescope
  split
  · split
    · exact h
    · rw [ns_apply, ns_apply, h]
  · exact congrArg (Name.join · _) h
  · exact h

theorem alike_part (h : scope'.ns = scope.ns) (t : OutlineType) (around : Around) :
    (t.part scope around).Alike (t.part scope' around) := by
  unfold OutlineType.part
  rw [h]
  exact ⟨rfl, rfl, rfl, rfl⟩

mutual

/-- Which parts there are depends on the scope only through its namespace. -/
theorem alike_parts {scope scope' : Scope} (h : scope'.ns = scope.ns) (around : Around)
    (item : OutlineItem) :
    ∀ p ∈ item.parts around scope, ∃ p' ∈ item.parts around scope', p.Alike p' := by
  cases item with
  | namespacePart name items => exact alike_partsIn (congrArg (Name.join · name) h) none items
  | type t items =>
      have hpart := alike_part h t around
      have hscope : (t.part scope' around).scope.ns = (t.part scope around).scope.ns := h
      have hinner :=
        alike_partsIn hscope (some ((t.part scope around).ns, (t.part scope around).nesting)) items
      rw [OutlineItem.parts, OutlineItem.parts, hpart.ns, hpart.nesting]
      intro p hp
      rcases List.mem_cons.mp hp with rfl | hp
      · exact ⟨_, List.mem_cons_self, hpart⟩
      · obtain ⟨p', hp', halike⟩ := hinner p hp
        exact ⟨p', List.mem_cons_of_mem _ hp', halike⟩
  | _ => exact fun p hp => absurd hp List.not_mem_nil

theorem alike_partsIn {scope scope' : Scope} (h : scope'.ns = scope.ns) (around : Around)
    (items : List OutlineItem) :
    ∀ p ∈ partsIn around items scope, ∃ p' ∈ partsIn around items scope', p.Alike p' := by
  cases items with
  | nil => exact fun p hp => absurd hp List.not_mem_nil
  | cons item rest =>
      intro p hp
      rcases List.mem_append.mp hp with hp | hp
      · obtain ⟨p', hp', halike⟩ := alike_parts h around item p hp
        exact ⟨p', List.mem_append_left _ hp', halike⟩
      · obtain ⟨p', hp', halike⟩ := alike_partsIn (ns_rescope h item) around rest p hp
        exact ⟨p', List.mem_append_right _ hp', halike⟩

end

theorem ns_globalScope (name : String) (files : List SourceFile) : (globalScope name files).ns = "" := by
  unfold globalScope
  refine List.foldlRecOn (motive := fun (scope : Scope) => scope.ns = "") _ _ rfl fun scope h item _ => ?_
  split
  · split
    · rw [ns_apply, h]
    · exact h
  · exact h

end Alike

/-- The files may come in any order. -/
theorem exists_alike {name : String} {files files' : List SourceFile} (h : files.Perm files') {p : Part}
    (hp : p ∈ parts name files) : ∃ p' ∈ parts name files', p.Alike p' := by
  obtain ⟨file, hfile, hp⟩ := List.mem_flatMap.mp hp
  have hns : (globalScope name files').ns = (globalScope name files).ns := by
    rw [ns_globalScope, ns_globalScope]
  obtain ⟨p', hp', halike⟩ := alike_partsIn hns none file.items p hp
  exact ⟨p', List.mem_flatMap.mpr ⟨file, h.mem_iff.mp hfile, hp'⟩, halike⟩

theorem Coherent.perm {name : String} {files files' : List SourceFile} (h : files.Perm files')
    (hall : Coherent (parts name files)) : Coherent (parts name files') := by
  intro p' hp' q' hq' hkey
  obtain ⟨p, hp, hpa⟩ := exists_alike h.symm hp'
  obtain ⟨q, hq, hqa⟩ := exists_alike h.symm hq'
  obtain ⟨hns, hnesting, hform⟩ := hall p hp q hq (hpa.key.trans (hkey.trans hqa.key.symm))
  rw [← hpa.ns, ← hpa.nesting, ← hpa.form, ← hqa.ns, ← hqa.nesting, ← hqa.form]
  exact ⟨hns, hnesting, hform⟩

end CodeGraph.CSharp
