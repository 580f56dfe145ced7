import CodeGraph.CSharp.Module
import CodeGraph.Metadata.Member
import CodeGraph.Proofs.CSharp.OverloadChoice
import CodeGraph.Proofs.CSharp.Resolved

namespace CodeGraph

/-!
# Found types and their bases

A type that is found under a key has that key, and its definition is what was found. The chain of a type
goes from base to base as far as there are definitions and has sixteen entries at most, so that it ends
also where bases come back to each other. A member is taken from the first type of the chain that has a
fitting one.
-/

/-! ## Keys -/

namespace Exports

/-- Every type stands under the key of its namespace and its nesting. -/
def UnderKeys (e : Exports) : Prop :=
  ∀ key t, e.types.get? key = some t → exportKey t.ns t.nesting = key

theorem underKeys_empty (owner : String) : (Exports.empty owner).UnderKeys := by
  intro key t h
  rw [Exports.empty, Dict.get?_empty] at h
  cases h

theorem UnderKeys.insert {e : Exports} (h : e.UnderKeys) (t : ExportedType) :
    (e.insert (exportKey t.ns t.nesting) t).UnderKeys := by
  intro key u hu
  rw [Exports.insert, Dict.get?_insert] at hu
  split at hu
  · next hkey =>
      obtain rfl := Option.some.inj hu
      exact hkey.symm
  · exact h key u hu

theorem UnderKeys.foldl_insert {α : Type} (key : α → String) (type : α → ExportedType)
    (hkey : ∀ a, exportKey (type a).ns (type a).nesting = key a) (l : List α) {e : Exports}
    (h : e.UnderKeys) : (l.foldl (fun e a => e.insert (key a) (type a)) e).UnderKeys := by
  induction l generalizing e with
  | nil => exact h
  | cons a l ih =>
      have hstep := h.insert (type a)
      rw [hkey a] at hstep
      exact ih hstep

end Exports

theorem CSharp.SourceModule.underKeys_exports (s : CSharp.SourceModule) : s.exports.UnderKeys :=
  Exports.UnderKeys.foldl_insert (fun entry : DeclaredType × Nat => entry.1.key)
    (fun entry => exportedType s.declarations entry.2 entry.1) (fun _ => rfl) _
    (Exports.underKeys_empty s.name)

theorem Metadata.BinaryModule.underKeys_exports (m : Metadata.BinaryModule) : m.exports.UnderKeys :=
  Exports.UnderKeys.foldl_insert (fun t : ExportedType => exportKey t.ns t.nesting) id (fun _ => rfl) _
    (Exports.underKeys_empty m.name)

namespace ExportIndex

/-- Every table stands under the name of its module, and its types stand under their keys. -/
def UnderKeys (i : ExportIndex) : Prop :=
  ∀ owner table, i.table? owner = some table → table.owner = owner ∧ table.UnderKeys

theorem underKeys_empty : ExportIndex.empty.UnderKeys := by
  intro owner table h
  rw [table?, ExportIndex.empty, Dict.get?_empty] at h
  cases h

theorem UnderKeys.add {i : ExportIndex} (h : i.UnderKeys) {e : Exports} (he : e.UnderKeys)
    (references : List String) : (i.add e references).UnderKeys := by
  intro owner table htable
  rw [table?, ExportIndex.add, Dict.get?_insert] at htable
  split at htable
  · next howner =>
      obtain rfl := Option.some.inj htable
      exact ⟨howner.symm, he⟩
  · exact h owner table htable

end ExportIndex

namespace CSharp.Viewpoint

/-- Tables stand under the names of their modules and types under their keys, and the index has no other
table for the module than its own. -/
structure Consistent (v : Viewpoint) : Prop where
  own : v.own.UnderKeys
  index : v.index.UnderKeys
  same : ∀ table, v.index.table? v.own.owner = some table → table = v.own

/-- A module that is entered in an index is seen as it is. -/
theorem consistent_add {i : ExportIndex} (hi : i.UnderKeys) {e : Exports} (he : e.UnderKeys)
    (references seen : List String) : (⟨i.add e references, e, seen⟩ : Viewpoint).Consistent where
  own := he
  index := hi.add he references
  same table htable := by
    rw [ExportIndex.table?, ExportIndex.add, Dict.get?_insert, if_pos rfl] at htable
    exact (Option.some.inj htable).symm

variable {v : Viewpoint}

theorem find?_eq_some_iff {key : String} {n : NamedType} :
    v.find? key = some n ↔
      (∃ t, v.own.types.get? key = some t ∧ v.mention v.own.owner t = n) ∨
        v.own.types.get? key = none ∧
          ∃ owner t, v.index.find? v.own.owner key = some (owner, t) ∧ v.mention owner t = n := by
  rw [find?]
  cases v.own.types.get? key with
  | some t => simp
  | none => simp

/-- The table of a module that is seen has the type, and it stands under that module's name. -/
theorem Consistent.of_index_find? (hv : v.Consistent) {key owner : String} {t : ExportedType}
    (h : v.index.find? v.own.owner key = some (owner, t)) :
    ∃ table, v.index.table? owner = some table ∧ table.types.get? key = some t ∧ table.UnderKeys := by
  obtain ⟨table, htable, hfound⟩ := List.exists_of_findSome?_eq_some h
  obtain ⟨name, -, hname⟩ := List.mem_filterMap.mp htable
  obtain ⟨t', ht, heq⟩ := Option.map_eq_some_iff.mp hfound
  obtain ⟨rfl, rfl⟩ := Prod.mk.inj heq
  obtain ⟨rfl, hkeys⟩ := hv.index name table hname
  exact ⟨table, hname, ht, hkeys⟩

/-- What is found under a key, in the module itself or in one that it mentions. -/
def Finds (v : Viewpoint) (key : String) (t : ExportedType) : Prop :=
  v.own.types.get? key = some t ∨
    v.own.types.get? key = none ∧ ∃ owner, v.index.find? v.own.owner key = some (owner, t)

theorem Consistent.agree (hv : v.Consistent) {key : String} {n : NamedType} (h : v.find? key = some n) :
    n.key = key ∧ ∃ t, v.Finds key t ∧ v.definition? n = some t ∧
      (n.handle.isSome = true ↔ v.own.types.get? key = some t) := by
  rcases find?_eq_some_iff.mp h with ⟨t, ht, rfl⟩ | ⟨hown, owner, t, hfind, rfl⟩
  · have hkey : (v.mention v.own.owner t).key = key := hv.own key t ht
    refine ⟨hkey, t, Or.inl ht, ?_, ?_⟩
    · rw [definition?, hkey]
      simp [mention, ht]
    · simp [mention, ht]
  · obtain ⟨table, htable, ht, hkeys⟩ := hv.of_index_find? hfind
    have hkey : (v.mention owner t).key = key := hkeys key t ht
    have hne : owner ≠ v.own.owner := by
      rintro rfl
      rw [hv.same table htable, hown] at ht
      cases ht
    refine ⟨hkey, t, Or.inr ⟨hown, owner, hfind⟩, ?_, ?_⟩
    · rw [definition?, hkey]
      have htable' : v.index.tables.get? owner = some table := htable
      simp [mention, hne, ExportIndex.typeIn?, htable', ht]
    · simp [mention, hne, hown]

/-! ## Bases -/

/-- What a type is derived from, where it is defined and its base means a named type. -/
def baseOf? (v : Viewpoint) (t : NamedType) : Option NamedType :=
  (v.definition? t).bind fun definition => (definition.base.bind v.resolveSource).bind (·.asNamed?)

/-- The type itself, its base, the base of that and so on. -/
def nthBase (v : Viewpoint) (t : NamedType) : Nat → Option NamedType
  | 0 => some t
  | n + 1 => (nthBase v t n).bind v.baseOf?

/-- A type with its definition, if it has one. -/
def defined? (v : Viewpoint) (t : NamedType) : Option (NamedType × ExportedType) :=
  (v.definition? t).map (t, ·)

theorem nthBase_succ (v : Viewpoint) (t : NamedType) (n : Nat) :
    v.nthBase t (n + 1) = (v.baseOf? t).bind fun base => v.nthBase base n := by
  induction n with
  | zero => simp [nthBase]
  | succ n ih =>
      rw [nthBase, ih, Option.bind_assoc]
      rfl

theorem basesUpTo_succ (v : Viewpoint) (bound : Nat) (t : NamedType) :
    v.basesUpTo (bound + 1) t =
      (v.defined? t).elim [] fun entry =>
        entry :: (v.baseOf? t).elim [] fun base => v.basesUpTo bound base := by
  rw [basesUpTo, defined?, baseOf?]
  cases v.definition? t with
  | none => rfl
  | some definition =>
      simp only [Option.map_some, Option.elim_some, Option.bind_some]
      cases (definition.base.bind v.resolveSource).bind (·.asNamed?) <;> rfl

theorem baseOf?_eq_none {t : NamedType} (h : v.definition? t = none) : v.baseOf? t = none := by
  rw [baseOf?, h, Option.bind_none]

/-- The entry at a position is the base of that number, unless the chain is cut before it. -/
theorem getElem?_basesUpTo (v : Viewpoint) (bound i : Nat) (t : NamedType) :
    (v.basesUpTo bound t)[i]? = if i < bound then (v.nthBase t i).bind v.defined? else none := by
  induction bound generalizing t i with
  | zero => simp [basesUpTo]
  | succ bound ih =>
      rw [basesUpTo_succ]
      cases i with
      | zero =>
          rw [if_pos (Nat.succ_pos bound), nthBase, Option.bind_some]
          cases v.defined? t with
          | none => rfl
          | some entry => rfl
      | succ i =>
          rw [nthBase_succ]
          cases hdefinition : v.definition? t with
          | none => simp [defined?, hdefinition, baseOf?_eq_none hdefinition]
          | some definition =>
              cases hbase : v.baseOf? t with
              | none => simp [defined?, hdefinition]
              | some base => simp [defined?, hdefinition, ih]

theorem nthBase_add (v : Viewpoint) (t : NamedType) (m n : Nat) :
    v.nthBase t (m + n) = (v.nthBase t m).bind fun base => v.nthBase base n := by
  induction n with
  | zero => simp [nthBase]
  | succ n ih => rw [← Nat.add_assoc, nthBase, ih, Option.bind_assoc]; rfl

theorem nthBase_of_le {t base : NamedType} {m n : Nat} (hmn : m ≤ n) (h : v.nthBase t n = some base) :
    ∃ nearer, v.nthBase t m = some nearer := by
  obtain ⟨k, rfl⟩ := Nat.exists_eq_add_of_le hmn
  rw [nthBase_add] at h
  obtain ⟨nearer, hnearer, -⟩ := Option.bind_eq_some_iff.mp h
  exact ⟨nearer, hnearer⟩

/-- Bases that come back never end. -/
theorem exists_nthBase_of_cycle {t base : NamedType} {m n : Nat} (hn : 0 < n)
    (hfirst : v.nthBase t m = some base) (hback : v.nthBase t (m + n) = some base) (k : Nat) :
    ∃ other, v.nthBase t k = some other := by
  induction k using Nat.strongRecOn with
  | ind k ih =>
      by_cases hk : k ≤ m + n
      · exact nthBase_of_le hk hback
      · obtain ⟨j, rfl⟩ := Nat.exists_eq_add_of_le (Nat.le_of_not_le hk)
        have hshift : v.nthBase t (m + n + j) = v.nthBase t (m + j) := by
          rw [nthBase_add, hback, nthBase_add, hfirst]
        rw [hshift]
        exact ih (m + j) (by omega)

theorem exists_defined_of_nthBase {t base : NamedType} {n : Nat} (h : v.nthBase t (n + 1) = some base) :
    ∃ entry, (v.nthBase t n).bind v.defined? = some entry := by
  obtain ⟨nearer, hnearer, hbase⟩ := Option.bind_eq_some_iff.mp h
  obtain ⟨definition, hdefinition, -⟩ := Option.bind_eq_some_iff.mp hbase
  exact ⟨(nearer, definition), by simp [hnearer, defined?, hdefinition]⟩

theorem getElem?_baseChain (v : Viewpoint) (t : NamedType) (i : Nat) :
    (v.baseChain t)[i]? = if i < 16 then (v.nthBase t i).bind v.defined? else none :=
  getElem?_basesUpTo v maxBases i t

theorem length_baseChain_of_cycle {t base : NamedType} {m n : Nat} (hn : 0 < n)
    (hfirst : v.nthBase t m = some base) (hback : v.nthBase t (m + n) = some base) :
    (v.baseChain t).length = 16 := by
  have hend : (v.baseChain t)[16]? = none := by rw [getElem?_baseChain, if_neg (Nat.lt_irrefl 16)]
  obtain ⟨other, hother⟩ := exists_nthBase_of_cycle hn hfirst hback 16
  obtain ⟨entry, hentry⟩ := exists_defined_of_nthBase hother
  have hlast : (v.baseChain t)[15]? = some entry := by
    rw [getElem?_baseChain, if_pos (by decide), hentry]
  have hle := List.getElem?_eq_none_iff.mp hend
  obtain ⟨hlt, -⟩ := List.getElem?_eq_some_iff.mp hlast
  omega

end CSharp.Viewpoint

namespace CSharp

/-! ## Members -/

/-- The members of a type that a name may mean. -/
def fitting (definition : ExportedType) (name : String) (kind : Option MemberKind) :
    List ExportedMember :=
  (definition.membersNamed name).filter fun m => !m.isConstructor && kind.all (· == m.kind)

/-- The member that is meant by a call, or by a name that is not called. -/
def chosen (args : BodyPlace.CallArgs) (candidates : List ExportedMember) : Option ExportedMember :=
  args.elim candidates.head? (chooseOverload ExportedMember.signature candidates)

theorem chosen_eq_none_iff {args : BodyPlace.CallArgs} {candidates : List ExportedMember} :
    chosen args candidates = none ↔ candidates = [] := by
  cases args with
  | none => exact List.head?_eq_none_iff
  | some args =>
      rw [chosen, Option.elim_some, chooseOverload_eq_firstBest]
      exact firstBest_eq_none_iff

theorem mem_of_chosen {args : BodyPlace.CallArgs} {candidates : List ExportedMember} {m : ExportedMember}
    (h : chosen args candidates = some m) : m ∈ candidates := by
  cases args with
  | none => exact List.mem_of_head? h
  | some args => exact (isBest_of_chooseOverload h).1

theorem findSome?_eq_some_iff_getElem? {α β : Type} {f : α → Option β} {l : List α} {b : β} :
    l.findSome? f = some b ↔
      ∃ (i : Nat) (a : α), l[i]? = some a ∧ f a = some b ∧
        ∀ j < i, ∀ x, l[j]? = some x → f x = none := by
  rw [List.findSome?_eq_some_iff]
  constructor
  · rintro ⟨before, a, behind, rfl, ha, hbefore⟩
    refine ⟨before.length, a, by simp, ha, fun j hj x hx => hbefore x ?_⟩
    rw [List.getElem?_append_left hj] at hx
    exact List.mem_of_getElem? hx
  · rintro ⟨i, a, hi, ha, hbefore⟩
    obtain ⟨hlt, rfl⟩ := List.getElem?_eq_some_iff.mp hi
    refine ⟨l.take i, l[i], l.drop (i + 1), by simp, ha, fun x hx => ?_⟩
    obtain ⟨j, hj, rfl⟩ := List.mem_take_iff_getElem.mp hx
    exact hbefore j (by omega) _ (List.getElem?_eq_getElem _)

namespace Viewpoint

/-- A base of a type with its definition, which counts among the first sixteen. -/
structure OnChain (v : Viewpoint) (t : NamedType) (i : Nat) (base : NamedType)
    (definition : ExportedType) : Prop where
  counts : i < 16
  reached : v.nthBase t i = some base
  defined : v.definition? base = some definition

theorem onChain_iff {v : Viewpoint} {t base : NamedType} {i : Nat} {definition : ExportedType} :
    v.OnChain t i base definition ↔ (v.baseChain t)[i]? = some (base, definition) := by
  rw [getElem?_baseChain]
  constructor
  · rintro ⟨hbound, hbase, hdefinition⟩
    rw [if_pos hbound, hbase, Option.bind_some, defined?, hdefinition, Option.map_some]
  · intro h
    split at h
    · next hbound =>
        obtain ⟨other, hother, hdefined⟩ := Option.bind_eq_some_iff.mp h
        obtain ⟨d, hd, heq⟩ := Option.map_eq_some_iff.mp hdefined
        obtain ⟨rfl, rfl⟩ := Prod.mk.inj heq
        exact ⟨hbound, hother, hd⟩
    · cases h

end Viewpoint

namespace BodyPlace

variable {b : BodyPlace} {owner : NamedType} {name : String} {kind : Option MemberKind} {args : CallArgs}

theorem findMember_eq (b : BodyPlace) (owner : NamedType) (name : String) (kind : Option MemberKind)
    (args : CallArgs) :
    b.findMember owner name kind args =
      (b.view.baseChain owner).findSome? fun entry =>
        (chosen args (fitting entry.2 name kind)).map (memberRef entry.1) := by
  rw [findMember]
  congr 1
  funext entry
  cases args <;> rfl

theorem findMember_eq_some_iff {r : MemberRef} :
    b.findMember owner name kind args = some r ↔
      ∃ i base definition m, b.view.OnChain owner i base definition ∧
        m ∈ fitting definition name kind ∧ chosen args (fitting definition name kind) = some m ∧
        memberRef base m = r ∧
        ∀ j < i, ∀ nearer d, b.view.OnChain owner j nearer d → fitting d name kind = [] := by
  rw [findMember_eq, findSome?_eq_some_iff_getElem?]
  constructor
  · rintro ⟨i, ⟨base, definition⟩, hi, hfound, hbefore⟩
    obtain ⟨m, hm, hr⟩ := Option.map_eq_some_iff.mp hfound
    refine ⟨i, base, definition, m, Viewpoint.onChain_iff.mpr hi, mem_of_chosen hm, hm, hr,
      fun j hj nearer d hon => ?_⟩
    have hnone := hbefore j hj _ (Viewpoint.onChain_iff.mp hon)
    exact chosen_eq_none_iff.mp (Option.map_eq_none_iff.mp hnone)
  · rintro ⟨i, base, definition, m, hon, -, hm, hr, hbefore⟩
    refine ⟨i, (base, definition), Viewpoint.onChain_iff.mp hon, by rw [hm, Option.map_some, hr],
      fun j hj x hx => ?_⟩
    have hnone := hbefore j hj x.1 x.2 (Viewpoint.onChain_iff.mpr hx)
    rw [chosen_eq_none_iff.mpr hnone, Option.map_none]

theorem findMember_eq_none_iff :
    b.findMember owner name kind args = none ↔
      ∀ i base definition, b.view.OnChain owner i base definition → fitting definition name kind = [] := by
  rw [findMember_eq, List.findSome?_eq_none_iff]
  constructor
  · intro h i base definition hon
    have hnone := h _ (List.mem_of_getElem? (Viewpoint.onChain_iff.mp hon))
    exact chosen_eq_none_iff.mp (Option.map_eq_none_iff.mp hnone)
  · intro h entry hentry
    obtain ⟨i, hi⟩ := List.getElem?_of_mem hentry
    rw [chosen_eq_none_iff.mpr (h i entry.1 entry.2 (Viewpoint.onChain_iff.mpr hi)), Option.map_none]

/-- A type that is found has the key that was asked for, its definition is the type that was found, and it
has a handle exactly when the module's own table has it. The chain of a type is the type, its base, the
base of that and so on while there are definitions, up to sixteen, and it has all sixteen when bases come
back. A member is taken from the nearest of these types that has a fitting one. -/
theorem lookups_agree (hb : b.view.Consistent) :
    (∀ key n, b.view.find? key = some n → n.key = key ∧
      ∃ t, b.view.Finds key t ∧ b.view.definition? n = some t ∧
        (n.handle.isSome = true ↔ b.view.own.types.get? key = some t)) ∧
    (∀ (t : NamedType) (i : Nat), (b.view.baseChain t)[i]? =
      if i < 16 then (b.view.nthBase t i).bind b.view.defined? else none) ∧
    (∀ (t base : NamedType) (m n : Nat), 0 < n → b.view.nthBase t m = some base →
      b.view.nthBase t (m + n) = some base → (b.view.baseChain t).length = 16) ∧
    ∀ owner name kind args,
      (∀ r, b.findMember owner name kind args = some r ↔
        ∃ i base definition m, b.view.OnChain owner i base definition ∧
          m ∈ fitting definition name kind ∧ chosen args (fitting definition name kind) = some m ∧
          memberRef base m = r ∧
          ∀ j < i, ∀ nearer d, b.view.OnChain owner j nearer d → fitting d name kind = []) ∧
      (b.findMember owner name kind args = none ↔
        ∀ i base definition, b.view.OnChain owner i base definition → fitting definition name kind = []) :=
  ⟨fun _ _ h => hb.agree h, fun t i => Viewpoint.getElem?_baseChain b.view t i,
    fun _ _ _ _ hn hfirst hback => Viewpoint.length_baseChain_of_cycle hn hfirst hback,
    fun _ _ _ _ => ⟨fun _ => findMember_eq_some_iff, findMember_eq_none_iff⟩⟩

/-! ## Bases in a circle -/

/-- Written as derived from a type `B` beside it. -/
def typeA : ExportedType where
  id := 0
  ns := "N"
  nesting := ["A"]
  base := some (.written "B" ((Scope.outermost "App").inNamespace "N"))
  members := []
  hasDefaultCtor := false
  isInterface := false

def run : ExportedMember :=
  ⟨9, "Run", .method, [], none, false, false, false⟩

/-- A type of another module, which is derived from the type `A` again. -/
def typeB : ExportedType where
  id := 7
  ns := "N"
  nesting := ["B"]
  base := some (.resolved (.named (.simple (some "App") "N" "A")))
  members := [run]
  hasDefaultCtor := false
  isInterface := false

def circleOwn : Exports :=
  (Exports.empty "App").insert "N.A" typeA

def circleIndex : ExportIndex :=
  ExportIndex.empty.add ((Exports.empty "Lib").insert "N.B" typeB) ["App"]

/-- A place in a module that mentions the other one. -/
def inCircle : BodyPlace where
  view := ⟨circleIndex.add circleOwn ["Lib"], circleOwn, ["Lib"]⟩
  owner := .simple (some "App") "N" "A"
  scope := (Scope.outermost "App").inNamespace "N"
  functions := []
  locals := []

theorem consistent_inCircle : inCircle.view.Consistent :=
  Viewpoint.consistent_add
    (ExportIndex.underKeys_empty.add ((Exports.underKeys_empty "Lib").insert typeB) ["App"])
    ((Exports.underKeys_empty "App").insert typeA) _ _

/-- What the place mentions as the type `B`. -/
def mentionedB : NamedType :=
  .simple (some "Lib") "N" "B"

theorem baseOf?_typeA : inCircle.view.baseOf? inCircle.owner = some mentionedB := by
  have htokens : WrittenType.tokens "B".toList = [.word "B"] := by decide +kernel
  have hparse : WrittenType.parse? "B" = some (.named [⟨"B", []⟩]) :=
    Viewpoint.parse?_of_word ⟨by decide, by decide, by decide⟩ htokens
  have hdefinition : inCircle.view.definition? inCircle.owner = some typeA := rfl
  have hresolve : inCircle.view.resolveSource (.written "B" inCircle.scope) = some (.named mentionedB) := by
    rw [Viewpoint.resolveSource, Viewpoint.resolve, hparse]
    rfl
  rw [Viewpoint.baseOf?, hdefinition]
  exact congrArg (Option.bind · (·.asNamed?)) hresolve

/-- The types are derived from each other, so the chain is cut; the member of the other module is found. -/
theorem lookups_agree_inCircle :
    inCircle.view.Consistent ∧ inCircle.view.find? "N.B" = some mentionedB ∧ mentionedB.key = "N.B" ∧
      (inCircle.view.baseChain inCircle.owner).length = 16 ∧
      inCircle.findMember inCircle.owner "Run" none none = some (memberRef mentionedB run) := by
  obtain ⟨hfound, -, hcycle, hmember⟩ := lookups_agree consistent_inCircle
  have hfind : inCircle.view.find? "N.B" = some mentionedB := rfl
  have hself : inCircle.view.nthBase inCircle.owner 0 = some inCircle.owner := rfl
  have hnext : inCircle.view.nthBase inCircle.owner 1 = some mentionedB := baseOf?_typeA
  have hback : inCircle.view.nthBase inCircle.owner 2 = some inCircle.owner := by
    rw [Viewpoint.nthBase, hnext]
    rfl
  refine ⟨consistent_inCircle, hfind, (hfound "N.B" mentionedB hfind).1,
    hcycle inCircle.owner inCircle.owner 0 2 (by decide) hself hback, ?_⟩
  refine ((hmember inCircle.owner "Run" none none).1 _).mpr
    ⟨1, mentionedB, typeB, run, ⟨by decide, hnext, rfl⟩, List.mem_singleton_self run, rfl, rfl, ?_⟩
  rintro j hj nearer d ⟨-, hreached, hdefined⟩
  obtain rfl : j = 0 := by omega
  obtain rfl := Option.some.inj (hself.symm.trans hreached)
  have hA : inCircle.view.definition? inCircle.owner = some typeA := rfl
  obtain rfl := Option.some.inj (hA.symm.trans hdefined)
  rfl

end BodyPlace

end CSharp

end CodeGraph
