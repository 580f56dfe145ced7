import CodeGraph.Proofs.CSharp.Resolved

namespace CodeGraph

/-!
# Handles of types that are looked up

A type that is looked up by name has a handle only when the module itself declares it, and then that of
its declaration. Types that another module offers as known keep the handles that they have there.
-/

/-! ## Types in types -/

namespace TypeRef

/-- A named type stands in a type, as itself or among its arguments. -/
inductive Has : TypeRef → NamedType → Prop
  | self (n : NamedType) : Has (.named n) n
  | arg {n m : NamedType} {a : TypeRef} (ha : a ∈ n.args) (h : Has a m) : Has (.named n) m
  | array {t : TypeRef} {n : NamedType} (h : Has t n) : Has (.array t) n
  | pointer {t : TypeRef} {n : NamedType} (h : Has t n) : Has (.pointer t) n
  | byRef {t : TypeRef} {n : NamedType} (h : Has t n) : Has (.byRef t) n

/-- All named types in a type have a property. -/
def Each (p : NamedType → Prop) (t : TypeRef) : Prop :=
  ∀ n, t.Has n → p n

section Each

variable {p q : NamedType → Prop} {t : TypeRef} {n : NamedType}

theorem each_named : (named n).Each p ↔ p n ∧ ∀ a ∈ n.args, a.Each p := by
  constructor
  · intro h
    exact ⟨h n (.self n), fun a ha m hm => h m (.arg ha hm)⟩
  · rintro ⟨hself, hargs⟩ m hm
    cases hm with
    | self => exact hself
    | arg ha h => exact hargs _ ha m h

theorem each_array : (array t).Each p ↔ t.Each p := by
  constructor
  · exact fun h n hn => h n (.array hn)
  · rintro h n ⟨⟩
    exact h n ‹_›

theorem each_pointer : (pointer t).Each p ↔ t.Each p := by
  constructor
  · exact fun h n hn => h n (.pointer hn)
  · rintro h n ⟨⟩
    exact h n ‹_›

theorem each_byRef : (byRef t).Each p ↔ t.Each p := by
  constructor
  · exact fun h n hn => h n (.byRef hn)
  · rintro h n ⟨⟩
    exact h n ‹_›

theorem each_param (name : String) : (param name).Each p :=
  fun _ h => nomatch h

theorem Each.mono (hpq : ∀ n, p n → q n) (h : t.Each p) : t.Each q :=
  fun n hn => hpq n (h n hn)

theorem Each.asNamed? : ∀ {t : TypeRef}, t.Each p → t.asNamed? = some n → (named n).Each p
  | named _, h, hn => by
      obtain rfl := Option.some.inj hn
      exact h
  | array _, h, hn => Each.asNamed? (each_array.mp h) hn
  | pointer _, h, hn => Each.asNamed? (each_pointer.mp h) hn
  | byRef _, h, hn => Each.asNamed? (each_byRef.mp h) hn

end Each

end TypeRef

/-! ## What modules offer as known -/

/-- A base or a member's value that is not written out. -/
def ExportedType.Offers (t : ExportedType) (type : TypeRef) : Prop :=
  t.base = some (.resolved type) ∨ ∃ m ∈ t.members, m.value = some (.resolved type)

/-- Some module of the index offers a type in which the named type stands. -/
def ExportIndex.Offers (i : ExportIndex) (n : NamedType) : Prop :=
  ∃ owner table key t type, i.table? owner = some table ∧ table.types.get? key = some t ∧
    t.Offers type ∧ type.Has n

/-- The index has a table under its owner's name, and all others under theirs. -/
structure ExportIndex.Holds (i : ExportIndex) (e : Exports) : Prop where
  own : i.table? e.owner = some e
  owner_eq : ∀ owner table, i.table? owner = some table → table.owner = owner

theorem ExportIndex.owner_eq_empty (owner : String) (table : Exports)
    (h : ExportIndex.empty.table? owner = some table) : table.owner = owner := by
  cases h

/-- A table that is entered last is held. -/
theorem ExportIndex.holds_add {i : ExportIndex}
    (h : ∀ owner table, i.table? owner = some table → table.owner = owner) (e : Exports)
    (references : List String) : (i.add e references).Holds e where
  own := by rw [table?, add, Dict.get?_insert, if_pos rfl]
  owner_eq owner table htable := by
    rw [table?, add, Dict.get?_insert] at htable
    split at htable
    · next howner =>
        obtain rfl := Option.some.inj htable
        exact howner.symm
    · exact h owner table htable

/-- No key stands twice in the table, and each is that of its type. -/
structure Exports.Orderly (e : Exports) : Prop where
  nodup : e.types.keys.Nodup
  key_eq : ∀ key t, (key, t) ∈ e.types.entries → key = exportKey t.ns t.nesting

theorem Exports.Orderly.get?_iff {e : Exports} (he : e.Orderly) {key : String} {t : ExportedType} :
    e.types.get? key = some t ↔ (key, t) ∈ e.types.entries :=
  Dict.get?_eq_some_iff he.nodup

namespace CSharp.Viewpoint

variable {v : Viewpoint}

/-- The module's own type under its key, with its own handle. -/
structure IsOwn (v : Viewpoint) (n : NamedType) (t : ExportedType) : Prop where
  entry : v.own.types.get? n.key = some t
  owner : n.owner = some v.own.owner
  ns : n.ns = t.ns
  nesting : n.nesting = t.nesting
  handle : n.handle = some t.id

/-- A type has a handle only as one of the module's own. -/
def Located (v : Viewpoint) (n : NamedType) : Prop :=
  n.handle = none ∨ ∃ t, v.IsOwn n t

theorem Located.args {n : NamedType} (h : v.Located n) (args : List TypeRef) :
    v.Located { n with args } := by
  rcases h with h | ⟨t, ht⟩
  · exact .inl h
  · exact .inr ⟨t, ht.entry, ht.owner, ht.ns, ht.nesting, ht.handle⟩

theorem located_placeholder (v : Viewpoint) (raws : List String) : v.Located (v.placeholder raws) :=
  .inl rfl

theorem handle_mention {owner : String} (howner : owner ≠ v.own.owner) (t : ExportedType) :
    (v.mention owner t).handle = none :=
  if_neg howner

/-- The module's table is in order, and the index has it. -/
structure Registered (v : Viewpoint) : Prop where
  own : v.own.Orderly
  index : v.index.Holds v.own

theorem Registered.isOwn_mention (hv : v.Registered) {key : String} {t : ExportedType}
    (ht : v.own.types.get? key = some t) : v.IsOwn (v.mention v.own.owner t) t := by
  have hkey := hv.own.key_eq key t (hv.own.get?_iff.mp ht)
  rw [hkey] at ht
  exact ⟨ht, rfl, rfl, rfl, if_pos rfl⟩

section Lookup

variable {followAlias : String → Option TypeRef} {scope : Scope} (hv : v.Registered)
  (hfollow : ∀ target t, followAlias target = some t → t.Each v.Located)

include hv

theorem located_find? {key : String} {n : NamedType} (h : v.find? key = some n) : v.Located n := by
  rw [find?] at h
  split at h
  · next t ht =>
      obtain rfl := Option.some.inj h
      exact .inr ⟨t, hv.isOwn_mention ht⟩
  · next hnone =>
      obtain ⟨⟨owner, t⟩, hfound, rfl⟩ := Option.map_eq_some_iff.mp h
      obtain ⟨table, htable, hget⟩ := List.exists_of_findSome?_eq_some hfound
      obtain ⟨other, -, hother⟩ := List.mem_filterMap.mp htable
      obtain ⟨t', ht', heq⟩ := Option.map_eq_some_iff.mp hget
      obtain ⟨rfl, rfl⟩ := Prod.mk.inj heq
      apply Or.inl
      apply handle_mention
      -- the module's own table was asked before
      intro howner
      have hsame : other = v.own.owner := (hv.index.owner_eq other table hother).symm.trans howner
      rw [hsame] at hother
      obtain rfl := Option.some.inj (hother.symm.trans hv.index.own)
      cases hnone.symm.trans ht'

theorem located_findSome? {α : Type} {keys : List α} {key : α → String} {n : NamedType}
    (h : keys.findSome? (fun a => v.find? (key a)) = some n) : v.Located n := by
  obtain ⟨a, -, ha⟩ := List.exists_of_findSome?_eq_some h
  exact located_find? hv ha

include hfollow

theorem located_lookupSimple {name : String} {n : NamedType}
    (h : v.lookupSimple followAlias scope name = some n) : v.Located n := by
  rcases lookupSimple_cases h with h | ⟨-, target, -, hnamed, -⟩ | h
  · rcases Option.or_eq_some_iff.mp h with h | ⟨-, h⟩ <;> exact located_findSome? hv h
  · obtain ⟨t, ht, hn⟩ := Option.bind_eq_some_iff.mp hnamed
    exact (TypeRef.each_named.mp ((hfollow target t ht).asNamed? hn)).1
  · exact located_findSome? hv h

theorem located_lookupQualified {first : String} {rest : List String} {n : NamedType}
    (h : v.lookupQualified followAlias scope first rest = some n) : v.Located n := by
  rw [lookupQualified_eq, Option.or_eq_some_iff, Option.or_eq_some_iff] at h
  rcases h with (h | ⟨-, h⟩) | ⟨-, h⟩
  · exact located_find? hv h
  · exact located_findSome? hv h
  · -- what is found last is found by a key, unless the first part is all there is
    rcases List.eq_nil_or_concat rest with rfl | ⟨before, last, rfl⟩
    · exact located_lookupSimple hv hfollow h
    · rw [List.concat_eq_append, List.foldl_append, List.foldl_cons, List.foldl_nil] at h
      obtain ⟨outer, -, hfind⟩ := Option.bind_eq_some_iff.mp h
      exact located_find? hv hfind

theorem located_lookup (names : List String) : v.Located (v.lookup followAlias scope names) := by
  match names with
  | [] => exact located_placeholder v []
  | [single] =>
      rw [lookup]
      cases hsimple : v.lookupSimple followAlias scope single with
      | none => exact located_placeholder v [single]
      | some n => exact located_lookupSimple hv hfollow hsimple
  | first :: second :: rest =>
      rw [lookup]
      · cases hqualified : v.lookupQualified followAlias scope first (second :: rest) with
        | none => exact located_placeholder v _
        | some n => exact located_lookupQualified hv hfollow hqualified
      · simp

end Lookup

mutual

theorem located_resolveWith {followAlias : String → Option TypeRef} {scope : Scope} (hv : v.Registered)
    (hfollow : ∀ target t, followAlias target = some t → t.Each v.Located) (w : WrittenType) {t : TypeRef}
    (h : v.resolveWith followAlias scope w = some t) : t.Each v.Located := by
  cases w with
  | inferred => cases h
  | keyword name =>
      obtain rfl := Option.some.inj h
      exact TypeRef.each_named.mpr ⟨.inl rfl, List.forall_mem_nil _⟩
  | array w =>
      obtain ⟨t, ht, rfl⟩ := Option.map_eq_some_iff.mp h
      exact TypeRef.each_array.mpr (located_resolveWith hv hfollow w ht)
  | pointer w =>
      obtain ⟨t, ht, rfl⟩ := Option.map_eq_some_iff.mp h
      exact TypeRef.each_pointer.mpr (located_resolveWith hv hfollow w ht)
  | byRef w =>
      obtain ⟨t, ht, rfl⟩ := Option.map_eq_some_iff.mp h
      exact TypeRef.each_byRef.mpr (located_resolveWith hv hfollow w ht)
  | tuple elements =>
      obtain ⟨args, hargs, heq⟩ := Option.bind_eq_some_iff.mp h
      obtain rfl := Option.some.inj heq
      exact TypeRef.each_named.mpr ⟨.inl rfl, located_resolveAll hv hfollow elements hargs⟩
  | named segments =>
      rw [resolveWith] at h
      split at h
      · obtain rfl := Option.some.inj h
        exact TypeRef.each_param _
      · obtain ⟨args, hargs, heq⟩ := Option.bind_eq_some_iff.mp h
        obtain rfl := Option.some.inj heq
        have hname : v.Located (v.lookup followAlias scope (segments.map (·.raw))) :=
          located_lookup hv hfollow _
        exact TypeRef.each_named.mpr ⟨hname.args args, located_resolveLast hv hfollow segments hargs⟩

theorem located_resolveAll {followAlias : String → Option TypeRef} {scope : Scope} (hv : v.Registered)
    (hfollow : ∀ target t, followAlias target = some t → t.Each v.Located) (ws : List WrittenType)
    {ts : List TypeRef} (h : v.resolveAll followAlias scope ws = some ts) : ∀ t ∈ ts, t.Each v.Located := by
  cases ws with
  | nil =>
      obtain rfl := Option.some.inj h
      exact List.forall_mem_nil _
  | cons w ws =>
      simp only [resolveAll, Option.bind_eq_bind, Option.bind_eq_some_iff, Option.pure_def] at h
      obtain ⟨t, ht, ts', hts, heq⟩ := h
      obtain rfl := Option.some.inj heq
      exact List.forall_mem_cons.mpr
        ⟨located_resolveWith hv hfollow w ht, located_resolveAll hv hfollow ws hts⟩

theorem located_resolveLast {followAlias : String → Option TypeRef} {scope : Scope} (hv : v.Registered)
    (hfollow : ∀ target t, followAlias target = some t → t.Each v.Located)
    (segments : List (Segment WrittenType)) {ts : List TypeRef}
    (h : v.resolveLast followAlias scope segments = some ts) : ∀ t ∈ ts, t.Each v.Located := by
  match segments with
  | [] => cases h
  | [⟨_, args⟩] => exact located_resolveAll hv hfollow args h
  | _ :: second :: more => exact located_resolveLast hv hfollow (second :: more) h

end

theorem located_followAlias (hv : v.Registered) (owner target : String) {t : TypeRef}
    (h : v.followAlias owner target = some t) : t.Each v.Located := by
  obtain ⟨w, -, hw⟩ := Option.bind_eq_some_iff.mp h
  apply located_resolveWith hv _ w hw
  intro _ _ hnone
  cases hnone

theorem located_resolve (hv : v.Registered) {scope : Scope} {text : String} {t : TypeRef}
    (h : v.resolve scope text = some t) : t.Each v.Located := by
  obtain ⟨w, -, hw⟩ := Option.bind_eq_some_iff.mp h
  exact located_resolveWith hv (fun target _ => located_followAlias hv scope.owner target) w hw

theorem each_find? (hv : v.Registered) {key : String} {n : NamedType} (h : v.find? key = some n) :
    (TypeRef.named n).Each v.Located := by
  have hargs : n.args = [] := by
    rw [find?] at h
    split at h
    · obtain rfl := Option.some.inj h
      rfl
    · obtain ⟨_, -, rfl⟩ := Option.map_eq_some_iff.mp h
      rfl
  rw [TypeRef.each_named, hargs]
  exact ⟨located_find? hv h, List.forall_mem_nil _⟩

/-! ## Definitions and bases -/

/-- A type has a handle only as one of the module's own, or as something that is offered as known. -/
def Traced (v : Viewpoint) (n : NamedType) : Prop :=
  v.Located n ∨ v.index.Offers n

theorem traced_of_located {t : TypeRef} (h : t.Each v.Located) : t.Each v.Traced :=
  h.mono fun _ => Or.inl

theorem IsOwn.definition?_eq {n : NamedType} {t : ExportedType} (h : v.IsOwn n t) :
    v.definition? n = some t := by
  rw [definition?, h.owner]
  dsimp only
  rw [if_pos rfl, h.entry]

/-- A definition is an entry of some table of the index. -/
theorem exists_table_of_definition? (hv : v.Registered) {n : NamedType} {d : ExportedType}
    (h : v.definition? n = some d) :
    ∃ owner table, v.index.table? owner = some table ∧ table.types.get? n.key = some d := by
  rw [definition?] at h
  split at h
  · cases h
  · next owner _ =>
      split at h
      · exact ⟨_, v.own, hv.index.own, h⟩
      · obtain ⟨table, htable, hd⟩ := Option.bind_eq_some_iff.mp h
        exact ⟨owner, table, htable, hd⟩

theorem traced_of_offers (hv : v.Registered) {n : NamedType} {d : ExportedType}
    (hd : v.definition? n = some d) {t : TypeRef} (h : d.Offers t) : t.Each v.Traced := by
  obtain ⟨owner, table, htable, hentry⟩ := exists_table_of_definition? hv hd
  exact fun m hm => .inr ⟨owner, table, n.key, d, t, htable, hentry, h, hm⟩

theorem traced_resolveSource (hv : v.Registered) {source : TypeSource} {t : TypeRef}
    (hoffered : ∀ type, source = .resolved type → type.Each v.Traced)
    (h : v.resolveSource source = some t) : t.Each v.Traced := by
  cases source with
  | resolved type =>
      obtain rfl := Option.some.inj h
      exact hoffered type rfl
  | written text scope => exact traced_of_located (located_resolve hv h)

theorem traced_basesUpTo (hv : v.Registered) (more : Nat) {n : NamedType}
    (hn : (TypeRef.named n).Each v.Traced) :
    ∀ entry ∈ v.basesUpTo more n,
      (TypeRef.named entry.1).Each v.Traced ∧ v.definition? entry.1 = some entry.2 := by
  induction more generalizing n with
  | zero => exact List.forall_mem_nil _
  | succ more ih =>
      rw [basesUpTo]
      split
      · exact List.forall_mem_nil _
      · next d hd =>
          rw [List.forall_mem_cons]
          refine ⟨⟨hn, hd⟩, ?_⟩
          split
          · next base hbase =>
              obtain ⟨t, ht, hnamed⟩ := Option.bind_eq_some_iff.mp hbase
              obtain ⟨source, hsource, ht⟩ := Option.bind_eq_some_iff.mp ht
              have hoffered : ∀ type, source = .resolved type → type.Each v.Traced := by
                rintro type rfl
                exact traced_of_offers hv hd (.inl hsource)
              exact ih ((traced_resolveSource hv hoffered ht).asNamed? hnamed)
          · exact List.forall_mem_nil _

/-- Extension methods stand in types of the module itself, or in types without a handle. -/
theorem mem_extensionMethods (hv : v.Registered) {scope : Scope} {name : String} {n : NamedType}
    {m : ExportedMember} (h : (n, m) ∈ v.extensionMethods scope name) :
    n.args = [] ∧ (n.handle = none ∨ ∃ t, v.IsOwn n t ∧ m ∈ t.members) := by
  rcases List.mem_append.mp h with h | h
  · obtain ⟨⟨t, m'⟩, ht, heq⟩ := List.mem_map.mp h
    obtain ⟨rfl, rfl⟩ := Prod.mk.inj heq
    obtain ⟨t', ht', hm⟩ := List.mem_flatMap.mp ht
    obtain ⟨m'', hm'', heq⟩ := List.mem_map.mp hm
    obtain ⟨rfl, rfl⟩ := Prod.mk.inj heq
    obtain ⟨⟨key, _⟩, hentry, rfl⟩ := List.mem_map.mp (List.mem_filter.mp ht').1
    have hown := hv.isOwn_mention (hv.own.get?_iff.mpr hentry)
    exact ⟨rfl, .inr ⟨_, hown, (List.mem_filter.mp (List.mem_filter.mp hm'').1).1⟩⟩
  · obtain ⟨⟨owner, t, m'⟩, ht, heq⟩ := List.mem_map.mp h
    obtain ⟨rfl, rfl⟩ := Prod.mk.inj heq
    have howner : owner ≠ v.own.owner := by simpa using (List.mem_filter.mp ht).2
    exact ⟨rfl, .inl (handle_mention howner t)⟩

end CSharp.Viewpoint

end CodeGraph
