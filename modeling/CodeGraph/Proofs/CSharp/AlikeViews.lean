import CodeGraph.Proofs.CSharp.Resolved

namespace CodeGraph

/-!
# Viewpoints that see the same types

What a name means does not depend on the numbers that types have in their modules. Two viewpoints that
see types of the same keys, in the same places, take a written type for the same type, but for the handles
in it.
-/

/-! ## Types without handles -/

namespace TypeRef

mutual

/-- The type without the handles in it. -/
def bare : TypeRef → TypeRef
  | named type => named (bareNamed type)
  | array element => array (bare element)
  | pointer target => pointer (bare target)
  | byRef target => byRef (bare target)
  | param name => param name

def bareNamed : NamedType → NamedType
  | ⟨owner, ns, nesting, args, _⟩ => ⟨owner, ns, nesting, bareAll args, none⟩

def bareAll : List TypeRef → List TypeRef
  | [] => []
  | type :: more => bare type :: bareAll more

end

theorem asNamed?_bare : ∀ t : TypeRef, t.bare.asNamed? = t.asNamed?.map bareNamed
  | named _ => rfl
  | array t => asNamed?_bare t
  | pointer t => asNamed?_bare t
  | byRef t => asNamed?_bare t
  | param _ => rfl

end TypeRef

/-- Where a type stands. -/
def Named.site {α : Type} (t : Named α) : Option String × String × List String :=
  (t.owner, t.ns, t.nesting)

namespace TypeRef

theorem site_bareNamed (t : NamedType) : (bareNamed t).site = t.site := by
  obtain ⟨owner, ns, nesting, args, handle⟩ := t
  rfl

/-- A name with arguments is known by where it stands and by its arguments. -/
theorem bare_named {t t' : NamedType} {args args' : List TypeRef} (hsite : t'.site = t.site)
    (hargs : bareAll args' = bareAll args) :
    (named { t' with args := args' }).bare = (named { t with args }).bare := by
  obtain ⟨howner, hns, hnesting⟩ : t'.owner = t.owner ∧ t'.ns = t.ns ∧ t'.nesting = t.nesting := by
    simpa [Named.site] using hsite
  simp only [bare, bareNamed, howner, hns, hnesting, hargs]

theorem key_of_site {t t' : NamedType} (h : t'.site = t.site) : t'.key = t.key := by
  have hns : t'.ns = t.ns := congrArg (·.2.1) h
  have hnesting : t'.nesting = t.nesting := congrArg (·.2.2) h
  rw [Named.key, Named.key, hns, hnesting]

end TypeRef

/-! ## Alike tables -/

/-- What lookups see of an exported type. -/
def ExportedType.face (t : ExportedType) : String × List String × Bool :=
  (t.ns, t.nesting, t.isInterface)

/-- Tables with types of the same keys. -/
structure Exports.Alike (e e' : Exports) : Prop where
  owner : e'.owner = e.owner
  types : ∀ key, (e'.types.get? key).map (·.face) = (e.types.get? key).map (·.face)

/-- The second index has one table in the place of another one, and is like the first in all else. -/
structure ExportIndex.Swaps (i i' : ExportIndex) (e e' : Exports) : Prop where
  references : ∀ owner, i'.references.get? owner = i.references.get? owner
  own : i.tables.get? e.owner = some e
  own' : i'.tables.get? e.owner = some e'
  others : ∀ owner, owner ≠ e.owner → i'.tables.get? owner = i.tables.get? owner

theorem ExportIndex.swaps_add (i : ExportIndex) {e e' : Exports} (h : e'.owner = e.owner)
    (references : List String) : (i.add e references).Swaps (i.add e' references) e e' where
  references owner := by rw [add, add, h]
  own := by rw [add, Dict.get?_insert, if_pos rfl]
  own' := by rw [add, h, Dict.get?_insert, if_pos rfl]
  others owner howner := by
    rw [add, add, h, Dict.get?_insert, Dict.get?_insert, if_neg howner, if_neg howner]

section Swaps

variable {i i' : ExportIndex} {e e' : Exports} (h : i.Swaps i' e e') (he : e.Alike e')

include h

theorem ExportIndex.Swaps.get? (owner : String) :
    i'.tables.get? owner = i.tables.get? owner ∨
      (i.tables.get? owner = some e ∧ i'.tables.get? owner = some e') := by
  by_cases howner : owner = e.owner
  · subst howner
    exact .inr ⟨h.own, h.own'⟩
  · exact .inl (h.others owner howner)

include he

theorem ExportIndex.Swaps.face_find? (owner key : String) :
    (i'.find? owner key).map (fun t => (t.1, t.2.face)) =
      (i.find? owner key).map (fun t => (t.1, t.2.face)) := by
  unfold ExportIndex.find? ExportIndex.visibleFrom
  rw [h.references]
  generalize owner :: (i.references.get? owner).getD [] = owners
  induction owners with
  | nil => rfl
  | cons owner owners ih =>
      rcases h.get? owner with hsame | ⟨hbefore, hafter⟩
      · rw [List.filterMap_cons, List.filterMap_cons, hsame]
        cases i.tables.get? owner with
        | none => exact ih
        | some table =>
            cases hfound : table.types.get? key <;> simp [hfound, ih]
      · rw [List.filterMap_cons_some hafter, List.filterMap_cons_some hbefore]
        have hface := he.types key
        cases hfound : e.types.get? key <;> cases hfound' : e'.types.get? key <;>
          simp_all [he.owner]

theorem ExportIndex.Swaps.face_typeIn? (owner key : String) :
    (i'.typeIn? owner key).map (·.face) = (i.typeIn? owner key).map (·.face) := by
  unfold ExportIndex.typeIn?
  rcases h.get? owner with hsame | ⟨hbefore, hafter⟩
  · rw [hsame]
  · rw [hbefore, hafter]
    exact he.types key

end Swaps

namespace CSharp.Viewpoint

variable {v v' : Viewpoint}

/-- Both viewpoints see types of the same keys in the same tables. -/
structure Alike (v v' : Viewpoint) : Prop where
  references : v'.references = v.references
  own : v.own.Alike v'.own
  others : ∀ key, (v'.index.find? v'.own.owner key).map (fun t => (t.1, t.2.face)) =
    (v.index.find? v.own.owner key).map (fun t => (t.1, t.2.face))
  typeIn : ∀ owner key,
    (v'.index.typeIn? owner key).map (·.face) = (v.index.typeIn? owner key).map (·.face)

/-- Every module sees the same types, whichever of the two tables is in the index. -/
theorem alike_of_swaps {i i' : ExportIndex} {e e' : Exports} (hindex : i.Swaps i' e e') (he : e.Alike e')
    {own own' : Exports} (hown : own.Alike own') (references : List String) :
    Alike ⟨i, own, references⟩ ⟨i', own', references⟩ where
  references := rfl
  own := hown
  others key := by
    rw [hown.owner]
    exact hindex.face_find? he own.owner key
  typeIn := hindex.face_typeIn? he

/-! ## Lookups -/

section Lookup

variable (h : v.Alike v') {scope : Scope} {followAlias followAlias' : String → Option TypeRef}
  (hfollow : ∀ target, (followAlias' target).map TypeRef.bare = (followAlias target).map TypeRef.bare)

include h

theorem site_find? (key : String) : (v'.find? key).map (·.site) = (v.find? key).map (·.site) := by
  have hown := h.own.types key
  unfold find?
  cases hfound : v.own.types.get? key with
  | none =>
      rw [hfound, Option.map_none, Option.map_eq_none_iff] at hown
      rw [hown]
      have hothers := h.others key
      dsimp only
      cases hother : v.index.find? v.own.owner key <;> cases hother' : v'.index.find? v'.own.owner key <;>
        simp_all [mention, Named.site, ExportedType.face]
  | some t =>
      rw [hfound] at hown
      obtain ⟨t', hfound', hface⟩ := Option.map_eq_some_iff.mp hown
      rw [hfound']
      simp_all [mention, Named.site, ExportedType.face, h.own.owner]

theorem site_findSome? {α : Type} (keys : List α) (key : α → String) :
    (keys.findSome? fun a => v'.find? (key a)).map (·.site) =
      (keys.findSome? fun a => v.find? (key a)).map (·.site) := by
  rw [List.map_findSome?, List.map_findSome?]
  congr 1
  funext a
  exact site_find? h (key a)

theorem site_around? (name : String) :
    (v'.around? scope name).map (·.site) = (v.around? scope name).map (·.site) := by
  rw [around?, around?, Option.map_or, Option.map_or, site_findSome? h, site_findSome? h]

omit h in
/-- Of an alias, too, only the place counts. -/
theorem site_followed (t : Option TypeRef) :
    (t.bind (·.asNamed?.filter (·.owner.isSome))).map (·.site) =
      ((t.map TypeRef.bare).bind (·.asNamed?.filter (·.owner.isSome))).map (·.site) := by
  cases t with
  | none => rfl
  | some t =>
      rw [Option.map_some, Option.bind_some, Option.bind_some, TypeRef.asNamed?_bare]
      cases t.asNamed? with
      | none => rfl
      | some n =>
          have howner : (TypeRef.bareNamed n).owner = n.owner :=
            congrArg Prod.fst (TypeRef.site_bareNamed n)
          by_cases hn : n.owner.isSome = true
          · simp [Option.filter, howner, hn, TypeRef.site_bareNamed]
          · simp [Option.filter, howner, hn]

include hfollow

theorem site_lookupSimple (name : String) :
    (v'.lookupSimple followAlias' scope name).map (·.site) =
      (v.lookupSimple followAlias scope name).map (·.site) := by
  have haround : (v'.around? scope name).map (·.site) = (v.around? scope name).map (·.site) :=
    site_around? h name
  rw [lookupSimple, lookupSimple, ← around?, ← around?]
  cases hfound : v.around? scope name with
  | some t =>
      rw [hfound] at haround
      obtain ⟨t', hfound', hsite⟩ := Option.map_eq_some_iff.mp haround
      rw [hfound']
      exact congrArg some hsite
  | none =>
      rw [hfound, Option.map_none, Option.map_eq_none_iff] at haround
      rw [haround]
      cases scope.aliases.lookup name with
      | some target =>
          exact (site_followed _).trans (by rw [hfollow, ← site_followed])
      | none => exact site_findSome? h scope.usings (Name.join · name)

theorem site_lookupQualified (first : String) (rest : List String) :
    (v'.lookupQualified followAlias' scope first rest).map (·.site) =
      (v.lookupQualified followAlias scope first rest).map (·.site) := by
  have hrest : ∀ t t' : Option NamedType, t'.map (·.site) = t.map (·.site) →
      (rest.foldl (fun t name => t.bind fun t => v'.find? (t.key ++ "." ++ name)) t').map (·.site) =
        (rest.foldl (fun t name => t.bind fun t => v.find? (t.key ++ "." ++ name)) t).map (·.site) := by
    induction rest with
    | nil => exact fun t t' ht => ht
    | cons name rest ih =>
        intro t t' ht
        apply ih
        cases t with
        | none =>
            rw [Option.map_none, Option.map_eq_none_iff] at ht
            rw [ht]
            rfl
        | some t =>
            obtain ⟨n, rfl, hsite⟩ := Option.map_eq_some_iff.mp ht
            dsimp only [Option.bind_some] at hsite ⊢
            rw [TypeRef.key_of_site hsite]
            exact site_find? h _
  rw [lookupQualified_eq, lookupQualified_eq]
  simp only [Option.map_or]
  rw [site_find? h, site_findSome? h, hrest _ _ (site_lookupSimple h hfollow first)]

theorem site_lookup (names : List String) :
    (v'.lookup followAlias' scope names).site = (v.lookup followAlias scope names).site := by
  have hplaceholder : ∀ raws, v'.placeholder raws = v.placeholder raws := by
    intro raws
    rw [placeholder, placeholder, h.references]
  have hgetD : ∀ {t t' : Option NamedType} (raws : List String), t'.map (·.site) = t.map (·.site) →
      (t'.getD (v'.placeholder raws)).site = (t.getD (v.placeholder raws)).site := by
    intro t t' raws ht
    rw [hplaceholder]
    cases t <;> cases t' <;> simp_all
  rcases names with _ | ⟨first, _ | ⟨second, rest⟩⟩
  · rw [lookup, lookup, hplaceholder]
  · exact hgetD [first] (site_lookupSimple h hfollow first)
  · exact hgetD _ (site_lookupQualified h hfollow first (second :: rest))

end Lookup

theorem bare_wrapped (wrap : TypeRef → TypeRef) (hwrap : ∀ t, (wrap t).bare = wrap t.bare)
    {t t' : Option TypeRef} (ht : t'.map TypeRef.bare = t.map TypeRef.bare) :
    (t'.map wrap).map TypeRef.bare = (t.map wrap).map TypeRef.bare := by
  have hswap : ∀ o : Option TypeRef, (o.map wrap).map TypeRef.bare = (o.map TypeRef.bare).map wrap := by
    intro o
    cases o <;> simp [hwrap]
  rw [hswap, hswap, ht]

theorem bare_applied {t t' : NamedType} (hsite : t'.site = t.site) {args args' : Option (List TypeRef)}
    (hargs : args'.map TypeRef.bareAll = args.map TypeRef.bareAll) :
    (args'.bind fun args => some (.named { t' with args })).map TypeRef.bare =
      (args.bind fun args => some (.named { t with args })).map TypeRef.bare := by
  cases args with
  | none =>
      rw [Option.map_none, Option.map_eq_none_iff] at hargs
      rw [hargs]
      rfl
  | some l =>
      obtain ⟨l', rfl, hl⟩ := Option.map_eq_some_iff.mp hargs
      exact congrArg some (TypeRef.bare_named hsite hl)

mutual

theorem bare_resolveWith {followAlias followAlias' : String → Option TypeRef} {scope : Scope}
    (h : v.Alike v')
    (hfollow : ∀ target, (followAlias' target).map TypeRef.bare = (followAlias target).map TypeRef.bare)
    (w : WrittenType) :
    (v'.resolveWith followAlias' scope w).map TypeRef.bare =
      (v.resolveWith followAlias scope w).map TypeRef.bare := by
  cases w with
  | inferred => rfl
  | keyword name => rfl
  | array w => exact bare_wrapped .array (fun _ => rfl) (bare_resolveWith h hfollow w)
  | pointer w => exact bare_wrapped .pointer (fun _ => rfl) (bare_resolveWith h hfollow w)
  | byRef w => exact bare_wrapped .byRef (fun _ => rfl) (bare_resolveWith h hfollow w)
  | tuple elements => exact bare_applied rfl (bare_resolveAll h hfollow elements)
  | named segments =>
      rw [resolveWith, resolveWith]
      split
      · rfl
      · exact bare_applied (site_lookup h hfollow _) (bare_resolveLast h hfollow segments)

theorem bare_resolveAll {followAlias followAlias' : String → Option TypeRef} {scope : Scope}
    (h : v.Alike v')
    (hfollow : ∀ target, (followAlias' target).map TypeRef.bare = (followAlias target).map TypeRef.bare)
    (ws : List WrittenType) :
    (v'.resolveAll followAlias' scope ws).map TypeRef.bareAll =
      (v.resolveAll followAlias scope ws).map TypeRef.bareAll := by
  cases ws with
  | nil => rfl
  | cons w ws =>
      have hfirst : (v'.resolveWith followAlias' scope w).map TypeRef.bare =
          (v.resolveWith followAlias scope w).map TypeRef.bare := bare_resolveWith h hfollow w
      have hmore : (v'.resolveAll followAlias' scope ws).map TypeRef.bareAll =
          (v.resolveAll followAlias scope ws).map TypeRef.bareAll := bare_resolveAll h hfollow ws
      rw [resolveAll, resolveAll]
      cases hw : v.resolveWith followAlias scope w <;> cases hw' : v'.resolveWith followAlias' scope w <;>
        cases hws : v.resolveAll followAlias scope ws <;> cases hws' : v'.resolveAll followAlias' scope ws <;>
        simp_all [TypeRef.bareAll]

theorem bare_resolveLast {followAlias followAlias' : String → Option TypeRef} {scope : Scope}
    (h : v.Alike v')
    (hfollow : ∀ target, (followAlias' target).map TypeRef.bare = (followAlias target).map TypeRef.bare)
    (segments : List (Segment WrittenType)) :
    (v'.resolveLast followAlias' scope segments).map TypeRef.bareAll =
      (v.resolveLast followAlias scope segments).map TypeRef.bareAll := by
  match segments with
  | [] => rfl
  | [⟨_, args⟩] => exact bare_resolveAll h hfollow args
  | _ :: second :: more => exact bare_resolveLast h hfollow (second :: more)

end

theorem bare_followAlias (h : v.Alike v') (owner target : String) :
    (v'.followAlias owner target).map TypeRef.bare = (v.followAlias owner target).map TypeRef.bare := by
  unfold followAlias
  cases WrittenType.parse? target with
  | none => rfl
  | some w => exact bare_resolveWith h (fun _ => rfl) w

/-- Alike viewpoints take a text for the same type. -/
theorem bare_resolve (h : v.Alike v') (scope : Scope) (text : String) :
    (v'.resolve scope text).map TypeRef.bare = (v.resolve scope text).map TypeRef.bare := by
  unfold resolve
  cases WrittenType.parse? text with
  | none => rfl
  | some w => exact bare_resolveWith h (bare_followAlias h scope.owner) w

theorem face_definition? (h : v.Alike v') {t t' : NamedType} (hsite : t'.site = t.site) :
    (v'.definition? t').map (·.face) = (v.definition? t).map (·.face) := by
  have howner : t'.owner = t.owner := congrArg Prod.fst hsite
  unfold definition?
  rw [howner, TypeRef.key_of_site hsite, h.own.owner]
  cases t.owner with
  | none => rfl
  | some owner =>
      dsimp only
      split
      · exact h.own.types t.key
      · exact h.typeIn owner t.key

end CSharp.Viewpoint

end CodeGraph
