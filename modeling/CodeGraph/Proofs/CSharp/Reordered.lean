import CodeGraph.Proofs.CSharp.AlikeViews
import CodeGraph.Proofs.CSharp.BodyHandles
import CodeGraph.Proofs.CSharp.Parts
import CodeGraph.Proofs.Results

namespace CodeGraph.CSharp

/-!
# Source files in another order

The files of a module may be read in any order: the types stand in the same places, and names mean the
same. What a type extends is decided by the first base of the part that is read first, so that it is
the same in all orders where the parts agree on what they begin with.
-/

/-! ## What bases mean -/

namespace Viewpoint

variable {v v' : Viewpoint}

/-- The type that a written base means, without handles. -/
def means (v : Viewpoint) (b : String × Scope) : Option TypeRef :=
  (v.resolve b.2 b.1).map TypeRef.bare

/-- The type is an interface, or is taken for one. -/
def isInterface (v : Viewpoint) (t : TypeRef) : Bool :=
  match t.asNamed? with
  | some n => match v.definition? n with
    | some definition => definition.isInterface
    | none => SourceModule.looksLikeInterface n.name
  | none => true

/-- The class that a written base means, if it means one. -/
def classOf (v : Viewpoint) (b : String × Scope) : Option TypeRef :=
  (v.means b).filter fun t => !v.isInterface t

theorem isInterface_bare (v : Viewpoint) (t : TypeRef) : v.isInterface t.bare = v.isInterface t := by
  rw [isInterface, isInterface, TypeRef.asNamed?_bare]
  cases t.asNamed? with
  | none => rfl
  | some n =>
      obtain ⟨owner, ns, nesting, args, handle⟩ := n
      rfl

theorem Alike.means (h : v.Alike v') (b : String × Scope) : v'.means b = v.means b :=
  bare_resolve h b.2 b.1

theorem Alike.isInterface (h : v.Alike v') (t : TypeRef) : v'.isInterface t = v.isInterface t := by
  unfold Viewpoint.isInterface
  cases t.asNamed? with
  | none => rfl
  | some n =>
      have hface := face_definition? h (t := n) rfl
      cases hd : v.definition? n <;> cases hd' : v'.definition? n <;> simp_all [ExportedType.face]

theorem Alike.classOf (h : v.Alike v') (b : String × Scope) : v'.classOf b = v.classOf b := by
  rw [Viewpoint.classOf, Viewpoint.classOf, h.means]
  simp only [h.isInterface]

theorem classOf_congr {b c : String × Scope} (h : v.means b = v.means c) :
    v.classOf b = v.classOf c := by
  rw [classOf, classOf, h]

theorem means_of_classOf {b : String × Scope} {t : TypeRef} (h : v.classOf b = some t) :
    v.means b = some t :=
  (Option.filter_eq_some_iff.mp h).1

end Viewpoint

/-! ## What a type extends -/

def TypeForm.extendsClass (form : TypeForm) : Bool :=
  form == .classType || form == .record

namespace SourceModule

variable {v : Viewpoint} {t : DeclaredType} {x : TypeRef} {i : Nat}

/-- The bases that mean something, with their positions. -/
def positionedBases (v : Viewpoint) (t : DeclaredType) : List (TypeRef × Nat) :=
  t.bases.zipIdx.filterMap fun ((text, scope), i) => (v.resolve scope text).map (·, i)

def isBaseClass (v : Viewpoint) (form : TypeForm) (b : TypeRef × Nat) : Bool :=
  b.2 == 0 && form.extendsClass && !v.isInterface b.1

theorem resolvedBases_eq (v : Viewpoint) (t : DeclaredType) :
    resolvedBases v t =
      (((positionedBases v t).find? (isBaseClass v t.form)).map (·.1),
        ((positionedBases v t).filter (! isBaseClass v t.form ·)).map (·.1)) :=
  rfl

theorem mem_positionedBases :
    (x, i) ∈ positionedBases v t ↔ ∃ b, t.bases[i]? = some b ∧ v.resolve b.2 b.1 = some x := by
  unfold positionedBases
  rw [List.mem_filterMap]
  constructor
  · rintro ⟨⟨b, j⟩, hb, hx⟩
    obtain ⟨y, hy, heq⟩ := Option.map_eq_some_iff.mp hx
    obtain ⟨rfl, rfl⟩ := Prod.mk.inj heq
    exact ⟨b, List.mem_zipIdx_iff_getElem?.mp hb, hy⟩
  · rintro ⟨b, hb, hx⟩
    exact ⟨(b, i), List.mem_zipIdx_iff_getElem?.mpr hb, Option.map_eq_some_iff.mpr ⟨x, hx, rfl⟩⟩

theorem isBaseClass_iff :
    isBaseClass v t.form (x, i) = true ↔
      i = 0 ∧ t.form.extendsClass = true ∧ v.isInterface x = false := by
  simp [isBaseClass, and_assoc]

theorem base_eq_some_iff :
    (resolvedBases v t).1 = some x ↔ t.form.extendsClass = true ∧
      ∃ b, t.bases[0]? = some b ∧ v.resolve b.2 b.1 = some x ∧ v.isInterface x = false := by
  rw [resolvedBases_eq, Option.map_eq_some_iff]
  constructor
  · rintro ⟨⟨y, i⟩, hfound, rfl⟩
    obtain ⟨rfl, hform, hclass⟩ := isBaseClass_iff.mp (List.find?_some hfound)
    obtain ⟨b, hb, hy⟩ := mem_positionedBases.mp (List.mem_of_find?_eq_some hfound)
    exact ⟨hform, b, hb, hy, hclass⟩
  · rintro ⟨hform, b, hb, hx, hclass⟩
    have hmem : (x, 0) ∈ positionedBases v t := mem_positionedBases.mpr ⟨b, hb, hx⟩
    have hbase : isBaseClass v t.form (x, 0) = true := isBaseClass_iff.mpr ⟨rfl, hform, hclass⟩
    obtain ⟨⟨y, j⟩, hfound⟩ :=
      Option.isSome_iff_exists.mp (List.find?_isSome.mpr ⟨(x, 0), hmem, hbase⟩)
    -- Only the first base has the position zero.
    obtain ⟨rfl, -, -⟩ := isBaseClass_iff.mp (List.find?_some hfound)
    obtain ⟨c, hc, hy⟩ := mem_positionedBases.mp (List.mem_of_find?_eq_some hfound)
    obtain rfl := Option.some.inj (hb.symm.trans hc)
    exact ⟨(y, 0), hfound, Option.some.inj (hy.symm.trans hx)⟩

theorem classOf_eq_some_iff {b : String × Scope} (h : v.resolve b.2 b.1 = some x) :
    v.classOf b = some x.bare ↔ v.isInterface x = false := by
  rw [Viewpoint.classOf, Viewpoint.means, h]
  simp [Option.filter, Viewpoint.isInterface_bare]

/-- The base class is the first of the bases, if that is a class. -/
theorem base_resolvedBases (v : Viewpoint) (t : DeclaredType) :
    (resolvedBases v t).1.map TypeRef.bare =
      if t.form.extendsClass then t.bases.head?.bind v.classOf else none := by
  ext y
  rw [Option.map_eq_some_iff, List.head?_eq_getElem?]
  constructor
  · rintro ⟨x, hx, rfl⟩
    obtain ⟨hform, b, hb, hx, hclass⟩ := base_eq_some_iff.mp hx
    rw [if_pos hform, hb]
    exact (classOf_eq_some_iff hx).mpr hclass
  · intro hy
    split at hy
    · next hform =>
        obtain ⟨b, hb, hy⟩ := Option.bind_eq_some_iff.mp hy
        obtain ⟨x, hx, rfl⟩ := Option.map_eq_some_iff.mp (Viewpoint.means_of_classOf hy)
        exact ⟨x, base_eq_some_iff.mpr ⟨hform, b, hb, hx, (classOf_eq_some_iff hx).mp hy⟩, rfl⟩
    · cases hy

theorem mem_interfaces_resolvedBases :
    x ∈ (resolvedBases v t).2.map TypeRef.bare ↔
      ∃ (i : Nat) (b : String × Scope), t.bases[i]? = some b ∧ v.means b = some x ∧
        ¬ (i = 0 ∧ t.form.extendsClass = true ∧ v.classOf b = some x) := by
  rw [resolvedBases_eq, List.map_map, List.mem_map]
  constructor
  · rintro ⟨⟨y, i⟩, hmem, rfl⟩
    obtain ⟨hmem, hnot⟩ := List.mem_filter.mp hmem
    obtain ⟨b, hb, hy⟩ := mem_positionedBases.mp hmem
    refine ⟨i, b, hb, congrArg (Option.map TypeRef.bare) hy, fun ⟨hi, hform, hbase⟩ => ?_⟩
    have hbase' := isBaseClass_iff.mpr ⟨hi, hform, (classOf_eq_some_iff hy).mp hbase⟩
    simp [hbase'] at hnot
  · rintro ⟨i, b, hb, hmeans, hnot⟩
    obtain ⟨y, hy, rfl⟩ := Option.map_eq_some_iff.mp hmeans
    refine ⟨(y, i), List.mem_filter.mpr ⟨mem_positionedBases.mpr ⟨b, hb, hy⟩, ?_⟩, rfl⟩
    rw [Bool.not_eq_true', Bool.eq_false_iff]
    intro hbase
    obtain ⟨hi, hform, hface⟩ := isBaseClass_iff.mp hbase
    exact hnot ⟨hi, hform, (classOf_eq_some_iff hy).mpr hface⟩

/-- Viewpoints that are alike find the same base class and the same interfaces. -/
theorem resolvedBases_alike {v' : Viewpoint} (h : v.Alike v') (t : DeclaredType) :
    (resolvedBases v' t).1.map TypeRef.bare = (resolvedBases v t).1.map TypeRef.bare ∧
      ∀ x, x ∈ (resolvedBases v' t).2.map TypeRef.bare ↔ x ∈ (resolvedBases v t).2.map TypeRef.bare := by
  constructor
  · rw [base_resolvedBases, base_resolvedBases, funext h.classOf]
  · intro x
    rw [mem_interfaces_resolvedBases, mem_interfaces_resolvedBases]
    simp only [h.means, h.classOf]

theorem get?_exports {s : SourceModule} (h : s.declarations.Consistent) {id : Nat}
    (ht : s.declarations.types[id]? = some t) :
    s.exports.types.get? t.key = some (exportedType s.declarations id t) :=
  (isOwn_ownType h ht .empty).entry

/-- The exported base means what the first of the bases means. -/
theorem base_exportedType (v : Viewpoint) (d : Declarations) (id : Nat) (t : DeclaredType) :
    ((exportedType d id t).base.bind v.resolveSource).map TypeRef.bare = t.bases.head?.bind v.means := by
  rw [exportedType]
  cases t.bases.head? <;> rfl

end SourceModule

/-! ## Entries with the same bases -/

/-- Two entries of one type have the same bases, in orders of their own. -/
structure SameBases (v : Viewpoint) (t t' : DeclaredType) : Prop where
  form : t'.form = t.form
  nodup : (texts t.bases).Nodup
  nodup' : (texts t'.bases).Nodup
  found : ∀ b ∈ t.bases, ∃ b' ∈ t'.bases, b'.1 = b.1 ∧ v.means b' = v.means b
  found' : ∀ b' ∈ t'.bases, ∃ b ∈ t.bases, b.1 = b'.1 ∧ v.means b = v.means b'

namespace SameBases

variable {v : Viewpoint} {t t' : DeclaredType}

theorem symm (h : SameBases v t t') : SameBases v t' t :=
  ⟨h.form.symm, h.nodup', h.nodup, h.found', h.found⟩

theorem index_eq {bases : List (String × Scope)} (h : (texts bases).Nodup) {i j : Nat}
    {b c : String × Scope} (hb : bases[i]? = some b) (hc : bases[j]? = some c) (htext : b.1 = c.1) :
    i = j := by
  have hi : (texts bases)[i]? = some b.1 := by rw [texts, List.getElem?_map, hb, Option.map_some]
  have hj : (texts bases)[j]? = some c.1 := by rw [texts, List.getElem?_map, hc, Option.map_some]
  obtain ⟨hlt, -⟩ := List.getElem?_eq_some_iff.mp hi
  exact (List.getElem?_inj hlt h).mp (by rw [hi, hj, htext])

/-- Where both begin with the same class or with none, they have the same interfaces. -/
theorem interfaces_subset (h : SameBases v t t')
    (hlead : t'.bases.head?.bind v.classOf = t.bases.head?.bind v.classOf) {x : TypeRef}
    (hx : x ∈ (SourceModule.resolvedBases v t).2.map TypeRef.bare) :
    x ∈ (SourceModule.resolvedBases v t').2.map TypeRef.bare := by
  rw [SourceModule.mem_interfaces_resolvedBases] at hx ⊢
  obtain ⟨i, b, hb, hmeans, hnot⟩ := hx
  obtain ⟨b', hmem, htext, hsame⟩ := h.found b (List.mem_of_getElem? hb)
  obtain ⟨i', hb'⟩ := List.mem_iff_getElem?.mp hmem
  rw [List.head?_eq_getElem?, List.head?_eq_getElem?] at hlead
  by_cases hbase : i' = 0 ∧ t'.form.extendsClass = true ∧ v.classOf b' = some x
  · -- The base has moved to the head, so what stood there means the same class and has moved behind it.
    obtain ⟨rfl, hform, hclass⟩ := hbase
    have hi : i ≠ 0 := by
      rintro rfl
      exact hnot ⟨rfl, h.form ▸ hform, (Viewpoint.classOf_congr hsame).symm.trans hclass⟩
    rw [hb', Option.bind_some, hclass] at hlead
    obtain ⟨c, hc, hclass⟩ := Option.bind_eq_some_iff.mp hlead.symm
    obtain ⟨c', hmem, hctext, hcsame⟩ := h.found c (List.mem_of_getElem? hc)
    obtain ⟨j, hc'⟩ := List.mem_iff_getElem?.mp hmem
    refine ⟨j, c', hc', hcsame.trans (Viewpoint.means_of_classOf hclass), ?_⟩
    rintro ⟨rfl, -⟩
    obtain rfl := Option.some.inj (hb'.symm.trans hc')
    exact hi (index_eq h.nodup hb hc (htext.symm.trans hctext))
  · exact ⟨i', b', hb', hsame.trans hmeans, hbase⟩

/-- Where both begin with the same class or with none, they extend the same types. -/
theorem resolvedBases (h : SameBases v t t')
    (hlead : t'.bases.head?.bind v.classOf = t.bases.head?.bind v.classOf) :
    (SourceModule.resolvedBases v t').1.map TypeRef.bare =
        (SourceModule.resolvedBases v t).1.map TypeRef.bare ∧
      ∀ x, x ∈ (SourceModule.resolvedBases v t').2.map TypeRef.bare ↔
        x ∈ (SourceModule.resolvedBases v t).2.map TypeRef.bare := by
  refine ⟨?_, fun x => ⟨h.symm.interfaces_subset hlead.symm, h.interfaces_subset hlead⟩⟩
  rw [SourceModule.base_resolvedBases, SourceModule.base_resolvedBases, h.form, hlead]

end SameBases

/-! ## Modules of reordered files -/

/-- A text among the bases of a type means the same in all parts that have it. -/
def Meant (v : Viewpoint) (key : String) (ps : List Part) : Prop :=
  ∀ p ∈ ps, ∀ q ∈ ps, p.key = key → q.key = key → ∀ text ∈ p.bases, text ∈ q.bases →
    v.means (text, p.scope) = v.means (text, q.scope)

/-- The parts of a type that have bases agree on the first. -/
def BeginAlike {α : Type} (f : String × Scope → α) (key : String) (ps : List Part) : Prop :=
  ∀ p ∈ ps, ∀ q ∈ ps, p.key = key → q.key = key → ∀ b ∈ p.bases.head?, ∀ c ∈ q.bases.head?,
    f (b, p.scope) = f (c, q.scope)

/-- What a type extends is the same, but for handles. -/
structure SameHierarchy (t t' : TypeSymbol) : Prop where
  ns : t'.ns = t.ns
  nesting : t'.nesting = t.nesting
  base : t'.base.map TypeRef.bare = t.base.map TypeRef.bare
  interfaces : ∀ x, x ∈ t'.interfaces.map TypeRef.bare ↔ x ∈ t.interfaces.map TypeRef.bare

section Reordered

variable {name : String} {files files' : List SourceFile} (hfiles : files.Perm files')
  (hall : Coherent (parts name files)) {withLocations : Bool}

include hfiles hall

/-- Each type has an entry that stands in the same place. -/
theorem exists_reordered {id : Nat} {t : DeclaredType}
    (ht : (Declarations.collect name files withLocations).types[id]? = some t) :
    ∃ (id' : Nat) (t' : DeclaredType),
      (Declarations.collect name files' withLocations).types[id']? = some t' ∧
        t'.ns = t.ns ∧ t'.nesting = t.nesting ∧ t'.form = t.form := by
  have hall' := hall.perm hfiles
  obtain ⟨p, hp, hns, hnesting, hform⟩ := ((gathers_collect hall withLocations).sums id t ht).place
  obtain ⟨p', hp', halike⟩ := exists_alike hfiles hp
  have hgathers := gathers_collect hall' withLocations
  obtain ⟨id', hid'⟩ := (hgathers.find?_iff p'.key).mpr ⟨p', hp', rfl⟩
  obtain ⟨t', ht', hkey⟩ := ((consistent_collect name files' withLocations).byKey_iff _ _).mp hid'
  obtain ⟨q, hq, hns', hnesting', hform'⟩ := (hgathers.sums id' t' ht').place
  have hqkey : q.key = p'.key := by
    rw [← hkey, DeclaredType.key, Part.key, hns', hnesting']
  obtain ⟨hqns, hqnesting, hqform⟩ := hall' q hq p' hp' hqkey
  refine ⟨id', t', ht', ?_, ?_, ?_⟩
  · rw [hns', hqns, halike.ns, hns]
  · rw [hnesting', hqnesting, halike.nesting, hnesting]
  · rw [hform', hqform, halike.form, hform]

theorem exists_reordered_export (references : List String) {key : String} {e : ExportedType}
    (he : (SourceModule.ofOutlines name references files withLocations).exports.types.get? key =
      some e) :
    ∃ e', (SourceModule.ofOutlines name references files' withLocations).exports.types.get? key =
      some e' ∧ e'.face = e.face := by
  have hd : (SourceModule.ofOutlines name references files withLocations).declarations.Consistent :=
    consistent_collect name files withLocations
  have hd' : (SourceModule.ofOutlines name references files' withLocations).declarations.Consistent :=
    consistent_collect name files' withLocations
  obtain ⟨t, ht, rfl, heq⟩ :=
    SourceModule.exists_of_mem_exports hd ((SourceModule.orderly_exports hd).get?_iff.mp he)
  obtain ⟨id', t', ht', hns, hnesting, hform⟩ := exists_reordered hfiles hall ht
  have hkey : t'.key = t.key := by
    rw [DeclaredType.key, DeclaredType.key, hns, hnesting]
  refine ⟨_, hkey ▸ SourceModule.get?_exports hd' ht', ?_⟩
  rw [heq]
  simp only [ExportedType.face, SourceModule.exportedType, hns, hnesting, hform]

theorem alike_exports (references : List String) :
    (SourceModule.ofOutlines name references files withLocations).exports.Alike
      (SourceModule.ofOutlines name references files' withLocations).exports where
  owner := by
    rw [SourceModule.owner_exports, SourceModule.owner_exports]
    rfl
  types key := by
    ext face
    rw [Option.map_eq_some_iff, Option.map_eq_some_iff]
    constructor
    · rintro ⟨e', he', rfl⟩
      exact exists_reordered_export hfiles.symm (hall.perm hfiles) references he'
    · rintro ⟨e, he, rfl⟩
      exact exists_reordered_export hfiles hall references he

end Reordered

/-! ## Entries of reordered files -/

theorem Meant.comm {v : Viewpoint} {key : String} {ps ps' : List Part} (h : Meant v key (ps ++ ps')) :
    Meant v key (ps' ++ ps) := by
  intro p hp q hq
  exact h p (List.mem_append.mpr (List.mem_append.mp hp).symm) q
    (List.mem_append.mpr (List.mem_append.mp hq).symm)

/-- In one and the same scope a text has one meaning. -/
theorem meant_of_scopes {v : Viewpoint} {key : String} {ps : List Part}
    (h : ∀ p ∈ ps, ∀ q ∈ ps, p.key = key → q.key = key → p.scope = q.scope) : Meant v key ps := by
  intro p hp q hq hpkey hqkey text _ _
  rw [h p hp q hq hpkey hqkey]

section Entries

variable {name : String} {files files' : List SourceFile} (hfiles : files.Perm files')
  {t t' : DeclaredType} (h : Sums (parts name files) t) (h' : Sums (parts name files') t')
  (hkey : t'.key = t.key) {v : Viewpoint}
  (hmeant : Meant v t.key (parts name files ++ parts name files'))

include hfiles h h' hkey hmeant

/-- The other entry has each base, in the same meaning. -/
theorem found_reordered {b : String × Scope} (hb : b ∈ t.bases) :
    ∃ b' ∈ t'.bases, b'.1 = b.1 ∧ v.means b' = v.means b := by
  obtain ⟨text, scope⟩ := b
  obtain ⟨p, hp, hpkey, htext, rfl⟩ := h.written (text, scope) hb
  obtain ⟨p', hp', halike⟩ := exists_alike hfiles hp
  have hkept := h'.kept p' hp' (halike.key.trans (hpkey.trans hkey.symm)) text (halike.bases ▸ htext)
  obtain ⟨⟨_, scope'⟩, hb', rfl⟩ := List.mem_map.mp hkept
  obtain ⟨q, hq, hqkey, hqtext, rfl⟩ := h'.written _ hb'
  have hsame := hmeant q (List.mem_append_right _ hq) p (List.mem_append_left _ hp)
    (hqkey.trans hkey) hpkey _ hqtext htext
  exact ⟨_, hb', rfl, hsame⟩

theorem sameBases_reordered (hform : t'.form = t.form)
    (hnodup : ∀ p ∈ parts name files, p.key = t.key → p.bases.Nodup) : SameBases v t t' where
  form := hform
  nodup := h.nodup hnodup
  nodup' := by
    apply h'.nodup
    intro p' hp' hp'key
    obtain ⟨p, hp, halike⟩ := exists_alike hfiles.symm hp'
    rw [← halike.bases]
    exact hnodup p hp (halike.key.trans (hp'key.trans hkey))
  found b hb := found_reordered hfiles h h' hkey hmeant hb
  found' b hb := found_reordered hfiles.symm h' h hkey.symm (hkey ▸ hmeant.comm) hb

/-- What the parts that have bases agree on holds of the first base in both orders. -/
theorem first_reordered {α : Type} {f : String × Scope → Option α}
    (hf : ∀ b c, v.means b = v.means c → f b = f c) (hbegin : BeginAlike f t.key (parts name files)) :
    t'.bases.head?.bind f = t.bases.head?.bind f := by
  cases hhead : t.bases.head? with
  | none =>
      have hempty : t'.bases = [] := by
        rw [List.eq_nil_iff_forall_not_mem]
        intro b' hb'
        obtain ⟨b, hb, -⟩ := found_reordered hfiles.symm h' h hkey.symm (hkey ▸ hmeant.comm) hb'
        exact List.ne_nil_of_mem hb (List.head?_eq_none_iff.mp hhead)
      rw [hempty]
      rfl
  | some b =>
      obtain ⟨p, hp, hpkey, hfirst, hscope⟩ := h.first b hhead
      obtain ⟨c, hc, -⟩ := found_reordered hfiles h h' hkey hmeant (List.mem_of_head? hhead)
      obtain ⟨b', hhead'⟩ : ∃ b', t'.bases.head? = some b' :=
        ⟨_, List.head?_eq_some_head (List.ne_nil_of_mem hc)⟩
      obtain ⟨p', hp', hp'key, hfirst', hscope'⟩ := h'.first b' hhead'
      obtain ⟨q, hq, halike⟩ := exists_alike hfiles.symm hp'
      have hp'key : p'.key = t.key := hp'key.trans hkey
      have hqkey : q.key = t.key := halike.key.trans hp'key
      have hmem : b'.1 ∈ p'.bases := List.mem_of_head? hfirst'
      have hmoved : f (b'.1, p'.scope) = f (b'.1, q.scope) :=
        hf _ _ (hmeant p' (List.mem_append_right _ hp') q (List.mem_append_left _ hq) hp'key hqkey
          b'.1 hmem (halike.bases ▸ hmem))
      have hagree : f (b'.1, q.scope) = f (b.1, p.scope) :=
        hbegin q hq p hp hqkey hpkey b'.1 (halike.bases ▸ hfirst') b.1 hfirst
      rw [hhead', Option.bind_some, Option.bind_some]
      calc f b' = f (b'.1, p'.scope) := by rw [← hscope']
        _ = f (b.1, p.scope) := hmoved.trans hagree
        _ = f b := by rw [← hscope]

end Entries

namespace SourceModule

theorem exists_of_typeSymbol {s : SourceModule} {i : ExportIndex} {id : Nat} {symbol : TypeSymbol}
    (h : s.view.typeSymbol i id = .ok symbol) :
    ∃ t, s.declarations.types[id]? = some t ∧ symbol = typeSymbol ⟨i, s.exports, s.references⟩ id t := by
  unfold view at h
  dsimp only at h
  split at h
  · next t ht => exact ⟨t, ht, (Except.ok.inj h).symm⟩
  · cases h

theorem typeSymbol_eq {s : SourceModule} {i : ExportIndex} {id : Nat} {t : DeclaredType}
    (h : s.declarations.types[id]? = some t) :
    s.view.typeSymbol i id = .ok (typeSymbol ⟨i, s.exports, s.references⟩ id t) := by
  unfold view
  dsimp only
  rw [h]

/-- The files of a module may come in any order: where the parts of a type that have bases begin with
the same class, or all with none, the type extends the same class and the same interfaces. Every module
that reads the table takes the base in it for the same type, if the parts begin with the same base there. -/
theorem typeSymbol_reordered {name : String} {references : List String} {files files' : List SourceFile}
    {withLocations : Bool} {s s' : SourceModule} (hs : s = ofOutlines name references files withLocations)
    (hs' : s' = ofOutlines name references files' withLocations) (hfiles : files.Perm files')
    (hall : Coherent (parts name files)) {i i' : ExportIndex} (hindex : i.Swaps i' s.exports s'.exports)
    {id : Nat} {t : TypeSymbol} (ht : s.view.typeSymbol i id = .ok t)
    (hnodup : ∀ p ∈ parts name files, p.key = t.key → p.bases.Nodup)
    (hmeant : Meant ⟨i, s.exports, references⟩ t.key (parts name files ++ parts name files'))
    (hbegin : BeginAlike (Viewpoint.classOf ⟨i, s.exports, references⟩) t.key (parts name files)) :
    ∃ (id' : Nat) (t' : TypeSymbol) (e e' : ExportedType),
      s'.view.typeSymbol i' id' = .ok t' ∧ SameHierarchy t t' ∧
        s.exports.types.get? t.key = some e ∧ s'.exports.types.get? t.key = some e' ∧
        ∀ (own own' : Exports) (mentioned : List String), own.Alike own' →
          Meant ⟨i, own, mentioned⟩ t.key (parts name files ++ parts name files') →
          BeginAlike (Viewpoint.means ⟨i, own, mentioned⟩) t.key (parts name files) →
          (e'.base.bind (Viewpoint.resolveSource ⟨i', own', mentioned⟩)).map TypeRef.bare =
            (e.base.bind (Viewpoint.resolveSource ⟨i, own, mentioned⟩)).map TypeRef.bare := by
  subst hs hs'
  have hd : (ofOutlines name references files withLocations).declarations.Consistent :=
    consistent_collect name files withLocations
  have hd' : (ofOutlines name references files' withLocations).declarations.Consistent :=
    consistent_collect name files' withLocations
  have hexports : (ofOutlines name references files withLocations).exports.Alike
      (ofOutlines name references files' withLocations).exports := alike_exports hfiles hall references
  have hview := Viewpoint.alike_of_swaps hindex hexports hexports references
  obtain ⟨declared, hdeclared, rfl⟩ := exists_of_typeSymbol ht
  obtain ⟨id', declared', hdeclared', hns, hnesting, hform⟩ := exists_reordered hfiles hall hdeclared
  have hkey : declared'.key = declared.key := by
    rw [DeclaredType.key, DeclaredType.key, hns, hnesting]
  have hsums := (gathers_collect hall withLocations).sums id declared hdeclared
  have hsums' := (gathers_collect (hall.perm hfiles) withLocations).sums id' declared' hdeclared'
  have hbases := sameBases_reordered hfiles hsums hsums' hkey hmeant hform hnodup
  have hlead :=
    first_reordered hfiles hsums hsums' hkey hmeant (fun _ _ => Viewpoint.classOf_congr) hbegin
  obtain ⟨hbase, hinterfaces⟩ := hbases.resolvedBases hlead
  obtain ⟨hbase', hinterfaces'⟩ := resolvedBases_alike hview declared'
  refine ⟨id', _, _, _, typeSymbol_eq hdeclared',
    ⟨hns, hnesting, hbase'.trans hbase, fun x => (hinterfaces' x).trans (hinterfaces x)⟩,
    get?_exports hd hdeclared, hkey ▸ get?_exports hd' hdeclared', ?_⟩
  intro own own' mentioned hown hmeant hfirst
  have hreader := Viewpoint.alike_of_swaps hindex hexports hown mentioned
  rw [base_exportedType, base_exportedType, funext hreader.means]
  exact first_reordered hfiles hsums hsums' hkey hmeant (fun _ _ h => h) hfirst

/-- The keys of a type, of its base class and of its interfaces. -/
def hierarchyKeys (t : TypeSymbol) : String × Option String × List String :=
  (t.key, (t.base.bind (·.asNamed?)).map (·.key), t.interfaces.filterMap fun x => x.asNamed?.map (·.key))

/-- Two files that each hold a part of the class `P`. -/
def twoParts (first second : List String) : List SourceFile :=
  [⟨"A.cs", [.namespacePart "N" [declare .interface "IThing" [], declare .interface "IOther" [],
      declare .classType "Base" [], declare .classType "P" first]]⟩,
    ⟨"B.cs", [.namespacePart "N" [declare .classType "P" second]]⟩]
where
  declare (form : TypeForm) (name : String) (bases : List String) : OutlineItem :=
    .type ⟨form, [], name, [], none, bases, 0, []⟩ []

def moduleOf (files : List SourceFile) : SourceModule :=
  .ofOutlines "App" [] files false

def indexOf (files : List SourceFile) : ExportIndex :=
  ExportIndex.empty.add (moduleOf files).exports []

def viewpointOf (files : List SourceFile) : Viewpoint :=
  ⟨indexOf files, (moduleOf files).exports, []⟩

/-- The key of the type that the base of an exported type means. -/
def exportedBaseKey (files : List SourceFile) (key : String) : Option String :=
  ((((moduleOf files).exports.types.get? key).bind (·.base)).bind (viewpointOf files).resolveSource).bind
    fun x => x.asNamed?.map (·.key)

theorem swaps_reverse (files : List SourceFile) :
    (indexOf files).Swaps (indexOf files.reverse) (moduleOf files).exports
      (moduleOf files.reverse).exports :=
  ExportIndex.empty.swaps_add (by rw [owner_exports, owner_exports]; rfl) []

/-- Both parts begin with the same class and add an interface each. -/
theorem typeSymbol_reordered_twoParts :
    let files := twoParts ["Base", "IThing"] ["Base", "IOther"]
    ∃ t, (moduleOf files).view.typeSymbol (indexOf files) 3 = .ok t ∧ t.key = "N.P" ∧
      ∃ (id' : Nat) (t' : TypeSymbol) (e e' : ExportedType),
        (moduleOf files.reverse).view.typeSymbol (indexOf files.reverse) id' = .ok t' ∧
          SameHierarchy t t' ∧
          (moduleOf files).exports.types.get? t.key = some e ∧
          (moduleOf files.reverse).exports.types.get? t.key = some e' ∧
          (e'.base.bind (viewpointOf files.reverse).resolveSource).map TypeRef.bare =
            (e.base.bind (viewpointOf files).resolveSource).map TypeRef.bare := by
  intro files
  have hkeys : ((moduleOf files).view.typeSymbol (indexOf files) 3).map hierarchyKeys =
      .ok ("N.P", some "N.Base", ["N.IThing", "N.IOther"]) := by decide +kernel
  obtain ⟨t, ht, hkeys⟩ := Except.exists_of_map_eq_ok hkeys
  have hkey : t.key = "N.P" := congrArg Prod.fst hkeys
  have hall : Coherent (parts "App" files) := by
    unfold Coherent
    decide
  have hparts : ∀ p ∈ parts "App" files ++ parts "App" files.reverse,
      ∀ q ∈ parts "App" files ++ parts "App" files.reverse, p.key = "N.P" → q.key = "N.P" →
        p.scope = q.scope ∧ p.bases.head? = q.bases.head? := by decide
  have hnodup : ∀ p ∈ parts "App" files, p.key = t.key → p.bases.Nodup := by
    rw [hkey]
    decide
  have hmeant : ∀ v, Meant v t.key (parts "App" files ++ parts "App" files.reverse) := by
    intro v
    rw [hkey]
    exact meant_of_scopes fun p hp q hq hpkey hqkey => (hparts p hp q hq hpkey hqkey).1
  have hbegin : ∀ f : String × Scope → Option TypeRef, BeginAlike f t.key (parts "App" files) := by
    intro f p hp q hq hpkey hqkey b hb c hc
    rw [hkey] at hpkey hqkey
    obtain ⟨hscope, hfirst⟩ :=
      hparts p (List.mem_append_left _ hp) q (List.mem_append_left _ hq) hpkey hqkey
    rw [hb, hc] at hfirst
    rw [hscope, Option.some.inj hfirst]
  obtain ⟨id', t', e, e', ht', hsame, he, he', hbase⟩ :=
    @typeSymbol_reordered "App" [] files files.reverse false _ _ rfl rfl files.reverse_perm.symm hall _ _
      (swaps_reverse files) 3 t ht hnodup (hmeant _) (hbegin _)
  exact ⟨t, ht, hkey, id', t', e, e', ht', hsame, he, he',
    hbase _ _ [] (alike_exports files.reverse_perm.symm hall []) (hmeant _) (hbegin _)⟩

/-- The class has to be a base of the part that is read first. Else it is taken for an interface. -/
theorem base_of_split_parts :
    let files := twoParts ["IThing"] ["Base"]
    Coherent (parts "App" files) ∧ (∀ p ∈ parts "App" files, p.bases.Nodup) ∧
      (∀ v, Meant v "N.P" (parts "App" files ++ parts "App" files.reverse)) ∧
      ((moduleOf files).view.typeSymbol (indexOf files) 3).map hierarchyKeys =
        .ok ("N.P", none, ["N.IThing", "N.Base"]) ∧
      ((moduleOf files.reverse).view.typeSymbol (indexOf files.reverse) 0).map hierarchyKeys =
        .ok ("N.P", some "N.Base", ["N.IThing"]) ∧
      exportedBaseKey files "N.P" = some "N.IThing" ∧
      exportedBaseKey files.reverse "N.P" = some "N.Base" := by
  intro files
  have hall : Coherent (parts "App" files) := by
    unfold Coherent
    decide
  have hscopes : ∀ p ∈ parts "App" files ++ parts "App" files.reverse,
      ∀ q ∈ parts "App" files ++ parts "App" files.reverse, p.key = "N.P" → q.key = "N.P" →
        p.scope = q.scope := by decide
  refine ⟨hall, by decide, fun v => meant_of_scopes hscopes, ?_, ?_, ?_, ?_⟩
  all_goals decide +kernel

end SourceModule

end CodeGraph.CSharp
