import CodeGraph.Proofs.CSharp.DeclarationTables
import CodeGraph.Proofs.CSharp.OverloadChoice
import CodeGraph.Proofs.CSharp.TypeHandles

namespace CodeGraph.CSharp

/-!
# Handles of members that bodies mention

A body mentions members on many ways, and each of them takes the type that declares the member and the
member from one entry of a table. So a handle always belongs to the type it is mentioned with.
-/

/-! ## Members -/

namespace Viewpoint

/-- The reference says about the member what its definition says. -/
structure Describes (r : MemberRef) (m : ExportedMember) : Prop where
  handle : r.handle = some m.id
  name : r.name = m.name
  kind : r.kind = m.kind
  signature : r.signature = m.signature
  isConstructor : r.isConstructor = m.isConstructor

/-- A reference with a handle means a member of one of the module's own types, unless its type is one
that is offered as known. -/
def Denotes (v : Viewpoint) (r : MemberRef) : Prop :=
  r.handle = none ∨ v.index.Offers r.declaring ∨
    ∃ t m, v.IsOwn r.declaring t ∧ m ∈ t.members ∧ Describes r m

structure TracedRef (v : Viewpoint) (r : MemberRef) : Prop where
  declaring : (TypeRef.named r.declaring).Each v.Traced
  denotes : v.Denotes r

variable {v : Viewpoint}

theorem TracedRef.withArgs {r : MemberRef} (h : v.TracedRef r) (args : List TypeRef) :
    v.TracedRef { r with args } where
  declaring := h.declaring
  denotes := by
    rcases h.denotes with hnone | hoffers | ⟨t, m, ht, hm, hd⟩
    · exact .inl hnone
    · exact .inr (.inl hoffers)
    · exact .inr (.inr ⟨t, m, ht, hm, hd.handle, hd.name, hd.kind, hd.signature, hd.isConstructor⟩)

theorem tracedRef_of_handle {r : MemberRef} (hdeclaring : (TypeRef.named r.declaring).Each v.Traced)
    (h : r.handle = none) : v.TracedRef r :=
  ⟨hdeclaring, .inl h⟩

theorem handle_memberRef {n : NamedType} (h : n.handle = none) (m : ExportedMember) :
    (BodyPlace.memberRef n m).handle = none := by
  rw [BodyPlace.memberRef, h]
  rfl

theorem tracedRef_of_isOwn {n : NamedType} (hn : (TypeRef.named n).Each v.Traced) {t : ExportedType}
    (ht : v.IsOwn n t) {m : ExportedMember} (hm : m ∈ t.members) :
    v.TracedRef (BodyPlace.memberRef n m) := by
  have hhandle : (BodyPlace.memberRef n m).handle = some m.id := by
    rw [BodyPlace.memberRef, ht.handle]
    rfl
  exact ⟨hn, .inr (.inr ⟨t, m, ht, hm, hhandle, rfl, rfl, rfl, rfl⟩)⟩

/-- A member that is found in the definition of a type. -/
theorem tracedRef_memberRef {n : NamedType} (hn : (TypeRef.named n).Each v.Traced) {d : ExportedType}
    (hd : v.definition? n = some d) {m : ExportedMember} (hm : m ∈ d.members) :
    v.TracedRef (BodyPlace.memberRef n m) := by
  rcases (TypeRef.each_named.mp hn).1 with (hnone | ⟨t, ht⟩) | hoffers
  · exact tracedRef_of_handle hn (handle_memberRef hnone m)
  · obtain rfl := Option.some.inj (ht.definition?_eq.symm.trans hd)
    exact tracedRef_of_isOwn hn ht hm
  · exact ⟨hn, .inr (.inl hoffers)⟩

end Viewpoint

open Viewpoint

namespace BodyPlace

/-- What is known at a place: the type around it and the types of locals. -/
structure Traced (b : BodyPlace) : Prop where
  view : b.view.Registered
  owner : (TypeRef.named b.owner).Each b.view.Traced
  locals : ∀ name t, (name, some t) ∈ b.locals → t.Each b.view.Traced

variable {b : BodyPlace}

theorem traced_resolve (hb : b.Traced) {text : String} {t : TypeRef} (h : b.resolve text = some t) :
    t.Each b.view.Traced :=
  traced_of_located (located_resolve hb.view h)

theorem Traced.declare (hb : b.Traced) (name : String) {type : Option TypeRef}
    (htype : ∀ t, type = some t → t.Each b.view.Traced) : (b.declare name type).Traced where
  view := hb.view
  owner := hb.owner
  locals name' t ht := by
    rcases List.mem_cons.mp ht with heq | ht
    · exact htype t (Prod.mk.inj heq).2.symm
    · exact hb.locals name' t ht

theorem tracedRef_constructor {created : NamedType} (hcreated : (TypeRef.named created).Each b.view.Traced)
    {args : List (Option String)} {r : MemberRef} (h : b.constructor created args = some r) :
    b.view.TracedRef r := by
  rw [constructor] at h
  split at h
  · split at h
    · obtain rfl := Option.some.inj h
      exact tracedRef_of_handle hcreated rfl
    · cases h
  · next d hd =>
      split at h
      · next m hm =>
          obtain rfl := Option.some.inj h
          have hmem := (List.mem_filter.mp (isBest_of_chooseOverload hm).1).1
          exact tracedRef_memberRef hcreated hd (List.mem_filter.mp hmem).1
      · split at h
        · obtain rfl := Option.some.inj h
          exact tracedRef_of_handle hcreated rfl
        · cases h

section Members

variable (hb : b.Traced) {name : String} {kind : Option MemberKind} {args : CallArgs}

include hb

theorem tracedRef_findMember {owner : NamedType} (howner : (TypeRef.named owner).Each b.view.Traced)
    {r : MemberRef} (h : b.findMember owner name kind args = some r) : b.view.TracedRef r := by
  obtain ⟨⟨n, d⟩, hentry, hchosen⟩ := List.exists_of_findSome?_eq_some h
  obtain ⟨hn, hd⟩ := traced_basesUpTo hb.view maxBases howner _ hentry
  obtain ⟨m, hm, rfl⟩ := Option.map_eq_some_iff.mp hchosen
  have hcandidate : m ∈ (d.membersNamed name).filter fun m =>
      !m.isConstructor && kind.all (· == m.kind) := by
    split at hm
    · exact (isBest_of_chooseOverload hm).1
    · exact List.mem_of_head? hm
  exact tracedRef_memberRef hn hd (List.mem_filter.mp (List.mem_filter.mp hcandidate).1).1

theorem tracedRef_implicitMember {r : MemberRef} (h : b.implicitMember name kind args = some r) :
    b.view.TracedRef r := by
  rw [implicitMember] at h
  split at h
  · cases h
  · rw [Option.or_eq_some_iff, Option.or_eq_some_iff] at h
    rcases h with h | ⟨-, h | ⟨-, h⟩⟩
    · exact tracedRef_findMember hb hb.owner h
    · obtain ⟨key, -, hkey⟩ := List.exists_of_findSome?_eq_some h
      obtain ⟨outer, houter, hmember⟩ := Option.bind_eq_some_iff.mp hkey
      exact tracedRef_findMember hb (traced_of_located (each_find? hb.view houter)) hmember
    · obtain ⟨imported, -, himported⟩ := List.exists_of_findSome?_eq_some h
      split at himported
      · next t ht => exact tracedRef_findMember hb (traced_resolve hb ht) himported
      · cases himported

theorem tracedRef_extensionCall {receiver : TypeRef} {args : List (Option String)} {r : MemberRef}
    (h : b.extensionCall receiver name args = some r) : b.view.TracedRef r := by
  obtain ⟨⟨n, m⟩, hchosen, rfl⟩ := Option.map_eq_some_iff.mp h
  obtain ⟨hargs, hcases⟩ := mem_extensionMethods hb.view (isBest_of_chooseOverload hchosen).1
  have heach : b.view.Located n → (TypeRef.named n).Each b.view.Traced := by
    intro hn
    rw [TypeRef.each_named, hargs]
    exact ⟨.inl hn, List.forall_mem_nil _⟩
  rcases hcases with hnone | ⟨t, ht, hm⟩
  · exact tracedRef_of_handle (heach (.inl hnone)) (handle_memberRef hnone m)
  · exact tracedRef_of_isOwn (heach (.inr ⟨t, ht⟩)) ht hm

theorem traced_memberValue {r : MemberRef} (hr : b.view.TracedRef r) {t : TypeRef}
    (h : b.memberValue r = some t) : t.Each b.view.Traced := by
  rw [memberValue] at h
  split at h
  · obtain rfl := Option.some.inj h
    exact hr.declaring
  · simp only [Option.bind_eq_bind, Option.bind_eq_some_iff] at h
    obtain ⟨d, hd, m, hm, source, hsource, value, hvalue, h⟩ := h
    have hoffered : ∀ type, source = .resolved type → type.Each b.view.Traced := by
      rintro type rfl
      have hmem := (List.mem_filter.mp (List.mem_of_find?_eq_some hm)).1
      exact traced_of_offers hb.view hd (.inr ⟨m, hmem, hsource⟩)
    have htraced := traced_resolveSource hb.view hoffered hvalue
    split at h
    · cases h
    · obtain rfl := Option.some.inj h
      exact htraced

theorem traced_baseOfOwner {n : NamedType} (h : b.baseOfOwner = some n) :
    (TypeRef.named n).Each b.view.Traced := by
  obtain ⟨entry, hentry, rfl⟩ := Option.map_eq_some_iff.mp h
  exact (traced_basesUpTo hb.view maxBases hb.owner entry (List.mem_of_getElem? hentry)).1

end Members

end BodyPlace

/-! ## Expressions -/

/-- The type of a value or the type itself, if there is one, has a property in all its parts. -/
def Target.Each (p : NamedType → Prop) : Target → Prop
  | .value t => t.Each p
  | .static n => (TypeRef.named n).Each p
  | .unknown => True

section Target

variable {p : NamedType → Prop} {t : Target}

theorem Target.each_ofValue {type : Option TypeRef} (h : ∀ t, type = some t → t.Each p) :
    (Target.ofValue type).Each p := by
  cases type with
  | none => trivial
  | some t => exact h t rfl

theorem Target.Each.value? (h : t.Each p) {type : TypeRef} (ht : t.value? = some type) : type.Each p := by
  cases t with
  | value => exact Option.some.inj ht ▸ h
  | _ => cases ht

theorem Target.Each.receiver? (h : t.Each p) {n : NamedType} (hn : t.receiver? = some n) :
    (TypeRef.named n).Each p := by
  unfold Target.receiver? at hn
  split at hn
  · exact Option.some.inj hn ▸ h
  · exact Option.some.inj hn ▸ h
  · cases hn

end Target

theorem each_elementType? {p : NamedType → Prop} {t element : TypeRef} (h : t.Each p)
    (ht : elementType? t = some element) : element.Each p := by
  unfold elementType? at ht
  split at ht
  · exact Option.some.inj ht ▸ TypeRef.each_array.mp h
  · exact (TypeRef.each_named.mp h).2 _ (Option.some.inj ht ▸ List.mem_cons_self)
  · cases ht

theorem each_awaitedType? {p : NamedType → Prop} {t awaited : TypeRef} (h : t.Each p)
    (ht : awaitedType? t = some awaited) : awaited.Each p := by
  obtain ⟨n, hn, hargs⟩ := Option.bind_eq_some_iff.mp ht
  split at hargs
  · exact (TypeRef.each_named.mp (h.asNamed? hn)).2 awaited (List.mem_of_head? hargs)
  · cases hargs

namespace BodyPlace

variable {b : BodyPlace} (hb : b.Traced)

include hb

theorem traced_staticTarget (text : String) : (b.staticTarget text).Each b.view.Traced := by
  unfold staticTarget
  split
  · next t ht =>
      split
      · exact traced_resolve hb ht
      · trivial
  · trivial

theorem tracedRef_memberOf {receiver : Target} (hreceiver : receiver.Each b.view.Traced) {name : String}
    {r : MemberRef} (h : b.memberOf receiver name = some r) : b.view.TracedRef r := by
  obtain ⟨owner, howner, hfound⟩ := Option.bind_eq_some_iff.mp h
  exact tracedRef_findMember hb (hreceiver.receiver? howner) hfound

theorem tracedRef_methodOf {receiver : Target} (hreceiver : receiver.Each b.view.Traced) {name : String}
    {args : List (Option String)} {r : MemberRef} (h : b.methodOf receiver name args = some r) :
    b.view.TracedRef r := by
  rcases Option.or_eq_some_iff.mp h with h | ⟨-, h⟩
  · obtain ⟨owner, howner, hfound⟩ := Option.bind_eq_some_iff.mp h
    exact tracedRef_findMember hb (hreceiver.receiver? howner) hfound
  · obtain ⟨t, -, hfound⟩ := Option.bind_eq_some_iff.mp h
    exact tracedRef_extensionCall hb hfound

/-- The value of a member, if one is found. -/
theorem traced_valueOf {m : Option MemberRef} (hm : ∀ r, m = some r → b.view.TracedRef r) :
    (Target.ofValue (m.bind b.memberValue)).Each b.view.Traced := by
  apply Target.each_ofValue
  intro t ht
  obtain ⟨r, hr, hvalue⟩ := Option.bind_eq_some_iff.mp ht
  exact traced_memberValue hb (hm r hr) hvalue

omit hb in
theorem traced_target (hb : b.Traced) (c : Code) : (b.target c).Each b.view.Traced := by
  cases c with
  | name n =>
      rw [target]
      split
      · next type htype =>
          apply Target.each_ofValue
          rintro t rfl
          obtain ⟨before, behind, hlocals, -⟩ := List.lookup_eq_some_iff.mp htype
          exact hb.locals n t (hlocals ▸ List.mem_append_right before List.mem_cons_self)
      · split
        · next r hr =>
            exact Target.each_ofValue fun t => traced_memberValue hb (tracedRef_implicitMember hb hr)
        · exact traced_staticTarget hb n
  | genericName text name arguments => exact traced_staticTarget hb text
  | typeName text => exact traced_staticTarget hb text
  | literal type parts =>
      exact TypeRef.each_named.mpr ⟨.inl (.inl rfl), List.forall_mem_nil _⟩
  | parenthesized inner => exact traced_target hb inner
  | member text receiver name arguments =>
      rw [target]
      split
      · next r hr =>
          have href := tracedRef_memberOf hb (traced_target hb receiver) hr
          exact Target.each_ofValue fun t => traced_memberValue hb href
      · split
        · exact traced_staticTarget hb text
        · trivial
  | call function args =>
      cases function with
      | name n => exact traced_valueOf hb fun r => tracedRef_implicitMember hb
      | genericName text n arguments => exact traced_valueOf hb fun r => tracedRef_implicitMember hb
      | member text receiver n arguments =>
          exact traced_valueOf hb fun r => tracedRef_methodOf hb (traced_target hb receiver)
      | _ => trivial
  | creation type args initializer => exact Target.each_ofValue fun t => traced_resolve hb
  | conversion type value => exact Target.each_ofValue fun t => traced_resolve hb
  | awaited value =>
      apply Target.each_ofValue
      intro t ht
      obtain ⟨task, htask, hawaited⟩ := Option.bind_eq_some_iff.mp ht
      exact each_awaitedType? ((traced_target hb value).value? htask) hawaited
  | element receiver args =>
      have hreceiver := traced_target hb receiver
      rw [target]
      split
      · next t ht =>
          rw [ht] at hreceiver
          exact TypeRef.each_array.mp hreceiver
      · trivial
  | _ => trivial

end BodyPlace

/-! ## Bodies -/

namespace BodyReading

/-- What is known at the place that a reading has reached is traced, and what it has found denotes. -/
structure Traced (v : Viewpoint) (r : BodyReading) : Prop where
  view : r.place.view = v
  place : r.place.Traced
  found : ∀ m usage, .member m usage ∈ r.found → v.Denotes m

variable {v : Viewpoint} {r : BodyReading} {name : String}

namespace Traced

theorem resolve (h : r.Traced v) {text : String} {t : TypeRef} (ht : r.place.resolve text = some t) :
    t.Each v.Traced :=
  h.view ▸ BodyPlace.traced_resolve h.place ht

theorem target (h : r.Traced v) (c : Code) : (r.place.target c).Each v.Traced :=
  h.view ▸ BodyPlace.traced_target h.place c

theorem implicitMember (h : r.Traced v) {kind : Option MemberKind} {args : BodyPlace.CallArgs}
    {m : MemberRef} (hm : r.place.implicitMember name kind args = some m) : v.TracedRef m :=
  h.view ▸ BodyPlace.tracedRef_implicitMember h.place hm

theorem findMember (h : r.Traced v) {owner : NamedType} (howner : (TypeRef.named owner).Each v.Traced)
    {kind : Option MemberKind} {args : BodyPlace.CallArgs} {m : MemberRef}
    (hm : r.place.findMember owner name kind args = some m) : v.TracedRef m := by
  obtain ⟨rfl, hplace, -⟩ := h
  exact BodyPlace.tracedRef_findMember hplace howner hm

theorem constructor (h : r.Traced v) {created : NamedType}
    (hcreated : (TypeRef.named created).Each v.Traced) {args : List (Option String)} {m : MemberRef}
    (hm : r.place.constructor created args = some m) : v.TracedRef m := by
  obtain ⟨rfl, -, -⟩ := h
  exact BodyPlace.tracedRef_constructor hcreated hm

theorem mentionType (h : r.Traced v) (type : Option TypeRef) (usage : TypeUsage) :
    (r.mentionType type usage).Traced v := by
  cases type with
  | none => exact h
  | some t =>
      refine ⟨h.view, h.place, fun m usage' hm => ?_⟩
      rcases List.mem_cons.mp hm with heq | hm
      · cases heq
      · exact h.found m usage' hm

theorem mentionMember (h : r.Traced v) {m : Option MemberRef} (usage : MemberUsage)
    (hm : ∀ r', m = some r' → v.TracedRef r') : (r.mentionMember m usage).Traced v := by
  cases m with
  | none => exact h
  | some m =>
      refine ⟨h.view, h.place, fun m' usage' hm' => ?_⟩
      rcases List.mem_cons.mp hm' with heq | hm'
      · obtain ⟨rfl, -⟩ := BodyRef.member.inj heq
        exact (hm _ rfl).denotes
      · exact h.found m' usage' hm'

theorem declare (h : r.Traced v) (name : String) {type : Option TypeRef}
    (htype : ∀ t, type = some t → t.Each v.Traced) : (r.declare name type).Traced v := by
  obtain ⟨rfl, hplace, hfound⟩ := h
  exact ⟨rfl, hplace.declare name htype, hfound⟩

/-- A type is mentioned, and a local of it comes into being. -/
theorem introduce (h : r.Traced v) {type : Option TypeRef} (htype : ∀ t, type = some t → t.Each v.Traced)
    (usage : TypeUsage) (name : Option String) :
    Traced v (match name with
      | some n => (r.mentionType type usage).declare n type
      | none => r.mentionType type usage) := by
  cases name with
  | none => exact h.mentionType type usage
  | some n => exact (h.mentionType type usage).declare n htype

theorem declareWritten (h : r.Traced v) (type : String) (name : Option String) (usage : TypeUsage) :
    (r.declareWritten type name usage).Traced v :=
  h.introduce (fun _ => h.resolve) usage name

theorem declareElement (h : r.Traced v) (type name : Option String) (collection : Code) :
    (r.declareElement type name collection).Traced v := by
  refine h.introduce (fun t ht => ?_) .foreach name
  rcases Option.or_eq_some_iff.mp ht with ht | ⟨-, ht⟩
  · obtain ⟨text, -, hresolve⟩ := Option.bind_eq_some_iff.mp ht
    exact h.resolve hresolve
  · obtain ⟨whole, hwhole, helement⟩ := Option.bind_eq_some_iff.mp ht
    exact each_elementType? ((h.target collection).value? hwhole) helement

theorem foldl {α : Type} {step : BodyReading → α → BodyReading}
    (hstep : ∀ {r} a, r.Traced v → (step r a).Traced v) (l : List α) (h : r.Traced v) :
    (l.foldl step r).Traced v := by
  induction l generalizing r with
  | nil => exact h
  | cons a l ih => exact ih (hstep a h)

theorem declareParameters (h : r.Traced v) (p : Parameters) : (r.declareParameters p).Traced v := by
  have hordinary : (p.ordinary.foldl
      (fun r q => r.declare q.name (q.type.bind r.place.resolve)) r).Traced v := by
    refine foldl (fun q h => h.declare q.name fun t ht => ?_) p.ordinary h
    obtain ⟨text, -, hresolve⟩ := Option.bind_eq_some_iff.mp ht
    exact h.resolve hresolve
  unfold BodyReading.declareParameters
  cases p.gathering with
  | none => exact hordinary
  | some n => exact hordinary.declare n fun t ht => by cases ht

theorem declareLocal (h : r.Traced v) {type : Option TypeRef}
    (htype : ∀ t, type = some t → t.Each v.Traced) (declared : String × Option Code) :
    (declareLocal type r declared).Traced v := by
  refine h.introduce (fun t ht => ?_) .local (some declared.1)
  rcases Option.or_eq_some_iff.mp ht with ht | ⟨-, ht⟩
  · exact htype t ht
  · obtain ⟨e, -, hvalue⟩ := Option.bind_eq_some_iff.mp ht
    exact (h.target e).value? hvalue

theorem calledName (h : r.Traced v) {typeArgs : List String} {args : List (List Code)} {m : MemberRef}
    (hm : r.calledName name typeArgs args = some m) : v.TracedRef m := by
  unfold BodyReading.calledName at hm
  dsimp only at hm
  split at hm
  · -- a function of the body is mentioned without a handle
    obtain rfl := Option.some.inj hm
    exact tracedRef_of_handle (h.view ▸ h.place.owner) rfl
  · split at hm
    · cases hm
    · obtain ⟨m', hm', rfl⟩ := Option.map_eq_some_iff.mp hm
      rcases Option.or_eq_some_iff.mp hm' with hm' | ⟨-, hm'⟩ <;>
        exact (h.implicitMember hm').withArgs _

theorem calledMember (h : r.Traced v) {receiver : Code} {typeArgs : List String} {args : List (List Code)}
    {m : MemberRef} (hm : r.calledMember receiver name typeArgs args = some m) : v.TracedRef m := by
  obtain ⟨m', hm', rfl⟩ := Option.map_eq_some_iff.mp hm
  apply TracedRef.withArgs
  rcases Option.or_eq_some_iff.mp hm' with hown | ⟨-, hextension⟩
  · obtain ⟨owner, howner, hfound⟩ := Option.bind_eq_some_iff.mp hown
    have htraced := (h.target receiver).receiver? howner
    rcases Option.or_eq_some_iff.mp hfound with hfound | ⟨-, hfound⟩ <;>
      exact h.findMember htraced hfound
  · obtain ⟨t, -, hfound⟩ := Option.bind_eq_some_iff.mp hextension
    exact h.view ▸ BodyPlace.tracedRef_extensionCall h.place hfound

theorem mentionInitialized (h : r.Traced v) {created : NamedType}
    (hcreated : (TypeRef.named created).Each v.Traced) (codes : List Code) :
    (mentionInitialized created r codes).Traced v := by
  induction r, codes using BodyReading.mentionInitialized.induct created with
  | case1 => exact h
  | case2 r n right rest ih => exact ih (h.mentionMember .access fun m => h.findMember hcreated)
  | case3 r code rest hother ih =>
      rw [BodyReading.mentionInitialized]
      · exact ih h
      · exact hother

theorem created? (h : r.Traced v) {type : String} {n : NamedType} (hn : r.created? type = some n) :
    (TypeRef.named n).Each v.Traced := by
  unfold BodyReading.created? at hn
  split at hn
  · next t ht => exact Option.some.inj hn ▸ h.resolve ht
  · cases hn

theorem mentionOtherConstructor (h : r.Traced v) (ofBase : Bool) (args : List (List Code)) :
    (r.mentionOtherConstructor ofBase args).Traced v := by
  refine h.mentionMember .call fun m hm => ?_
  obtain ⟨t, ht, hctor⟩ := Option.bind_eq_some_iff.mp hm
  refine h.constructor ?_ hctor
  split at ht
  · exact h.view ▸ BodyPlace.traced_baseOfOwner h.place ht
  · exact Option.some.inj ht ▸ h.view ▸ h.place.owner

theorem mentionName (h : r.Traced v) (name : String) : (r.mentionName name).Traced v :=
  h.mentionMember .access fun _ => h.implicitMember

theorem mentionAccess (h : r.Traced v) (receiver : Code) (name : String) :
    (r.mentionAccess receiver name).Traced v := by
  refine h.mentionMember .access fun m hm => ?_
  obtain ⟨owner, howner, hfound⟩ := Option.bind_eq_some_iff.mp hm
  exact h.findMember ((h.target receiver).receiver? howner) hfound

theorem mentionOptional (h : r.Traced v) (receiver : Code) (name : String) :
    (r.mentionOptional receiver name).Traced v := by
  refine h.mentionMember .access fun m hm => ?_
  obtain ⟨n, hn, hfound⟩ := Option.bind_eq_some_iff.mp hm
  obtain ⟨t, ht, hnamed⟩ := Option.bind_eq_some_iff.mp hn
  exact h.findMember (((h.target receiver).value? ht).asNamed? hnamed) hfound

end Traced

mutual

theorem traced_read (c : Code) {r : BodyReading} (h : r.Traced v) : (read c r).Traced v := by
  cases c with
  | name n => exact h.mentionName n
  | literal type holes => exact traced_readAll holes h
  | parenthesized inner => exact traced_read inner h
  | member text receiver n arguments => exact traced_read receiver (h.mentionAccess receiver n)
  | optionalMember receiver n => exact (traced_read receiver h).mentionOptional receiver n
  | call function args =>
      cases function with
      | name n => exact traced_readEach args (h.mentionMember _ fun _ => h.calledName)
      | genericName text n typeArgs => exact traced_readEach args (h.mentionMember _ fun _ => h.calledName)
      | member text receiver n typeArgs =>
          exact traced_readEach args (traced_read receiver (h.mentionMember _ fun _ => h.calledMember))
      | _ =>
          rw [read]
          · exact traced_readEach args (traced_read _ h)
          all_goals simp
  | element receiver args => exact traced_readEach args (traced_read receiver h)
  | creation type args initializer =>
      rw [read]
      split
      · exact traced_readAll initializer (traced_readEach args h)
      · next t ht =>
          have hcreated := h.created? ht
          have hmention := h.mentionMember (m := r.place.constructor t (r.place.argumentTypes args))
            .creation fun _ => h.constructor hcreated
          exact traced_readInitializer initializer
            (traced_readEach args (hmention.mentionInitialized hcreated initializer))
  | otherConstructor ofBase args => exact traced_readEach args (h.mentionOtherConstructor ofBase args)
  | assignment left right => exact traced_read right (traced_read left h)
  | conversion type value => exact traced_read value h
  | awaited value => exact traced_read value h
  | lambda params body => exact traced_read body (h.declareParameters params)
  | anonymous params body => exact h.declareParameters params
  | localFunction n params body => exact traced_readAll body (h.declareParameters params)
  | declaration type declared =>
      apply traced_readDeclared declared
      exact Traced.foldl (fun d hd => hd.declareLocal (fun _ => h.resolve) d) declared h
  | designation type n => exact h.declareWritten type n .local
  | foreach type n collection body =>
      exact traced_read body (traced_read collection (h.declareElement type n collection))
  | caught type n => exact h.declareWritten type n .catch
  | parts codes => exact traced_readAll codes h
  | _ => exact h

theorem traced_readAll (codes : List Code) {r : BodyReading} (h : r.Traced v) :
    (readAll codes r).Traced v := by
  cases codes with
  | nil => exact h
  | cons c rest => exact traced_readAll rest (traced_read c h)

theorem traced_readEach (lists : List (List Code)) {r : BodyReading} (h : r.Traced v) :
    (readEach lists r).Traced v := by
  cases lists with
  | nil => exact h
  | cons l rest => exact traced_readEach rest (traced_readAll l h)

theorem traced_readDeclared (declared : List (String × Option Code)) {r : BodyReading} (h : r.Traced v) :
    (readDeclared declared r).Traced v := by
  match declared with
  | [] => exact h
  | (_, some c) :: rest => exact traced_readDeclared rest (traced_read c h)
  | (_, none) :: rest => exact traced_readDeclared rest h

theorem traced_readInitializer (codes : List Code) {r : BodyReading} (h : r.Traced v) :
    (readInitializer codes r).Traced v := by
  cases codes with
  | nil => exact h
  | cons c rest =>
      have hwhole := traced_readInitializer rest (traced_read c h)
      cases c with
      | assignment left right =>
          cases left with
          | name n => exact traced_readInitializer rest (traced_read right h)
          | _ => exact hwhole
      | _ => exact hwhole

end

end BodyReading

/-- Whatever a body mentions with a handle is what the handle stands for. -/
theorem denotes_of_mem_references {v : Viewpoint} (hv : v.Registered) {owner : NamedType}
    (howner : (TypeRef.named owner).Each v.Traced) (m : DeclaredMember) {r : MemberRef}
    {usage : MemberUsage} (h : .member r usage ∈ m.references v owner) : v.Denotes r := by
  have hlocals : ∀ name t,
      (name, some t) ∈ (if m.kind = .property ∨ m.kind = .event then
        [("value", m.value.bind (v.resolve m.scope))] else []) → t.Each v.Traced := by
    intro name t ht
    split at ht
    · obtain ⟨-, heq⟩ := Prod.mk.inj (List.mem_singleton.mp ht)
      obtain ⟨text, -, hresolve⟩ := Option.bind_eq_some_iff.mp heq.symm
      exact traced_of_located (located_resolve hv hresolve)
    · cases ht
  have hstart : BodyReading.Traced v ⟨⟨v, owner, m.scope, Code.functionsAll m.body, _⟩, []⟩ :=
    ⟨rfl, ⟨hv, howner, hlocals⟩, fun m' usage hm => absurd hm List.not_mem_nil⟩
  have hread := BodyReading.traced_readAll m.body (hstart.declareParameters m.parameters)
  exact hread.found r usage (List.mem_reverse.mp h)

/-! ## Modules -/

namespace SourceModule

variable {s : SourceModule}

theorem owner_exports (s : SourceModule) : s.exports.owner = s.name :=
  Exports.foldl_insert_owner (fun entry : DeclaredType × Nat => entry.1.key)
    (fun entry => exportedType s.declarations entry.2 entry.1) _ (.empty s.name)

section Exports

variable (h : s.declarations.Consistent)

include h

theorem exists_of_mem_exports {key : String} {t : ExportedType}
    (ht : (key, t) ∈ s.exports.types.entries) :
    ∃ declared, s.declarations.types[t.id]? = some declared ∧ key = declared.key ∧
      t = exportedType s.declarations t.id declared := by
  rw [entries_exports h] at ht
  obtain ⟨⟨declared, id⟩, hentry, heq⟩ := List.mem_map.mp ht
  obtain ⟨rfl, rfl⟩ := Prod.mk.inj heq
  have hdeclared := List.mem_zipIdx_iff_getElem?.mp hentry
  rw [Array.getElem?_toList] at hdeclared
  exact ⟨declared, hdeclared, rfl, rfl⟩

theorem orderly_exports : s.exports.Orderly where
  nodup := by
    rw [Dict.keys, entries_exports h, List.map_map]
    exact (map_key_zipIdx s.declarations) ▸ h.keys_nodup
  key_eq key t ht := by
    obtain ⟨declared, -, rfl, heq⟩ := exists_of_mem_exports h ht
    rw [heq]
    rfl

theorem registered {index : ExportIndex} (hindex : index.Holds s.exports) :
    Viewpoint.Registered ⟨index, s.exports, s.references⟩ :=
  ⟨orderly_exports h, hindex⟩

end Exports

theorem mem_members_exportedType {d : Declarations} {id : Nat} {t : DeclaredType} {m : ExportedMember}
    (hm : m ∈ (exportedType d id t).members) :
    m.id ∈ t.members ∧ ∃ declared, d.members[m.id]? = some declared ∧ m = exportedMember m.id declared := by
  obtain ⟨i, hi, hmap⟩ := List.mem_filterMap.mp hm
  obtain ⟨declared, hdeclared, rfl⟩ := Option.map_eq_some_iff.mp hmap
  exact ⟨hi, declared, hdeclared, rfl⟩

theorem isOwn_ownType (h : s.declarations.Consistent) {id : Nat} {t : DeclaredType}
    (ht : s.declarations.types[id]? = some t) (index : ExportIndex) :
    Viewpoint.IsOwn ⟨index, s.exports, s.references⟩ (s.ownType id t)
      (exportedType s.declarations id t) where
  entry := by
    apply (orderly_exports h).get?_iff.mpr
    rw [entries_exports h]
    apply List.mem_map.mpr
    refine ⟨(t, id), ?_, rfl⟩
    rw [List.mem_zipIdx_iff_getElem?, Array.getElem?_toList]
    exact ht
  owner := congrArg some s.owner_exports.symm
  ns := rfl
  nesting := rfl
  handle := rfl

/-- The reference names the module's own member of its handle, with the type that declares it. -/
structure NamesOwn (s : SourceModule) (index : ExportIndex) (r : MemberRef) (handle : Nat) : Prop where
  member : ∃ m, s.view.memberSymbol index handle = .ok m ∧ m.name = r.name ∧ m.kind = r.kind ∧
    m.signature = r.signature ∧ m.isConstructor = r.isConstructor
  owner : r.declaring.owner = some s.name
  type : ∃ id t, r.declaring.handle = some id ∧ s.view.typeSymbol index id = .ok t ∧
    t.ns = r.declaring.ns ∧ t.nesting = r.declaring.nesting ∧ handle ∈ s.view.members id

theorem namesOwn_of_isOwn (h : s.declarations.Consistent) {index : ExportIndex} {r : MemberRef}
    {t : ExportedType} {m : ExportedMember}
    (ht : Viewpoint.IsOwn ⟨index, s.exports, s.references⟩ r.declaring t) (hm : m ∈ t.members)
    (hr : Viewpoint.Describes r m) : s.NamesOwn index r m.id := by
  have hentry := (orderly_exports h).get?_iff.mp ht.entry
  obtain ⟨declared, hdeclared, -, heq⟩ := exists_of_mem_exports h hentry
  rw [heq] at hm
  obtain ⟨hlisted, member, hmember, heqm⟩ := mem_members_exportedType hm
  have hns : declared.ns = t.ns := by rw [heq]; rfl
  have hnesting : declared.nesting = t.nesting := by rw [heq]; rfl
  constructor
  · refine ⟨memberSymbol ⟨index, s.exports, s.references⟩ m.id member, ?_, ?_, ?_, ?_, ?_⟩
    · simp only [view, hmember]
    · rw [hr.name, heqm]
      rfl
    · rw [hr.kind, heqm]
      rfl
    · rw [hr.signature, heqm]
      rfl
    · rw [hr.isConstructor, heqm]
      rfl
  · rw [ht.owner, owner_exports]
  · refine ⟨t.id, typeSymbol ⟨index, s.exports, s.references⟩ t.id declared, ht.handle, ?_, ?_, ?_, ?_⟩
    · simp only [view, hdeclared]
    · exact hns.trans ht.ns.symm
    · exact hnesting.trans ht.nesting.symm
    · simpa only [view, hdeclared, Option.map_some, Option.getD_some] using hlisted

/-- A module offers what it declares as it is written. -/
theorem not_offers_exports (h : s.declarations.Consistent) {key : String} {t : ExportedType}
    (ht : s.exports.types.get? key = some t) (type : TypeRef) : ¬ t.Offers type := by
  obtain ⟨declared, -, -, heq⟩ := exists_of_mem_exports h ((orderly_exports h).get?_iff.mp ht)
  rw [heq]
  rintro (hbase | ⟨m, hm, hvalue⟩)
  · obtain ⟨base, -, hbase⟩ := Option.map_eq_some_iff.mp hbase
    cases hbase
  · obtain ⟨-, member, -, heqm⟩ := mem_members_exportedType hm
    rw [heqm] at hvalue
    obtain ⟨text, -, hvalue⟩ := Option.map_eq_some_iff.mp hvalue
    cases hvalue

theorem not_offers_of_sources {index : ExportIndex}
    (h : ∀ owner table, index.table? owner = some table →
      ∃ s : SourceModule, s.declarations.Consistent ∧ table = s.exports) (n : NamedType) :
    ¬ index.Offers n := by
  rintro ⟨owner, table, key, t, type, htable, ht, hoffers, -⟩
  obtain ⟨s, hs, rfl⟩ := h owner table htable
  exact not_offers_exports hs ht type hoffers

/-- Whatever a body mentions with a handle is the module's own member of that handle, unless the type it
is mentioned with stands in something that a module of the index offers as known. -/
theorem namesOwn_of_body {name : String} {references : List String} {files : List SourceFile}
    {withLocations : Bool} (hs : s = ofOutlines name references files withLocations)
    {index : ExportIndex} (hindex : index.Holds s.exports) {id : Nat} {refs : List BodyRef}
    (hbody : s.view.body index id = .ok refs) {r : MemberRef} {usage : MemberUsage}
    (hr : .member r usage ∈ refs) {handle : Nat} (hhandle : r.handle = some handle)
    (hoffers : ¬ index.Offers r.declaring) : s.NamesOwn index r handle := by
  have h : s.declarations.Consistent := hs ▸ consistent_collect name files withLocations
  change s.body ⟨index, s.exports, s.references⟩ id = .ok refs at hbody
  unfold body at hbody
  split at hbody
  · cases hbody
  · split at hbody
    · cases hbody
    · next m _ _ t ht =>
        obtain rfl := Except.ok.inj hbody
        have hown := isOwn_ownType h ht index
        have howner : (TypeRef.named (s.ownType m.declaring t)).Each
            (Viewpoint.Traced ⟨index, s.exports, s.references⟩) :=
          TypeRef.each_named.mpr ⟨.inl (.inr ⟨_, hown⟩), List.forall_mem_nil _⟩
        rcases denotes_of_mem_references (registered h hindex) howner m hr with
          hnone | hoffered | ⟨t', m', ht', hm', hdescribes⟩
        · cases hnone.symm.trans hhandle
        · exact absurd hoffered hoffers
        · obtain rfl := Option.some.inj (hdescribes.handle.symm.trans hhandle)
          exact namesOwn_of_isOwn h ht' hm' hdescribes

/-- A module with one class, whose method `Run` calls `Help`. -/
def sampleModule (bases : List String) (more : List OutlineMember) : SourceModule :=
  let run := sampleMethod "Run" [.call (.name "Help") []]
  .ofOutlines "App" ["Lib"]
    [⟨"A.cs", [.type ⟨.classType, [], "A", [], none, bases, 0, []⟩ ((run :: more).map .member)]⟩] false
where
  sampleMethod (name : String) (body : List Code) : OutlineMember :=
    ⟨.method, [], none, name, none, [], .none, body, 0, []⟩

def helperModule : SourceModule :=
  sampleModule [] [sampleModule.sampleMethod "Help" []]

def helperIndex : ExportIndex :=
  ExportIndex.empty.add helperModule.exports []

def ownHelp : MemberRef :=
  { MemberRef.plain ⟨some "App", "", ["A"], [], some 0⟩ "Help" .method with handle := some 1 }

theorem namesOwn_of_body_helper :
    helperModule.view.body helperIndex 0 = .ok [.member ownHelp .call] ∧
      helperModule.NamesOwn helperIndex ownHelp 1 := by
  have hbody : helperModule.view.body helperIndex 0 = .ok [.member ownHelp .call] := by
    with_unfolding_all rfl
  have hsources : ∀ owner table, helperIndex.table? owner = some table →
      ∃ s : SourceModule, s.declarations.Consistent ∧ table = s.exports := by
    intro owner table htable
    refine ⟨helperModule, consistent_collect _ _ _, ?_⟩
    rw [helperIndex, ExportIndex.table?, ExportIndex.add, Dict.get?_insert] at htable
    split at htable
    · exact (Option.some.inj htable).symm
    · cases htable
  have hindex := ExportIndex.holds_add ExportIndex.owner_eq_empty helperModule.exports []
  exact ⟨hbody, namesOwn_of_body rfl hindex hbody List.mem_cons_self rfl (not_offers_of_sources hsources _)⟩

/-- A compiled library, in which `B` extends `C`, the type of handle 1, and `C` has a method `Help`. -/
def libraryExports : Exports :=
  let base : NamedType := ⟨some "Lib", "", ["C"], [], some 1⟩
  let help : ExportedMember := ⟨7, "Help", .method, [], none, false, false, false⟩
  ((Exports.empty "Lib").insert "B" ⟨0, "", ["B"], some (.resolved (.named base)), [], false, false⟩).insert
    "C" ⟨1, "", ["C"], none, [help], false, false⟩

def heirModule : SourceModule :=
  sampleModule ["B"] []

def heirIndex : ExportIndex :=
  (ExportIndex.empty.add libraryExports []).add heirModule.exports heirModule.references

def inheritedHelp : MemberRef :=
  { MemberRef.plain ⟨some "Lib", "", ["C"], [], some 1⟩ "Help" .method with handle := some 7 }

/-- The member of another module is mentioned with the handle that it has there. -/
theorem foreign_handle_of_body :
    heirIndex.Holds heirModule.exports ∧
      heirModule.view.body heirIndex 0 = .ok [.member inheritedHelp .call] ∧
      inheritedHelp.handle = some 7 ∧ ¬ heirModule.NamesOwn heirIndex inheritedHelp 7 := by
  have hlibrary : ∀ owner table,
      (ExportIndex.empty.add libraryExports []).table? owner = some table → table.owner = owner :=
    (ExportIndex.holds_add ExportIndex.owner_eq_empty libraryExports []).owner_eq
  have hbody : heirModule.view.body heirIndex 0 = .ok [.member inheritedHelp .call] := by
    with_unfolding_all rfl
  refine ⟨ExportIndex.holds_add hlibrary _ _, hbody, rfl, fun h => ?_⟩
  have howner : some "Lib" = some "App" := h.owner
  exact absurd howner (by decide)

end SourceModule

end CodeGraph.CSharp
