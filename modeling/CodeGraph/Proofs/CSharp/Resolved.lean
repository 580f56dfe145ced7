import CodeGraph.Proofs.CSharp.Compiled
import CodeGraph.Proofs.CSharp.Trees
import CodeGraph.Proofs.Name.TypeNames
import CodeGraph.Proofs.Symbol.Keys

namespace CodeGraph.CSharp

open CodeGraph.Text WrittenType

/-!
# Types shown before and after their names are looked up

Wherever a name is looked up, the type that is found has that name, so a type is shown alike as it is
written and as it is resolved. The exception is a name that stands alone and is an alias of a type with
another name: the written type shows the alias.
-/

/-! ## Names -/

namespace WrittenType

theorem IsWord.ne {w : String} (h : IsWord w) {c d : Char} (hc : c ∈ w.toList)
    (hd : isWordChar d = false) : c ≠ d := by
  rintro rfl
  rw [h.2 c hc] at hd
  cases hd

theorem IsWord.notMem {w : String} (h : IsWord w) {d : Char} (hd : isWordChar d = false) :
    d ∉ w.toList :=
  fun hmem => h.ne hmem hd rfl

/-- A word has nothing in it that canonical form would change. -/
theorem IsWord.canonicalize_eq {w : String} (h : IsWord w) : Name.canonicalize w = w := by
  have hall : ['<', '>', '(', ')', '[', ']', '.', '/', '+', ':'].all (! isWordChar ·) = true := by decide
  have hforeign : ∀ d ∈ ['<', '>', '(', ')', '[', ']', '.', '/', '+', ':'], isWordChar d = false :=
    fun d hd => by simpa using List.all_eq_true.mp hall d hd
  have hplain : ∀ c ∈ w.toList, Name.IsPlain c := by
    intro c hc
    have hne := fun d hd => h.ne hc (hforeign d hd)
    simp [Name.IsPlain, Name.isOpening, Name.isClosing, hne]
  have htrimmed : Chars.IsTrimmed w.toList :=
    ⟨fun c hc => isBlank_of_isWordChar (h.2 c (List.mem_of_head? hc)),
      fun c hc => isBlank_of_isWordChar (h.2 c (List.mem_of_getLast? hc))⟩
  have habsent : ∀ c ∈ w.toList, c ∉ Name.separators := by
    intro c hc hmem
    have hsub : Name.separators ⊆ ['<', '>', '(', ')', '[', ']', '.', '/', '+', ':'] := by decide
    exact h.ne hc (hforeign c (hsub hmem)) rfl
  have hparts : Name.TypeParts w.toList w.toList [] :=
    ⟨(List.append_nil _).symm, ⟨.of_plain hplain, htrimmed, habsent⟩, h.1, h.notMem (by decide),
      h.notMem (by decide), .none⟩
  rw [Name.canonicalize, hparts.canonicalizeChars_eq, Name.collapseArity, List.append_nil,
    String.ofList_toList]

/-- A name and the count of its arguments have no dot. -/
theorem IsWord.isOwnName_raw {name : String} (h : IsWord name) (args : List WrittenType) :
    IsOwnName (Segment.raw ⟨name, args⟩) := by
  have hname : IsOwnName name := ⟨fun hempty => h.1 (hempty ▸ rfl), h.notMem (by decide)⟩
  cases args with
  | nil => exact hname
  | cons a args =>
      have hdigits : '.' ∉ Nat.toDigits 10 (args.length + 1) := fun hdot =>
        absurd (Nat.isDigit_of_mem_toDigits (by decide) (by decide) hdot) (by decide)
      rw [raw_of_ne_nil (List.cons_ne_nil a args), List.length_cons]
      refine ⟨fun hempty => ?_, by simp [hname.2, hdigits]⟩
      have hlist := congrArg String.toList hempty
      simp at hlist

end WrittenType

namespace Viewpoint

/-! ## Lookups -/

/-- What has the name in the types and namespaces around the place. -/
def around? (v : Viewpoint) (scope : Scope) (name : String) : Option NamedType :=
  (scope.enclosing.findSome? fun key => v.find? (key ++ "." ++ name)).or
    (scope.namespaces.findSome? fun ns => v.find? (Name.join ns name))

/-- The type that an alias stands for, as far as a lookup takes it. -/
def Follows (followAlias : String → Option TypeRef) (scope : Scope) (name : String) (t : NamedType) :
    Prop :=
  ∃ target, scope.aliases.lookup name = some target ∧
    (followAlias target).bind (·.asNamed?) = some t ∧ t.owner.isSome = true

theorem lookupSimple_cases {v : Viewpoint} {followAlias : String → Option TypeRef} {scope : Scope}
    {name : String} {t : NamedType} (h : v.lookupSimple followAlias scope name = some t) :
    v.around? scope name = some t ∨
      (v.around? scope name = none ∧ Follows followAlias scope name t) ∨
      (scope.usings.findSome? fun ns => v.find? (Name.join ns name)) = some t := by
  rw [lookupSimple, ← around?] at h
  split at h
  · next found hfound =>
      obtain rfl := Option.some.inj h
      exact Or.inl hfound
  · next target hnone htarget =>
      obtain ⟨r, hr, hnamed⟩ := Option.bind_eq_some_iff.mp h
      obtain ⟨hnamed, howner⟩ := Option.filter_eq_some_iff.mp hnamed
      exact Or.inr (Or.inl ⟨hnone, target, htarget, by rw [hr]; exact hnamed, howner⟩)
  · exact Or.inr (Or.inr h)

/-- A dotted name with the text of an alias in the place of its first part. -/
def wholeName (scope : Scope) (first : String) (rest : List String) : String :=
  (scope.aliases.lookup first).elim (joinWith "." (first :: rest)) fun target =>
    Name.join target (joinWith "." rest)

theorem lookupQualified_eq (v : Viewpoint) (followAlias : String → Option TypeRef) (scope : Scope)
    (first : String) (rest : List String) :
    v.lookupQualified followAlias scope first rest =
      ((v.find? (wholeName scope first rest)).or
        (scope.namespaces.findSome? fun ns => v.find? (Name.join ns (wholeName scope first rest)))).or
        (rest.foldl (fun t name => t.bind fun t => v.find? (t.key ++ "." ++ name))
          (v.lookupSimple followAlias scope first)) := by
  rw [lookupQualified, wholeName]
  cases scope.aliases.lookup first
  all_goals
    dsimp only [Option.elim]
    split
    · next t hwhole => rw [hwhole, Option.some_or]
    · next hwhole => rw [hwhole, Option.none_or]

section

variable {v : Viewpoint} (hv : v.Keyed) {followAlias : String → Option TypeRef} {scope : Scope}
  {name : String} (hname : IsOwnName name)

include hv hname

theorem getLast?_of_namespaces {text : String} (htext : lastPart text = name.toList)
    {above : List String} {t : NamedType}
    (h : (above.findSome? fun ns => v.find? (Name.join ns text)) = some t) :
    t.nesting.getLast? = some name := by
  obtain ⟨ns, -, hfind⟩ := List.exists_of_findSome?_eq_some h
  exact getLast?_of_find? hv hfind (lastPart_join_of_lastPart htext hname ns)

theorem getLast?_of_around? {t : NamedType} (h : v.around? scope name = some t) :
    t.nesting.getLast? = some name := by
  have hself := lastPart_of_isOwnName hname
  rw [around?, Option.or_eq_some_iff] at h
  rcases h with h | ⟨-, h⟩
  · obtain ⟨key, -, hfind⟩ := List.exists_of_findSome?_eq_some h
    exact getLast?_of_find? hv hfind (by rw [lastPart_append_dot, hself])
  · exact getLast?_of_namespaces hv hname hself h

/-- A name is looked up to a type of this name, unless an alias says otherwise. -/
theorem getLast?_of_lookupSimple {t : NamedType}
    (halias : ∀ t, v.around? scope name = none → Follows followAlias scope name t →
      t.nesting.getLast? = some name)
    (h : v.lookupSimple followAlias scope name = some t) : t.nesting.getLast? = some name := by
  rcases lookupSimple_cases h with h | ⟨hnone, h⟩ | h
  · exact getLast?_of_around? hv hname h
  · exact halias t hnone h
  · exact getLast?_of_namespaces hv hname (lastPart_of_isOwnName hname) h

/-- The last part of a dotted name is looked up below another type or namespace, where no alias counts. -/
theorem getLast?_of_lookupQualified {first : String} {rest : List String} {t : NamedType}
    (hlast : rest.getLast? = some name)
    (h : v.lookupQualified followAlias scope first rest = some t) : t.nesting.getLast? = some name := by
  have hrest : lastPart (joinWith "." rest) = name.toList := by
    rw [lastPart_joinWith hlast, lastPart_of_isOwnName hname]
  have hwhole : lastPart (joinWith "." (first :: rest)) = name.toList := by
    have hcons : (first :: rest).getLast? = some name := by
      rw [List.getLast?_cons, hlast, Option.getD_some]
    rw [lastPart_joinWith hcons, lastPart_of_isOwnName hname]
  have htext : lastPart (wholeName scope first rest) = name.toList := by
    rw [wholeName]
    cases scope.aliases.lookup first with
    | none => exact hwhole
    | some target => exact lastPart_join_of_lastPart hrest hname target
  rw [lookupQualified_eq, Option.or_eq_some_iff, Option.or_eq_some_iff] at h
  rcases h with (h | ⟨-, h⟩) | ⟨-, h⟩
  · exact getLast?_of_find? hv h htext
  · exact getLast?_of_namespaces hv hname htext h
  · -- Below the type of the first part the others are found one by one; the last one counts.
    obtain ⟨before, rfl⟩ := List.getLast?_eq_some_iff.mp hlast
    rw [List.foldl_append, List.foldl_cons, List.foldl_nil] at h
    obtain ⟨outer, -, hfind⟩ := Option.bind_eq_some_iff.mp h
    exact getLast?_of_find? hv hfind (by rw [lastPart_append_dot, lastPart_of_isOwnName hname])

theorem getLast?_lookup {names : List String} (hlast : names.getLast? = some name)
    (halias : names = [name] → ∀ t, v.around? scope name = none → Follows followAlias scope name t →
      t.nesting.getLast? = some name) :
    (v.lookup followAlias scope names).nesting.getLast? = some name := by
  have hplaceholder : (v.placeholder names).nesting.getLast? = some name := by
    rw [placeholder, hlast]
    rfl
  match names with
  | [] => cases hlast
  | [single] =>
      obtain rfl : single = name := Option.some.inj hlast
      rw [lookup]
      cases hsimple : v.lookupSimple followAlias scope single with
      | none => rwa [Option.getD_none]
      | some t =>
          rw [Option.getD_some]
          exact getLast?_of_lookupSimple hv hname (halias rfl) hsimple
  | first :: second :: rest =>
      rw [List.getLast?_cons_cons] at hlast
      rw [lookup]
      · cases hqualified : v.lookupQualified followAlias scope first (second :: rest) with
        | none => rwa [Option.getD_none]
        | some t =>
            rw [Option.getD_some]
            exact getLast?_of_lookupQualified hv hname hlast hqualified
      · simp

end

end Viewpoint

/-! ## What is shown -/

namespace WrittenType

/-- A part of a written type that is a name of its own, without dots, and is shown. -/
inductive StandsAlone (s : Segment WrittenType) : WrittenType → Prop
  | self : StandsAlone s (.named [s])
  | arg {segments : List (Segment WrittenType)} {last : Segment WrittenType} {a : WrittenType}
      (hlast : segments.getLast? = some last) (ha : a ∈ last.args) (h : StandsAlone s a) :
      StandsAlone s (.named segments)
  | array {t : WrittenType} (h : StandsAlone s t) : StandsAlone s (.array t)
  | pointer {t : WrittenType} (h : StandsAlone s t) : StandsAlone s (.pointer t)
  | byRef {t : WrittenType} (h : StandsAlone s t) : StandsAlone s (.byRef t)
  | element {elements : List WrittenType} {t : WrittenType} (ht : t ∈ elements)
      (h : StandsAlone s t) : StandsAlone s (.tuple elements)

/-- A type with the name of a part is shown like that part, if their arguments are. -/
theorem displayNamed_of_raw {type : NamedType} {name : String} {args : List WrittenType}
    {refs : List TypeRef} (hlast : type.nesting.getLast? = some (Segment.raw ⟨name, args⟩))
    (hname : Name.tick ∉ name.toList) (hshown : TypeRef.displayAll refs = displayAll args) :
    TypeRef.displayNamed { type with args := refs } = displaySegments [⟨name, args⟩] := by
  cases args with
  | nil =>
      cases refs with
      | nil => exact displayNamed_of_getLast? hlast rfl
      | cons r refs => cases hshown
  | cons a args =>
      have hrefs : refs ≠ [] := by
        rintro rfl
        cases hshown
      rw [raw_of_ne_nil (List.cons_ne_nil a args)] at hlast
      rw [displayNamed_of_args hlast hname hrefs, hshown, displaySegments_args (List.cons_ne_nil a args)]

theorem canonicalize_keyword {name : String} (h : name ∈ keywordTypes.map (·.2)) :
    Name.canonicalize name = name := by
  have hall : ∀ n ∈ keywordTypes.map (·.2), Name.canonicalize n = n := by decide +kernel
  exact hall name h

end WrittenType

namespace Viewpoint

/-- Only an alias has the name, and it stands for a type of another one. -/
structure Renames (v : Viewpoint) (scope : Scope) (s : Segment WrittenType) : Prop where
  notParam : typeParam? scope [s] = none
  notAround : v.around? scope s.raw = none
  follows : ∃ t, Follows (v.followAlias scope.owner) scope s.raw t ∧ t.nesting.getLast? ≠ some s.raw

section

variable {v : Viewpoint} {followAlias : String → Option TypeRef} {scope : Scope}

theorem displayAll_of_resolveAll {args : List WrittenType} {refs : List TypeRef}
    (h : v.resolveAll followAlias scope args = some refs)
    (hargs : ∀ a ∈ args, ∀ r, v.resolveWith followAlias scope a = some r → r.display = a.display) :
    TypeRef.displayAll refs = displayAll args := by
  induction args generalizing refs with
  | nil =>
      obtain rfl := Option.some.inj h
      rfl
  | cons a args ih =>
      obtain ⟨hfirst, hmore⟩ := List.forall_mem_cons.mp hargs
      simp only [resolveAll, Option.bind_eq_bind, Option.bind_eq_some_iff, Option.pure_def] at h
      obtain ⟨r, hr, refs', hrefs, heq⟩ := h
      obtain rfl := Option.some.inj heq
      rw [TypeRef.displayAll, displayAll, hfirst r hr, ih hrefs hmore]

theorem resolveLast_append (outer : List (Segment WrittenType)) (name : String) (args : List WrittenType) :
    v.resolveLast followAlias scope (outer ++ [⟨name, args⟩]) = v.resolveAll followAlias scope args := by
  induction outer with
  | nil => rfl
  | cons first outer ih =>
      cases outer with
      | nil => rfl
      | cons second outer => exact ih

theorem typeParam?_eq_some {segments : List (Segment WrittenType)} {name : String}
    (h : typeParam? scope segments = some name) : segments = [⟨name, []⟩] := by
  unfold typeParam? at h
  split at h
  · split at h
    · obtain rfl := Option.some.inj h
      rfl
    · cases h
  · cases h

end

/-- A name is shown by its last part, whatever it is resolved to. -/
theorem display_named {v : Viewpoint} {scope : Scope} (hv : v.Keyed) {outer : List (Segment WrittenType)}
    {name : String} {args : List WrittenType} (hname : IsWord name)
    (hshown : ∀ refs, v.resolveAll (v.followAlias scope.owner) scope args = some refs →
      TypeRef.displayAll refs = displayAll args)
    (halone : outer = [] → ¬ v.Renames scope ⟨name, args⟩) {t : TypeRef}
    (h : v.resolveWith (v.followAlias scope.owner) scope (.named (outer ++ [⟨name, args⟩])) = some t) :
    t.display = (WrittenType.named (outer ++ [⟨name, args⟩])).display := by
  rw [display, displaySegments_append]
  rw [resolveWith, resolveLast_append] at h
  split at h
  · next param hparam =>
      obtain rfl := Option.some.inj h
      obtain ⟨rfl, rfl⟩ : name = param ∧ args = [] := by
        have hlast := congrArg List.getLast? (typeParam?_eq_some hparam)
        simpa using hlast
      rw [TypeRef.display]
      exact hname.canonicalize_eq.symm
  · next hparam =>
      obtain ⟨refs, hrefs, heq⟩ := Option.bind_eq_some_iff.mp h
      obtain rfl := Option.some.inj heq
      have hlast : (List.map Segment.raw (outer ++ [⟨name, args⟩])).getLast? =
          some (Segment.raw ⟨name, args⟩) := by
        simp
      refine displayNamed_of_raw (getLast?_lookup hv (hname.isOwnName_raw args) hlast ?_)
        (hname.notMem (by decide)) (hshown refs hrefs)
      -- An alias counts only for a name without dots, where it would rename.
      intro hsingle t hnone hfollows
      obtain rfl : outer = [] := by simpa using hsingle
      by_contra hne
      exact halone rfl ⟨hparam, hnone, t, hfollows, hne⟩

/-- What is shown of a resolved type is what is shown of it as it is written. -/
theorem display_resolveWritten {v : Viewpoint} {scope : Scope} (hv : v.Keyed) {s : WrittenType}
    (hs : IsTree s) (hnames : ∀ part, StandsAlone part s → ¬ v.Renames scope part) {t : TypeRef}
    (h : v.resolveWritten scope s = some t) : t.display = s.display := by
  unfold resolveWritten at h
  induction hs generalizing t with
  | @keyword name hname =>
      have hlast : [name].getLast? = some name := rfl
      rw [resolveWith] at h
      obtain rfl := Option.some.inj h
      rw [coreType, TypeRef.display, Named.simple, displayNamed_of_getLast? hlast rfl,
        canonicalize_keyword hname, display]
  | @named outer name args hname hargs ih =>
      refine display_named hv hname (fun refs hrefs => ?_) ?_ h
      · exact displayAll_of_resolveAll hrefs fun a ha r hr =>
          ih a ha (fun part hpart => hnames part (.arg List.getLast?_concat ha hpart)) hr
      · rintro rfl
        exact hnames _ .self
  | array hs ih =>
      rw [resolveWith] at h
      obtain ⟨r, hr, rfl⟩ := Option.map_eq_some_iff.mp h
      rw [TypeRef.display, display, ih (fun part hpart => hnames part (.array hpart)) hr]
  | pointer hs ih =>
      rw [resolveWith] at h
      obtain ⟨r, hr, rfl⟩ := Option.map_eq_some_iff.mp h
      rw [TypeRef.display, display, ih (fun part hpart => hnames part (.pointer hpart)) hr]
  | byRef hs ih =>
      rw [resolveWith] at h
      obtain ⟨r, hr, rfl⟩ := Option.map_eq_some_iff.mp h
      rw [TypeRef.display, display, ih (fun part hpart => hnames part (.byRef hpart)) hr]
  | @tuple elements hne hall ih =>
      rw [resolveWith] at h
      obtain ⟨refs, hrefs, heq⟩ := Option.bind_eq_some_iff.mp h
      obtain rfl := Option.some.inj heq
      have hshown : TypeRef.displayAll refs = displayAll elements :=
        displayAll_of_resolveAll hrefs fun a ha r hr =>
          ih a ha (fun part hpart => hnames part (.element ha hpart)) hr
      have hraw : Segment.raw ⟨"ValueTuple", elements⟩ = "ValueTuple\x60" ++ toString elements.length :=
        raw_of_ne_nil hne
      rw [← hraw, TypeRef.display, display]
      exact (displayNamed_of_raw rfl (by decide) hshown).trans (displaySegments_args hne)
  | inferred =>
      rw [resolveWith] at h
      cases h

/-- A type text is shown in signatures like the type that it is resolved to, if no word of it is empty and
no name that stands alone is an alias of a type with another name. -/
theorem display_eq_of_resolve {v : Viewpoint} (hv : v.Keyed) {scope : Scope} {text : String}
    {s : WrittenType} {t : TypeRef} (hwords : WrittenType.Token.word "" ∉ WrittenType.tokens text.toList)
    (hparse : parse? text = some s)
    (hnames : ∀ part, StandsAlone part s → ¬ v.Renames scope part)
    (h : v.resolveWritten scope s = some t) : s.display = t.display ∧ displayText text = t.display := by
  have hdisplay := display_resolveWritten hv (isTree_of_parse? hwords hparse) hnames h
  refine ⟨hdisplay.symm, ?_⟩
  rw [displayText, hparse, hdisplay]

/-! ## Aliases -/

theorem lookupSimple_of_follows {v : Viewpoint} {followAlias : String → Option TypeRef} {scope : Scope}
    {name : String} {t : NamedType} (hnone : v.around? scope name = none)
    (h : Follows followAlias scope name t) : v.lookupSimple followAlias scope name = some t := by
  obtain ⟨target, htarget, hfollow, howner⟩ := h
  obtain ⟨r, hr, hnamed⟩ := Option.bind_eq_some_iff.mp hfollow
  rw [lookupSimple, ← around?, hnone, htarget]
  simp [hr, hnamed, howner]

/-- The type of an alias that stands alone loses its arguments, and is shown without regard to the alias. -/
theorem resolveWritten_of_follows {v : Viewpoint} {scope : Scope} {name : String} {t : NamedType}
    (hparam : scope.typeParams.contains name = false) (hnone : v.around? scope name = none)
    (h : Follows (v.followAlias scope.owner) scope name t) :
    v.resolveWritten scope (.named [⟨name, []⟩]) = some (.named { t with args := [] }) := by
  have hlookup := lookupSimple_of_follows hnone h
  have hraw : Segment.raw (⟨name, []⟩ : Segment WrittenType) = name := rfl
  rw [resolveWritten, resolveWith, typeParam?, hparam]
  simp [resolveLast, resolveAll, lookup, hraw, hlookup]

def sampleExport : ExportedType :=
  ⟨0, "N", ["Outer"], none, [], false, false⟩

/-- The exports of a module with the type `N.Outer`. -/
def sampleExports : Exports :=
  (Exports.empty "App").insert (exportKey sampleExport.ns sampleExport.nesting) sampleExport

def sampleView : Viewpoint :=
  ⟨ExportIndex.empty.add sampleExports [], sampleExports, []⟩

/-- A scope in which a name stands for `N.Outer`. -/
def sampleScope (name : String) : Scope :=
  { Scope.outermost "App" with aliases := [(name, "N.Outer")] }

def sampleType : NamedType :=
  ⟨some "App", "N", ["Outer"], [], some 0⟩

theorem keyed_sampleView : sampleView.Keyed := by
  have hname : IsOwnName "Outer" := ⟨by decide, by decide⟩
  have hlast : sampleExport.nesting.getLast? = some "Outer" := rfl
  have hexports : sampleExports.Keyed := (Exports.keyed_empty "App").insert hlast hname
  exact ⟨hexports, ExportIndex.keyed_empty.add hexports []⟩

theorem parse?_of_word {name : String} (h : IsName name)
    (htokens : WrittenType.tokens name.toList = [.word name]) :
    parse? name = some (.named [⟨name, []⟩]) := by
  have hspells : Spells (fun _ => True) (.named [⟨name, []⟩]) [.word name] :=
    .of_primary (.named h (.last .none))
  exact parse?_eq_some hspells (htokens ▸ lexes_tokens _)

theorem followAlias_sampleView : sampleView.followAlias "App" "N.Outer" = some (.named sampleType) := by
  have htokens : WrittenType.tokens "N.Outer".toList = [.word "N", .mark '.', .word "Outer"] := by
    decide +kernel
  have hspells : Spells (fun _ => True) (.named [⟨"N", []⟩, ⟨"Outer", []⟩])
      [.word "N", .mark '.', .word "Outer"] :=
    .of_primary (.named ⟨by decide, by decide, by decide⟩ (.cons .none (.last .none)))
  rw [followAlias, parse?_eq_some hspells (htokens ▸ lexes_tokens _)]
  rfl

theorem follows_sampleScope (name : String) :
    Follows (sampleView.followAlias "App") (sampleScope name) name sampleType := by
  refine ⟨"N.Outer", by simp [sampleScope], ?_, rfl⟩
  rw [followAlias_sampleView]
  rfl

theorem resolve_sampleScope {name : String} (hnone : sampleView.around? (sampleScope name) name = none) :
    sampleView.resolveWritten (sampleScope name) (.named [⟨name, []⟩]) = some (.named sampleType) :=
  resolveWritten_of_follows rfl hnone (follows_sampleScope name)

def sampleWritten : WrittenType :=
  .byRef (.array (.named [⟨"List", [.named [⟨"Outer", []⟩]]⟩]))

/-- Of the two names in the type one has an alias, which keeps it. -/
theorem not_renames_sampleWritten {part : Segment WrittenType} (h : StandsAlone part sampleWritten) :
    ¬ sampleView.Renames (sampleScope "Outer") part := by
  rintro ⟨-, -, t, ⟨target, htarget, hfollow, -⟩, hne⟩
  have hpart : part = ⟨"List", [.named [⟨"Outer", []⟩]]⟩ ∨ part = ⟨"Outer", []⟩ := by
    cases h with
    | byRef h =>
        cases h with
        | array h =>
            cases h with
            | self => exact Or.inl rfl
            | arg hlast ha h =>
                obtain rfl := Option.some.inj hlast
                obtain rfl := List.mem_singleton.mp ha
                cases h with
                | self => exact Or.inr rfl
                | arg hlast ha h =>
                    obtain rfl := Option.some.inj hlast
                    cases ha
  rcases hpart with rfl | rfl
  · have hnone : (sampleScope "Outer").aliases.lookup "List\x601" = none := rfl
    exact absurd (hnone.symm.trans htarget) (by simp)
  · obtain rfl : "N.Outer" = target := Option.some.inj htarget
    have hfollow' := congrArg (Option.bind · (·.asNamed?)) followAlias_sampleView
    obtain rfl := Option.some.inj (hfollow'.symm.trans hfollow)
    exact hne rfl

/-- A reference to an array, whose elements mention a type by an alias. -/
theorem display_eq_of_resolve_list :
    sampleView.Keyed ∧ parse? "ref List<Outer>[]" = some sampleWritten ∧
      ∃ t, sampleView.resolveWritten (sampleScope "Outer") sampleWritten = some t ∧
        sampleWritten.display = t.display ∧ displayText "ref List<Outer>[]" = t.display := by
  have htokens : WrittenType.tokens "ref List<Outer>[]".toList =
      ["ref"].map .word ++ [.word "List", .mark '<', .word "Outer", .mark '>', .mark '[', .mark ']'] := by
    decide +kernel
  have hword : WrittenType.Token.word "" ∉ WrittenType.tokens "ref List<Outer>[]".toList := by
    rw [htokens]
    decide
  have houter : Spells (fun _ => True) (.named [⟨"Outer", []⟩]) [.word "Outer"] :=
    .of_primary (.named ⟨by decide, by decide, by decide⟩ (.last .none))
  have hlist : SpellsPrimary (fun _ => True) (.named [⟨"List", [.named [⟨"Outer", []⟩]]⟩])
      [.word "List", .mark '<', .word "Outer", .mark '>'] :=
    .named ⟨by decide, by decide, by decide⟩ (.last (.some (.last houter)))
  have hparse : parse? "ref List<Outer>[]" = some sampleWritten :=
    parse?_eq_some (.byRef (by decide) (by decide) hlist (.rank 0)) (htokens ▸ lexes_tokens _)
  have hnone : sampleView.around? (sampleScope "Outer") "Outer" = none := rfl
  have harg := resolve_sampleScope hnone
  have hresolve : (sampleView.resolveWritten (sampleScope "Outer") sampleWritten).isSome = true := by
    rw [resolveWritten] at harg ⊢
    rw [sampleWritten, resolveWith, resolveWith, resolveWith]
    simp [typeParam?, resolveLast, resolveAll, harg]
  obtain ⟨t, ht⟩ := Option.isSome_iff_exists.mp hresolve
  obtain ⟨hshown, htext⟩ := display_eq_of_resolve keyed_sampleView hword hparse
    (fun _ => not_renames_sampleWritten) ht
  exact ⟨keyed_sampleView, hparse, t, ht, hshown, htext⟩

/-- The written type shows the alias, and the resolved one the type that it stands for. -/
theorem display_alias_ne :
    sampleView.Keyed ∧ WrittenType.Token.word "" ∉ WrittenType.tokens "O".toList ∧
      ∃ s t, parse? "O" = some s ∧ sampleView.resolveWritten (sampleScope "O") s = some t ∧
        s.display = "O" ∧ t.display = "Outer" := by
  have htokens : WrittenType.tokens "O".toList = [.word "O"] := by decide +kernel
  have hparse : parse? "O" = some (.named [⟨"O", []⟩]) :=
    parse?_of_word ⟨by decide, by decide, by decide⟩ htokens
  have hnone : sampleView.around? (sampleScope "O") "O" = none := rfl
  exact ⟨keyed_sampleView, by rw [htokens]; decide, _, _, hparse, resolve_sampleScope hnone,
    by decide +kernel, by decide +kernel⟩

end Viewpoint

end CodeGraph.CSharp
