import CodeGraph.Proofs.CSharp.Resolved

namespace CodeGraph

/-!
# Further usings

Usings are the last place where a name is looked up, and they are asked one after the other. One that is
put behind the others is asked for names that nothing else answers to, so every name that was found keeps
its meaning, whether it stands alone, begins a dotted name or is an argument.
-/

/-- The scope with usings behind its own. -/
def Scope.withUsings (scope : Scope) (more : List String) : Scope :=
  { scope with usings := scope.usings ++ more }

namespace CSharp

/-- A name that is looked up to resolve a written type. -/
inductive WrittenType.Mentions (segments : List (Segment WrittenType)) : WrittenType → Prop
  | self : Mentions segments (.named segments)
  | arg {name : List (Segment WrittenType)} {last : Segment WrittenType} {a : WrittenType}
      (hlast : name.getLast? = some last) (ha : a ∈ last.args) (h : Mentions segments a) :
      Mentions segments (.named name)
  | array {t : WrittenType} (h : Mentions segments t) : Mentions segments (.array t)
  | pointer {t : WrittenType} (h : Mentions segments t) : Mentions segments (.pointer t)
  | byRef {t : WrittenType} (h : Mentions segments t) : Mentions segments (.byRef t)
  | element {elements : List WrittenType} {t : WrittenType} (ht : t ∈ elements)
      (h : Mentions segments t) : Mentions segments (.tuple elements)

namespace Viewpoint

open WrittenType

variable {v : Viewpoint} {followAlias : String → Option TypeRef} {scope : Scope}

/-- What answers to a name, if anything does. -/
def lookup? (v : Viewpoint) (followAlias : String → Option TypeRef) (scope : Scope) :
    List String → Option NamedType
  | [] => none
  | [raw] => v.lookupSimple followAlias scope raw
  | first :: rest => v.lookupQualified followAlias scope first rest

theorem lookup_eq (names : List String) :
    v.lookup followAlias scope names = (v.lookup? followAlias scope names).getD (v.placeholder names) := by
  cases names with
  | nil => rfl
  | cons first rest => cases rest <;> rfl

/-- Something answers to every name of the type, so that none of them is guessed. -/
def Found (v : Viewpoint) (followAlias : String → Option TypeRef) (scope : Scope) (w : WrittenType) :
    Prop :=
  ∀ segments, Mentions segments w → typeParam? scope segments = none →
    (v.lookup? followAlias scope (segments.map (·.raw))).isSome = true

/-! ## Lookups -/

section Lookups

variable {t : NamedType} (more : List String)

theorem lookupSimple_withUsings {name : String} (h : v.lookupSimple followAlias scope name = some t) :
    v.lookupSimple followAlias (scope.withUsings more) name = some t := by
  have haround : v.around? (scope.withUsings more) name = v.around? scope name := rfl
  have haliases : (scope.withUsings more).aliases = scope.aliases := rfl
  have husings : (scope.withUsings more).usings = scope.usings ++ more := rfl
  rw [lookupSimple, ← around?] at h ⊢
  rw [haround, haliases, husings, List.findSome?_append]
  split at h
  · exact h
  · exact h
  · rw [h, Option.some_or]

/-- Where nothing answers to the first part, nothing is found below it. -/
theorem foldl_below_eq_some {rest : List String} {first : Option NamedType}
    (h : rest.foldl (fun t name => t.bind fun t => v.find? (t.key ++ "." ++ name)) first = some t) :
    ∃ outer, first = some outer := by
  cases first with
  | some outer => exact ⟨outer, rfl⟩
  | none =>
      induction rest with
      | nil => cases h
      | cons name rest ih => exact ih h

theorem lookupQualified_withUsings {first : String} {rest : List String}
    (h : v.lookupQualified followAlias scope first rest = some t) :
    v.lookupQualified followAlias (scope.withUsings more) first rest = some t := by
  have hname : wholeName (scope.withUsings more) first rest = wholeName scope first rest := rfl
  have hnamespaces : (scope.withUsings more).namespaces = scope.namespaces := rfl
  rw [lookupQualified_eq] at h ⊢
  rw [hname, hnamespaces]
  rw [Option.or_eq_some_iff] at h ⊢
  refine h.imp_right fun hbelow => ⟨hbelow.1, ?_⟩
  obtain ⟨outer, houter⟩ := foldl_below_eq_some hbelow.2
  rw [lookupSimple_withUsings more houter, ← houter]
  exact hbelow.2

theorem lookup?_withUsings {names : List String} (h : v.lookup? followAlias scope names = some t) :
    v.lookup? followAlias (scope.withUsings more) names = some t := by
  cases names with
  | nil => cases h
  | cons first rest =>
      cases rest with
      | nil => exact lookupSimple_withUsings more h
      | cons second rest => exact lookupQualified_withUsings more h

theorem lookup_withUsings {names : List String} (h : (v.lookup? followAlias scope names).isSome = true) :
    v.lookup followAlias (scope.withUsings more) names = v.lookup followAlias scope names := by
  obtain ⟨t, ht⟩ := Option.isSome_iff_exists.mp h
  rw [lookup_eq, lookup_eq, ht, lookup?_withUsings more ht]

end Lookups

/-! ## Types -/

mutual

theorem resolveWith_withUsings (more : List String) (w : WrittenType) (h : v.Found followAlias scope w) :
    v.resolveWith followAlias (scope.withUsings more) w = v.resolveWith followAlias scope w := by
  cases w with
  | inferred => rfl
  | keyword name => rfl
  | array w =>
      rw [resolveWith, resolveWith, resolveWith_withUsings more w fun s hs => h s (.array hs)]
  | pointer w =>
      rw [resolveWith, resolveWith, resolveWith_withUsings more w fun s hs => h s (.pointer hs)]
  | byRef w =>
      rw [resolveWith, resolveWith, resolveWith_withUsings more w fun s hs => h s (.byRef hs)]
  | tuple elements =>
      rw [resolveWith, resolveWith,
        resolveAll_withUsings more elements fun w hw s hs => h s (.element hw hs)]
  | named segments =>
      have hparam : typeParam? (scope.withUsings more) segments = typeParam? scope segments := rfl
      rw [resolveWith, resolveWith, hparam]
      split
      · rfl
      · next hnone =>
          rw [lookup_withUsings more (h segments .self hnone),
            resolveLast_withUsings more segments fun last hlast w hw s hs => h s (.arg hlast hw hs)]

theorem resolveAll_withUsings (more : List String) (ws : List WrittenType)
    (h : ∀ w ∈ ws, v.Found followAlias scope w) :
    v.resolveAll followAlias (scope.withUsings more) ws = v.resolveAll followAlias scope ws := by
  cases ws with
  | nil => rfl
  | cons w ws =>
      obtain ⟨hfirst, hmore⟩ := List.forall_mem_cons.mp h
      rw [resolveAll, resolveAll, resolveWith_withUsings more w hfirst,
        resolveAll_withUsings more ws hmore]

theorem resolveLast_withUsings (more : List String) (segments : List (Segment WrittenType))
    (h : ∀ last, segments.getLast? = some last → ∀ w ∈ last.args, v.Found followAlias scope w) :
    v.resolveLast followAlias (scope.withUsings more) segments =
      v.resolveLast followAlias scope segments := by
  cases segments with
  | nil => rfl
  | cons first rest =>
      cases rest with
      | nil =>
          obtain ⟨name, args⟩ := first
          exact resolveAll_withUsings more args (h ⟨name, args⟩ rfl)
      | cons second rest =>
          exact resolveLast_withUsings more (second :: rest) fun last hlast =>
            h last (by simpa using hlast)

end

/-- A type all names of which are found is the same one with more usings behind those of the scope. -/
theorem resolve_withUsings {scope : Scope} {text : String}
    (hfound : ∀ w, parse? text = some w → v.Found (v.followAlias scope.owner) scope w) {t : TypeRef}
    (h : v.resolve scope text = some t) (more : List String) :
    v.resolve (scope.withUsings more) text = some t := by
  obtain ⟨w, hparse, hresolve⟩ := Option.bind_eq_some_iff.mp h
  rw [resolve, hparse, Option.bind_some, ← hresolve]
  exact resolveWith_withUsings more w (hfound w hparse)

/-! ## An ambiguous name -/

def twiceExport (id : Nat) (ns name : String) : ExportedType :=
  ⟨id, ns, [name], none, [], false, false⟩

/-- The exports of a module with types of two names in each of two namespaces. -/
def twiceExports : Exports :=
  [twiceExport 0 "N" "Box\x601", twiceExport 1 "N" "Item", twiceExport 2 "M" "Box\x601",
      twiceExport 3 "M" "Item"].foldl
    (fun exports t => exports.insert (exportKey t.ns t.nesting) t) (Exports.empty "App")

def twiceView : Viewpoint :=
  ⟨ExportIndex.empty.add twiceExports [], twiceExports, []⟩

def twiceScope : Scope :=
  { Scope.outermost "App" with usings := ["N"] }

def twiceWritten : WrittenType :=
  .named [⟨"Box", [.array (.named [⟨"Item", []⟩])]⟩]

/-- What the text means by the first using. -/
def twiceBox : TypeRef :=
  .named ⟨some "App", "N", ["Box\x601"], [.array (.named ⟨some "App", "N", ["Item"], [], some 1⟩)], some 0⟩

theorem mentions_twiceWritten {segments : List (Segment WrittenType)} (h : Mentions segments twiceWritten) :
    segments = [⟨"Box", [.array (.named [⟨"Item", []⟩])]⟩] ∨ segments = [⟨"Item", []⟩] := by
  cases h with
  | self => exact Or.inl rfl
  | arg hlast ha h =>
      obtain rfl := Option.some.inj hlast
      obtain rfl := List.mem_singleton.mp ha
      cases h with
      | array h =>
          cases h with
          | self => exact Or.inr rfl
          | arg hlast ha h =>
              obtain rfl := Option.some.inj hlast
              cases ha

theorem parse?_twiceWritten : parse? "Box<Item[]>" = some twiceWritten := by
  have htokens : WrittenType.tokens "Box<Item[]>".toList =
      [.word "Box", .mark '<', .word "Item", .mark '[', .mark ']', .mark '>'] := by
    decide +kernel
  have hitem : SpellsPrimary (fun _ => True) (.named [⟨"Item", []⟩]) [.word "Item"] :=
    .named ⟨by decide, by decide, by decide⟩ (.last .none)
  have hbox : SpellsPrimary (fun _ => True) twiceWritten
      [.word "Box", .mark '<', .word "Item", .mark '[', .mark ']', .mark '>'] :=
    .named ⟨by decide, by decide, by decide⟩
      (.last (.some (.last (.plain (List.nil_subset _) hitem (.rank 0)))))
  exact parse?_eq_some (.of_primary hbox) (htokens ▸ lexes_tokens _)

/-- The names keep the meaning of the first using, although the second one has them too. -/
theorem resolve_withUsings_twice :
    (∀ w, parse? "Box<Item[]>" = some w →
        twiceView.Found (twiceView.followAlias "App") twiceScope w) ∧
      twiceView.resolve twiceScope "Box<Item[]>" = some twiceBox ∧
      twiceView.resolve (twiceScope.withUsings ["M"]) "Box<Item[]>" = some twiceBox := by
  have hfound : ∀ w, parse? "Box<Item[]>" = some w →
      twiceView.Found (twiceView.followAlias "App") twiceScope w := by
    intro w hw segments hmentions _
    obtain rfl := Option.some.inj (parse?_twiceWritten.symm.trans hw)
    rcases mentions_twiceWritten hmentions with rfl | rfl <;> rfl
  have hresolve : twiceView.resolve twiceScope "Box<Item[]>" = some twiceBox := by
    rw [resolve, parse?_twiceWritten]
    rfl
  exact ⟨hfound, hresolve, resolve_withUsings hfound hresolve ["M"]⟩

end Viewpoint

end CSharp

end CodeGraph
