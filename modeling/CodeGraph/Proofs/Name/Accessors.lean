import CodeGraph.Proofs.Name.Closing
import CodeGraph.Proofs.Name.TypeExpressions

namespace CodeGraph.Name

open CodeGraph.Text

/-!
# Accessors

The methods that read and write a property are named after it. Whatever parameters they take, and
whatever interface is written in front of their names, their segment is that of the property.
-/

/-! ## Explicit implementations -/

/-- The characters of type expressions that are neither dots nor characters of names. -/
def typeMarks : Chars :=
  '<' :: '>' :: markChars

theorem TypeExpr.mem_chars (t : TypeExpr) {c : Char} (h : c ∈ t.chars) :
    c = '.' ∨ IsNameChar c ∨ c ∈ typeMarks := by
  induction t with
  | mk above name args marks ih =>
      rw [chars, charsAll_eq, List.mem_append, List.mem_append] at h
      rcases h with (h | h) | h
      · exact (mem_dottedName above name h).imp_right Or.inl
      · cases args with
        | nil => cases h
        | cons first more =>
            rw [enclosed_of_ne_nil (by simp), List.mem_cons, List.mem_append, List.mem_singleton] at h
            rcases h with rfl | h | rfl
            · exact Or.inr (Or.inr (by decide))
            · rcases Chars.mem_joinWith h with h | ⟨a, ha, h⟩
              · obtain rfl := List.mem_singleton.mp h
                exact Or.inr (Or.inr (by decide))
              · obtain ⟨t, ht, rfl⟩ := List.mem_map.mp ha
                exact ih t ht h
            · exact Or.inr (Or.inr (by decide))
      · obtain ⟨mark, -, h⟩ := List.mem_flatMap.mp h
        exact Or.inr (Or.inr (List.mem_cons_of_mem _ (List.mem_cons_of_mem _ (mark.mem_chars h))))

/-- An interface as it stands in front of a name: its parts may have arguments. -/
def qualifier (interface : List TypeExpr) : Chars :=
  interface.flatMap fun t => t.chars ++ ['.']

def qualifiedName (interface : List TypeExpr) (name : String) : String :=
  .ofList (qualifier interface ++ name.toList)

section Qualifier

variable (interface : List TypeExpr)

theorem toList_qualifiedName (name : String) :
    (qualifiedName interface name).toList = qualifier interface ++ name.toList :=
  String.toList_ofList

theorem mem_qualifier {c : Char} (h : c ∈ qualifier interface) :
    c = '.' ∨ IsNameChar c ∨ c ∈ typeMarks := by
  obtain ⟨t, -, h⟩ := List.mem_flatMap.mp h
  rcases List.mem_append.mp h with h | h
  · exact t.mem_chars h
  · exact Or.inl (List.mem_singleton.mp h)

theorem nested_qualifier : Nested (qualifier interface) := by
  induction interface with
  | nil => exact .nil
  | cons t interface ih =>
      rw [qualifier, List.flatMap_cons]
      exact (t.isArgument_chars.nested.append (.of_all (by decide))).append ih

/-- With its dots written otherwise, the interface ends in front of the name. -/
theorem escapeDots_qualifier :
    escapeDots (qualifier interface) = [] ∨ ∃ y, escapeDots (qualifier interface) = y ++ ['*'] := by
  rcases List.eq_nil_or_concat interface with rfl | ⟨more, t, rfl⟩
  · exact Or.inl rfl
  · exact Or.inr ⟨escapeDots (qualifier more ++ t.chars), by simp [qualifier, escapeDots]⟩

variable {name : String} (hname : IsIdentifier name)

include hname

theorem escapeDots_qualifiedName :
    escapeDots (qualifiedName interface name).toList = escapeDots (qualifier interface) ++ name.toList := by
  have hkept := escapeDots_eq_self (hname.notMem (d := '.') (by decide))
  rw [toList_qualifiedName, escapeDots, List.map_append]
  exact congrArg (escapeDots (qualifier interface) ++ ·) hkept

theorem mem_qualifiedName {c : Char} (h : c ∈ (qualifiedName interface name).toList) :
    c = '.' ∨ IsNameChar c ∨ c ∈ typeMarks := by
  rw [toList_qualifiedName, List.mem_append] at h
  exact h.elim (mem_qualifier interface) fun h => Or.inr (Or.inl (hname.chars c h))

/-- The passes before that of the parameters find nothing to change in such a name. -/
theorem quiet_qualifiedName : IsQuiet (escapeDots (qualifiedName interface name).toList) ∧
    tick ∉ escapeDots (qualifiedName interface name).toList ∧
    escapeDots (qualifiedName interface name).toList ≠ [] := by
  have hmarks : typeMarks.all
      (fun c => !isBlank c && !(['/', '+', ':', tick].contains c)) = true := by decide
  have hchars : ∀ c ∈ (qualifiedName interface name).toList,
      isBlank c = false ∧ c ∉ ['/', '+', ':', tick] := by
    intro c hc
    rcases mem_qualifiedName interface hname hc with rfl | hc | hc
    · decide
    · have hsubset : ['/', '+', ':', tick] ⊆ nameMarks := by decide
      exact ⟨hc.2.1, fun hforeign => hc.2.2 (hsubset hforeign)⟩
    · simpa using List.all_eq_true.mp hmarks c hc
  have hnested : Nested (qualifiedName interface name).toList := by
    rw [toList_qualifiedName]
    exact (nested_qualifier interface).append hname.quiet.nested
  refine ⟨.escapeDots ⟨hnested, ⟨?_, ?_⟩, ?_⟩, ?_, ?_⟩
  · exact fun c hc => (hchars c (List.mem_of_head? hc)).1
  · exact fun c hc => (hchars c (List.mem_of_getLast? hc)).1
  · exact fun c hc hforeign => (hchars c hc).2 (List.mem_append_left [tick] hforeign)
  · intro htick
    rcases mem_escapeDots htick with heq | ⟨hmem, -⟩
    · exact absurd heq (by decide)
    · exact (hchars tick hmem).2 (by decide)
  · rw [escapeDots_qualifiedName interface hname]
    exact fun hnil => hname.toList_ne_nil (List.append_eq_nil_iff.mp hnil).2

theorem memberHead_qualifiedName :
    memberHead (qualifiedName interface name) = escapeDots (qualifiedName interface name).toList := by
  have hhead : (qualifiedName interface name).toList.head? ≠ some '.' := by
    rw [toList_qualifiedName]
    cases interface with
    | nil => exact fun hdot => hname.notMem (by decide) (List.mem_of_head? hdot)
    | cons t interface =>
        obtain ⟨above, first, args, marks⟩ := t
        obtain ⟨c, s, hs, hc⟩ := exists_dottedName above first
        simpa [qualifier, TypeExpr.chars, hs] using hc.ne (by decide)
  rw [memberHead, if_neg, if_neg] <;>
  · intro heq
    rw [heq] at hhead
    exact hhead (by decide)

end Qualifier

/-! ## Properties -/

def accessorVerbs : List String :=
  ["get_", "set_"]

theorem accessorProperty_eq {pre x : Chars} (hpre : pre = [] ∨ ∃ y, pre = y ++ ['*']) {verb : String}
    (hverb : verb ∈ accessorVerbs) (hx : x ≠ []) (hstar : '*' ∉ x) :
    accessorProperty (pre ++ (verb.toList ++ x)) = some (pre ++ x) := by
  obtain ⟨c, x, rfl⟩ := List.exists_cons_of_ne_nil hx
  have htail : '*' ∉ verb.toList ++ c :: x := by
    have hverbs : ∀ verb ∈ accessorVerbs, '*' ∉ verb.toList := by decide
    exact List.not_mem_append (hverbs verb hverb) hstar
  have hbehind : Chars.behindLast '*' (pre ++ (verb.toList ++ c :: x)) = verb.toList ++ c :: x := by
    rcases hpre with rfl | ⟨y, rfl⟩
    · exact Chars.behindLast_of_notMem htail
    · rw [List.append_assoc, List.singleton_append, Chars.behindLast_append_cons,
        Chars.behindLast_of_notMem htail]
  have hupTo : Chars.upToLast '*' (pre ++ (verb.toList ++ c :: x)) = pre := by
    have hwhole := Chars.upToLast_append_behindLast '*' (pre ++ (verb.toList ++ c :: x))
    rw [hbehind] at hwhole
    exact List.append_cancel_right hwhole
  have hread : (Chars.dropPrefix? ['g', 'e', 't', '_'] (verb.toList ++ c :: x)).or
      (Chars.dropPrefix? ['s', 'e', 't', '_'] (verb.toList ++ c :: x)) = some (c :: x) := by
    simp only [accessorVerbs, List.mem_cons, List.not_mem_nil, or_false] at hverb
    rcases hverb with rfl | rfl <;> simp [Chars.dropPrefix?]
  rw [Chars.behindLast] at hbehind
  rw [Chars.upToLast] at hupTo
  simp only [accessorProperty, hbehind, hupTo, hread]

/-- The parameters of an accessor leave no trace. -/
theorem canonicalizeChars_accessor {pre x params : Chars} (hpre : pre = [] ∨ ∃ y, pre = y ++ ['*'])
    {verb : String} (hverb : verb ∈ accessorVerbs) (hx : x ≠ []) (hstar : '*' ∉ x)
    (hquiet : IsQuiet (pre ++ (verb.toList ++ x))) (htick : tick ∉ pre ++ (verb.toList ++ x))
    (hparams : Closes 0 params) :
    canonicalizeChars (pre ++ (verb.toList ++ x) ++ '(' :: (params ++ [')'])) = pre ++ x := by
  have hne : pre ++ (verb.toList ++ x) ≠ [] := by simp [hx]
  obtain ⟨settled, hclosed, hsettle⟩ := KeepsHead.settle hne hquiet htick params hparams
  rw [canonicalizeChars_eq, hsettle, finish, hclosed.splitParameters_eq hne]
  simp only [hquiet.splitLast_eq, accessorProperty_eq hpre hverb hx hstar]
  rfl

/-- The accessors of a property have its segment, which is its name with the dots written otherwise. -/
theorem memberSegment_accessor (interface : List TypeExpr) {property : String}
    (hproperty : IsIdentifier property) {params : List String}
    (hparams : ∀ p ∈ params, Closes 0 p.toList) (others : List String) :
    ∀ verb ∈ accessorVerbs,
      memberSegment (qualifiedName interface (verb ++ property)) params true =
          memberSegment (qualifiedName interface property) others false ∧
        memberSegment (qualifiedName interface property) others false =
          moduleSegment (qualifiedName interface property) := by
  intro verb hverb
  have haccessor : IsIdentifier (verb ++ property) := by
    have hverbs : ∀ verb ∈ accessorVerbs, IsIdentifier verb := by decide
    refine ⟨fun hempty => hproperty.ne_empty (String.append_eq_empty_iff.mp hempty).2, fun c hc => ?_⟩
    rw [String.toList_append, List.mem_append] at hc
    exact hc.elim ((hverbs verb hverb).chars c) (hproperty.chars c)
  have hplain : (memberSegment (qualifiedName interface property) others false).toList =
      escapeDots (qualifiedName interface property).toList := by
    obtain ⟨hquiet, htick, -⟩ := quiet_qualifiedName interface hproperty
    have hrendered := rendered_of_notMem htick
    rw [toList_memberSegment, memberHead_qualifiedName interface hproperty]
    exact (hquiet.canonicalizeChars_eq (hrendered.symm ▸ hquiet.nested)).trans hrendered
  have hmethod : (memberSegment (qualifiedName interface (verb ++ property)) params true).toList =
      escapeDots (qualifiedName interface property).toList := by
    have hclosed : Closes 0 (Chars.joinWith [','] (params.map String.toList)) := by
      refine .joinWith fun part hpart => ?_
      obtain ⟨p, hp, rfl⟩ := List.mem_map.mp hpart
      exact hparams p hp
    obtain ⟨hquiet, htick, -⟩ := quiet_qualifiedName interface haccessor
    rw [escapeDots_qualifiedName interface haccessor, String.toList_append] at hquiet htick
    rw [toList_memberSegment, if_pos rfl, methodText, memberHead_qualifiedName interface haccessor,
      escapeDots_qualifiedName interface haccessor, escapeDots_qualifiedName interface hproperty,
      String.toList_append]
    exact canonicalizeChars_accessor (escapeDots_qualifier interface) hverb hproperty.toList_ne_nil
      (hproperty.notMem (by decide)) hquiet htick hclosed
  refine ⟨String.toList_injective (hmethod.trans hplain.symm), String.toList_injective ?_⟩
  rw [hplain, moduleSegment, String.toList_ofList]

/-- Scope markers, separators and arities in the parameters of an indexer do not matter. -/
theorem memberSegment_accessor_indexer :
    IsIdentifier "Item" ∧
      (∀ p ∈ ["Func<[mscorlib]System.Int32,A/B>", "List\x601[]"], Closes 0 p.toList) ∧
      "get_" ∈ accessorVerbs ∧
      memberSegment "N.IMap<System.String,N.Cell[]>.get_Item"
          ["Func<[mscorlib]System.Int32,A/B>", "List\x601[]"] true =
        memberSegment "N.IMap<System.String,N.Cell[]>.Item" [] false ∧
      memberSegment "N.IMap<System.String,N.Cell[]>.Item" [] false =
        moduleSegment "N.IMap<System.String,N.Cell[]>.Item" := by
  let n : Identifier := ⟨"N", by decide⟩
  let string : TypeExpr := .mk [⟨"System", by decide⟩] ⟨"String", by decide⟩ [] []
  let cells : TypeExpr := .mk [n] ⟨"Cell", by decide⟩ [] [.rank 0]
  let interface : List TypeExpr := [.mk [] n [] [], .mk [] ⟨"IMap", by decide⟩ [string, cells] []]
  have hproperty : IsIdentifier "Item" := by decide
  have hparams : ∀ p ∈ ["Func<[mscorlib]System.Int32,A/B>", "List\x601[]"], Closes 0 p.toList := by
    decide
  have hverb : "get_" ∈ accessorVerbs := by decide
  have hgetter : qualifiedName interface ("get_" ++ "Item") =
      "N.IMap<System.String,N.Cell[]>.get_Item" := by
    decide +kernel
  have hname : qualifiedName interface "Item" = "N.IMap<System.String,N.Cell[]>.Item" := by
    decide +kernel
  refine ⟨hproperty, hparams, hverb, ?_⟩
  rw [← hgetter, ← hname]
  exact memberSegment_accessor interface hproperty hparams [] "get_" hverb

end CodeGraph.Name
