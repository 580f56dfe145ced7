import CodeGraph.Proofs.CSharp.Steps

namespace CodeGraph.CSharp.WrittenType

open CodeGraph.Text

/-!
# The trees of texts

Every tree that is read from a text has the names of known types for its keywords, words of the text for
its names and at least one element in its tuples.
-/

/-- A type as it may be read: of a dotted name only the last part counts. -/
inductive IsTree : WrittenType → Prop
  | keyword {name : String} (h : name ∈ keywordTypes.map (·.2)) : IsTree (.keyword name)
  | named {outer : List (Segment WrittenType)} {name : String} {args : List WrittenType}
      (hname : IsWord name) (hargs : ∀ a ∈ args, IsTree a) : IsTree (.named (outer ++ [⟨name, args⟩]))
  | array {t : WrittenType} (h : IsTree t) : IsTree (.array t)
  | pointer {t : WrittenType} (h : IsTree t) : IsTree (.pointer t)
  | byRef {t : WrittenType} (h : IsTree t) : IsTree (.byRef t)
  | tuple {elements : List WrittenType} (hne : elements ≠ []) (h : ∀ t ∈ elements, IsTree t) :
      IsTree (.tuple elements)
  | inferred : IsTree .inferred

/-- All words of the tokens are words of letters. -/
def Worded (ts : List Token) : Prop :=
  ∀ w, .word w ∈ ts → IsWord w

theorem Worded.mono {ts us : List Token} (h : Worded ts) (hsub : us ⊆ ts) : Worded us :=
  fun w hw => h w (hsub hw)

/-! ## Parts of the reader -/

/-- Marks keep a tree a tree. -/
theorem marks_isTree {t u : WrittenType} {ts rest : List Token} (ht : IsTree t)
    (h : marks t ts = some (u, rest)) : IsTree u := by
  fun_induction marks t ts with
  | case1 t ts rest' hdrop _ ih => exact ih ht.array h
  | case2 => cases h
  | case3 t ts ih => exact ih ht.pointer h
  | case4 t ts ih => exact ih ht h
  | case5 t ts =>
      obtain ⟨rfl, -⟩ := Prod.mk.inj (Option.some.inj h)
      exact ht

/-- The first part of a name goes in front of the others. -/
theorem IsTree.cons {segments : List (Segment WrittenType)} (h : IsTree (.named segments))
    (s : Segment WrittenType) : IsTree (.named (s :: segments)) := by
  cases h with
  | @named outer name args hname hargs =>
      have hname : IsTree (.named ((s :: outer) ++ [⟨name, args⟩])) := .named hname hargs
      exact hname

/-! ## The reader -/

-- With each call the number falls, but not from a name's parts to the list of their arguments.
mutual

theorem isTree_read {fuel : Nat} {ts rest : List Token} {t : WrittenType} (hts : Worded ts)
    (h : read fuel ts = some (t, rest)) : IsTree t ∧ rest ⊆ ts := by
  obtain ⟨n, u, v, behind, rfl, hprimary, hmarks, rfl⟩ := read_cases h
  have hwords := (refWords_suffix ts).subset
  obtain ⟨hu, hbehind⟩ := isTree_readPrimary (hts.mono hwords) hprimary
  have hv := marks_isTree hu hmarks
  refine ⟨?_, List.Subset.trans (marks_suffix hmarks).subset (List.Subset.trans hbehind hwords)⟩
  split
  · exact hv.byRef
  · exact hv
termination_by 2 * fuel

theorem isTree_readPrimary {fuel : Nat} {ts rest : List Token} {t : WrittenType} (hts : Worded ts)
    (h : readPrimary fuel ts = some (t, rest)) : IsTree t ∧ rest ⊆ ts := by
  obtain ⟨n, rfl, hcases⟩ := readPrimary_cases h
  rcases hcases with ⟨r, elements, rfl, helements, rfl⟩ |
    ⟨first, r, rfl, hnamed | ⟨rfl, hskip⟩ | ⟨rfl, rfl⟩⟩
  · have hsub := List.subset_cons_self (Token.mark '(') r
    obtain ⟨hne, hall, hrest⟩ := isTree_readElements (hts.mono hsub) helements
    exact ⟨.tuple hne hall, List.Subset.trans hrest hsub⟩
  · have hsub := List.subset_cons_self (Token.word first) r
    obtain ⟨ht, hrest⟩ := isTree_readNamed (hts.mono hsub) (hts first List.mem_cons_self) hnamed
    exact ⟨ht, List.Subset.trans hrest hsub⟩
  · exact ⟨.keyword (by decide), List.Subset.trans hskip.subset (List.subset_cons_self _ _)⟩
  · exact ⟨.inferred, List.subset_cons_self _ _⟩
termination_by 2 * fuel

theorem isTree_readNamed {fuel : Nat} {ts rest : List Token} (hts : Worded ts) {first : String}
    {t : WrittenType} (hfirst : IsWord first) (h : readNamed fuel first ts = some (t, rest)) :
    IsTree t ∧ rest ⊆ ts := by
  obtain ⟨n, rfl, hcases⟩ := readNamed_cases h
  rcases hcases with ⟨name, hkeyword, rfl, rfl⟩ |
    ⟨name, r, segments, ⟨rfl, rfl⟩ | rfl, hsegments, rfl⟩
  · obtain ⟨before, behind, hmem, -⟩ := List.lookup_eq_some_iff.mp hkeyword
    exact ⟨.keyword (List.mem_map.mpr ⟨(first, name), by simp [hmem], rfl⟩), List.Subset.refl _⟩
  · exact isTree_readSegments hts hfirst hsegments
  · have hsub : r ⊆ .doubleColon :: .word name :: r :=
      fun u hu => List.mem_cons_of_mem _ (List.mem_cons_of_mem _ hu)
    have hname : IsWord name := hts name (List.mem_cons_of_mem _ List.mem_cons_self)
    obtain ⟨ht, hrest⟩ := isTree_readSegments (hts.mono hsub) hname hsegments
    exact ⟨ht, List.Subset.trans hrest hsub⟩
termination_by 2 * fuel

theorem isTree_readElements {fuel : Nat} {ts rest : List Token} (hts : Worded ts)
    {elements : List WrittenType} (h : readElements fuel ts = some (elements, rest)) :
    elements ≠ [] ∧ (∀ t ∈ elements, IsTree t) ∧ rest ⊆ ts := by
  obtain ⟨n, t, behind, rfl, hread, hcases⟩ := readElements_cases h
  obtain ⟨ht, hbehind⟩ := isTree_read hts hread
  have hdrop := List.Subset.trans (dropName_suffix behind).subset hbehind
  rcases hcases with ⟨heq, rfl⟩ | ⟨r, more, heq, hmore, rfl⟩
  · rw [heq] at hdrop
    exact ⟨List.cons_ne_nil _ _, List.forall_mem_singleton.mpr ht,
      List.Subset.trans (List.subset_cons_self _ _) hdrop⟩
  · rw [heq] at hdrop
    have hsub := List.Subset.trans (List.subset_cons_self _ _) hdrop
    obtain ⟨-, hall, hrest⟩ := isTree_readElements (hts.mono hsub) hmore
    exact ⟨List.cons_ne_nil _ _, List.forall_mem_cons.mpr ⟨ht, hall⟩, List.Subset.trans hrest hsub⟩
termination_by 2 * fuel

theorem isTree_readSegments {fuel : Nat} {ts rest : List Token} (hts : Worded ts) {name : String}
    {segments : List (Segment WrittenType)} (hname : IsWord name)
    (h : readSegments fuel name ts = some (segments, rest)) : IsTree (.named segments) ∧ rest ⊆ ts := by
  obtain ⟨n, args, behind, rfl, hread, hcases⟩ := readSegments_cases h
  obtain ⟨hargs, hbehind⟩ := isTree_readArguments hts hread
  rcases hcases with ⟨rfl, rfl⟩ | ⟨next, r, more, rfl, hmore, rfl⟩
  · have hlast : IsTree (.named ([] ++ [⟨name, args⟩])) := .named hname hargs
    exact ⟨hlast, hbehind⟩
  · have hsub : r ⊆ ts := fun u hu => hbehind (List.mem_cons_of_mem _ (List.mem_cons_of_mem _ hu))
    have hnext : IsWord next := hts next (hbehind (List.mem_cons_of_mem _ List.mem_cons_self))
    obtain ⟨ht, hrest⟩ := isTree_readSegments (hts.mono hsub) hnext hmore
    exact ⟨ht.cons _, List.Subset.trans hrest hsub⟩
termination_by 2 * fuel

theorem isTree_readArguments {fuel : Nat} {ts rest : List Token} (hts : Worded ts)
    {args : List WrittenType} (h : readArguments fuel ts = some (args, rest)) :
    (∀ a ∈ args, IsTree a) ∧ rest ⊆ ts := by
  rcases readArguments_cases h with ⟨rfl, rfl⟩ | ⟨r, rfl, hread⟩
  · exact ⟨List.forall_mem_nil _, List.Subset.refl _⟩
  · have hsub := List.subset_cons_self (Token.mark '<') r
    obtain ⟨hargs, hrest⟩ := isTree_readArgs (hts.mono hsub) hread
    exact ⟨hargs, List.Subset.trans hrest hsub⟩
termination_by 2 * fuel + 1

theorem isTree_readArgs {fuel : Nat} {ts rest : List Token} (hts : Worded ts)
    {args : List WrittenType} (h : readArgs fuel ts = some (args, rest)) :
    (∀ a ∈ args, IsTree a) ∧ rest ⊆ ts := by
  obtain ⟨n, t, behind, rfl, hread, hcases⟩ := readArgs_cases h
  obtain ⟨ht, hbehind⟩ := isTree_read hts hread
  have hsub := fun u (hu : u ∈ behind.tail) => hbehind (List.mem_of_mem_tail hu)
  rcases hcases with ⟨rfl, rfl⟩ | ⟨r, more, rfl, hmore, rfl⟩
  · exact ⟨List.forall_mem_singleton.mpr ht, hsub⟩
  · obtain ⟨hall, hrest⟩ := isTree_readArgs (hts.mono hsub) hmore
    exact ⟨List.forall_mem_cons.mpr ⟨ht, hall⟩, List.Subset.trans hrest hsub⟩
termination_by 2 * fuel

end

/-! ## Texts -/

theorem Worded.cons {u : Token} {ts : List Token} (hu : ∀ w, u = .word w → IsWord w) (h : Worded ts) :
    Worded (u :: ts) := by
  intro w hw
  rcases List.mem_cons.mp hw with heq | hw
  · exact hu w heq.symm
  · exact h w hw

theorem isWord_ofList {w : Chars} (hne : w ≠ []) (hw : ∀ c ∈ w, isWordChar c = true) :
    ∀ v, Token.word (.ofList w) = .word v → IsWord v := by
  rintro v ⟨⟩
  rw [IsWord, String.toList_ofList]
  exact ⟨hne, hw⟩

/-- Only a lone `@` is an empty word. -/
theorem Lexes.worded {ts : List Token} {s : Chars} (h : Lexes ts s) (hwords : .word "" ∉ ts) :
    Worded ts := by
  induction h with
  | nil => exact fun w hw => absurd hw List.not_mem_nil
  | blank _ _ ih => exact ih hwords
  | word hne hw _ _ ih =>
      exact .cons (isWord_ofList hne hw) (ih (not_or.mp (List.mem_cons.not.mp hwords)).2)
  | @verbatim w ts s hw _ _ ih =>
      obtain ⟨hhead, htail⟩ := not_or.mp (List.mem_cons.not.mp hwords)
      have hne : w ≠ [] := by
        rintro rfl
        exact hhead rfl
      exact .cons (isWord_ofList hne hw) (ih htail)
  | mark _ _ _ ih => exact .cons (by simp) (ih (not_or.mp (List.mem_cons.not.mp hwords)).2)
  | doubleColon _ ih => exact .cons (by simp) (ih (not_or.mp (List.mem_cons.not.mp hwords)).2)

/-- A text without a lone `@` is read as a tree. -/
theorem isTree_of_parse? {text : String} {t : WrittenType} (hwords : .word "" ∉ tokens text.toList)
    (h : parse? text = some t) : IsTree t := by
  rw [parse?] at h
  split at h
  · next t' hread =>
      obtain rfl := Option.some.inj h
      exact (isTree_read ((lexes_tokens _).worded hwords) hread).1
  · cases h

end CodeGraph.CSharp.WrittenType
