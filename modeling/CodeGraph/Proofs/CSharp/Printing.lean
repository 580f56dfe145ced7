import CodeGraph.Proofs.CSharp.Reading

namespace CodeGraph.CSharp.WrittenType

open CodeGraph.Text

/-!
# Printing types

A type has a plain text, from which it is read back. It is also read from every other wording of the
tree: with blanks between the tokens, `?` behind types, commas for the ranks of arrays, `global::` before
names, and names of tuple elements.
-/

/-! ## Types that can be printed -/

/-- A text of letters, digits and `_`. -/
def IsWord (w : String) : Prop :=
  w.toList ≠ [] ∧ ∀ c ∈ w.toList, isWordChar c = true

theorem IsWord.of_all {w : String} (h : (!w.toList.isEmpty && w.toList.all isWordChar) = true) :
    IsWord w := by
  simpa [IsWord] using h

mutual

/-- A type as a whole, an element of a tuple or an argument. Only these may be references. -/
inductive Printable : WrittenType → Prop
  | value {t : WrittenType} (h : IsValue t) : Printable t
  | byRef {t : WrittenType} (h : IsValue t) : Printable (.byRef t)

/-- A type that is no reference. -/
inductive IsValue : WrittenType → Prop
  | keyword {word name : String} (h : (word, name) ∈ keywordTypes) : IsValue (.keyword name)
  | named {segments : List (Segment WrittenType)} (hne : segments ≠ [])
      (hfirst : ∀ s, segments.head? = some s → IsName s.name) (hwords : ∀ s ∈ segments, IsWord s.name)
      (hargs : ∀ s ∈ segments, ∀ a ∈ s.args, Printable a) : IsValue (.named segments)
  | array {t : WrittenType} (h : IsValue t) : IsValue (.array t)
  | pointer {t : WrittenType} (h : IsValue t) : IsValue (.pointer t)
  | tuple {elements : List WrittenType} (hne : elements ≠ []) (h : ∀ t ∈ elements, Printable t) :
      IsValue (.tuple elements)

end

/-! ## Wordings -/

mutual

/-- The tokens of a type in some wording. -/
inductive Wording : WrittenType → List Token → Prop
  | keyword {word name : String} (h : (word, name) ∈ keywordTypes) :
      Wording (.keyword name) [.word word]
  | named {first : String} {segments : List (Segment WrittenType)} {ts : List Token}
      (h : WordingSegments first segments ts) : Wording (.named segments) (.word first :: ts)
  | qualified {first : String} {segments : List (Segment WrittenType)} {ts : List Token}
      (h : WordingSegments first segments ts) :
      Wording (.named segments) (.word "global" :: .doubleColon :: .word first :: ts)
  | array {t : WrittenType} {ts : List Token} (commas : Nat) (h : Wording t ts) :
      Wording (.array t) (ts ++ rankTokens commas)
  | pointer {t : WrittenType} {ts : List Token} (h : Wording t ts) :
      Wording (.pointer t) (ts ++ [.mark '*'])
  | byRef {t : WrittenType} {ts : List Token} (h : Wording t ts) :
      Wording (.byRef t) (.word "ref" :: ts)
  | tuple {elements : List WrittenType} {ts : List Token} (h : WordingElements elements ts) :
      Wording (.tuple elements) (.mark '(' :: ts)
  | annotated {t : WrittenType} {ts : List Token} (h : Wording t ts) : Wording t (ts ++ [.mark '?'])

/-- A dotted name, behind its first word. -/
inductive WordingSegments : String → List (Segment WrittenType) → List Token → Prop
  | last {name : String} {args : List WrittenType} {ts : List Token} (h : WordingArguments args ts) :
      WordingSegments name [⟨name, args⟩] ts
  | cons {name next : String} {args : List WrittenType} {more : List (Segment WrittenType)}
      {ts ts' : List Token} (h : WordingArguments args ts) (hmore : WordingSegments next more ts') :
      WordingSegments name (⟨name, args⟩ :: more) (ts ++ .mark '.' :: .word next :: ts')

inductive WordingArguments : List WrittenType → List Token → Prop
  | none : WordingArguments [] []
  | some {args : List WrittenType} {ts : List Token} (h : WordingList args ts) :
      WordingArguments args (.mark '<' :: ts)

inductive WordingList : List WrittenType → List Token → Prop
  | last {t : WrittenType} {ts : List Token} (h : Wording t ts) : WordingList [t] (ts ++ [.mark '>'])
  | cons {t : WrittenType} {more : List WrittenType} {ts ts' : List Token} (h : Wording t ts)
      (hmore : WordingList more ts') : WordingList (t :: more) (ts ++ .mark ',' :: ts')

/-- The elements of a tuple, each with or without a name. -/
inductive WordingElements : List WrittenType → List Token → Prop
  | last {t : WrittenType} {ts : List Token} (name : Option String) (h : Wording t ts) :
      WordingElements [t] (ts ++ (name.toList.map .word ++ [.mark ')']))
  | cons {t : WrittenType} {more : List WrittenType} {ts ts' : List Token} (name : Option String)
      (h : Wording t ts) (hmore : WordingElements more ts') :
      WordingElements (t :: more) (ts ++ (name.toList.map .word ++ .mark ',' :: ts'))

end

/-! ## Wordings are spelled -/

section

variable {Annotated : WrittenType → Prop}

theorem SpellsMarks.concat {t u v : WrittenType} {ms ms' : List Token}
    (h : SpellsMarks Annotated t u ms) (hlast : SpellsMarks Annotated u v ms') :
    SpellsMarks Annotated t v (ms ++ ms') := by
  induction h with
  | nil => exact hlast
  | array commas _ ih =>
      rw [List.append_assoc]
      exact .array commas (ih hlast)
  | pointer _ ih => exact .pointer (ih hlast)
  | annotated ht _ ih => exact .annotated ht (ih hlast)

theorem SpellsMarks.rank {t : WrittenType} (commas : Nat) :
    SpellsMarks Annotated t (.array t) (rankTokens commas) := by
  simpa using SpellsMarks.array commas (.nil : SpellsMarks Annotated (.array t) _ _)

theorem Spells.of_primary {t : WrittenType} {ts : List Token} (h : SpellsPrimary Annotated t ts) :
    Spells Annotated t ts := by
  simpa using Spells.plain (List.nil_subset _) h .nil

/-- A mark may follow any type that is no reference. -/
theorem Spells.mark {t u : WrittenType} {ts ms : List Token} (h : Spells Annotated t ts) (ht : IsValue t)
    (hmark : SpellsMarks Annotated t u ms) : Spells Annotated u (ts ++ ms) := by
  cases h with
  | plain hwords h hmarks =>
      rw [List.append_assoc, List.append_assoc]
      exact .plain hwords h (hmarks.concat hmark)
  | byRef _ _ _ _ => cases ht

theorem Spells.annotated {t : WrittenType} {ts : List Token} (hall : ∀ u, Annotated u)
    (h : Spells Annotated t ts) : Spells Annotated t (ts ++ [.mark '?']) := by
  cases h with
  | plain hwords h hmarks =>
      rw [List.append_assoc, List.append_assoc]
      exact .plain hwords h (hmarks.concat (.annotated (hall _) .nil))
  | byRef hwords href h hmarks =>
      rw [List.append_assoc, List.append_assoc]
      exact .byRef hwords href h (hmarks.concat (.annotated (hall _) .nil))

theorem Spells.ref {t : WrittenType} {ts : List Token} (h : Spells Annotated t ts) (ht : IsValue t) :
    Spells Annotated (.byRef t) (.word "ref" :: ts) := by
  cases h with
  | plain hwords h hmarks =>
      have hwords' : "ref" :: _ ⊆ refWord ++ plainWord :=
        List.cons_subset.mpr ⟨by decide, List.Subset.trans hwords (List.subset_append_right _ _)⟩
      exact .byRef hwords' ⟨"ref", List.mem_cons_self, by decide⟩ h hmarks
  | byRef _ _ _ _ => cases ht

end

theorem lookup_of_mem {word name : String} (h : (word, name) ∈ keywordTypes) :
    keywordTypes.lookup word = some name := by
  have hall : ∀ e ∈ keywordTypes, keywordTypes.lookup e.1 = some e.2 := by decide
  exact hall _ h

theorem isName_global : IsName "global" :=
  ⟨by decide, by decide, by decide⟩

theorem WordingSegments.isName {first : String} {segments : List (Segment WrittenType)} {ts : List Token}
    (h : WordingSegments first segments ts) (hfirst : ∀ s, segments.head? = some s → IsName s.name) :
    IsName first := by
  cases h with
  | last _ => exact hfirst _ rfl
  | cons _ _ => exact hfirst _ rfl

theorem Printable.isValue {t : WrittenType} (h : Printable t) (href : ∀ u, t ≠ .byRef u) : IsValue t := by
  cases h with
  | value h => exact h
  | byRef _ => exact absurd rfl (href _)

theorem IsValue.of_named {segments : List (Segment WrittenType)} (h : IsValue (.named segments)) :
    (∀ s, segments.head? = some s → IsName s.name) ∧ (∀ s ∈ segments, IsWord s.name) ∧
      ∀ s ∈ segments, ∀ a ∈ s.args, Printable a := by
  cases h with
  | named _ hfirst hwords hargs => exact ⟨hfirst, hwords, hargs⟩

theorem IsValue.of_tuple {elements : List WrittenType} (h : IsValue (.tuple elements)) :
    ∀ t ∈ elements, Printable t := by
  cases h with
  | tuple _ h => exact h

theorem IsValue.of_array {t : WrittenType} (h : IsValue (.array t)) : IsValue t := by
  cases h with
  | array h => exact h

theorem IsValue.of_pointer {t : WrittenType} (h : IsValue (.pointer t)) : IsValue t := by
  cases h with
  | pointer h => exact h

theorem Printable.of_byRef {t : WrittenType} (h : Printable (.byRef t)) : IsValue t := by
  cases h with
  | value h => cases h
  | byRef h => exact h

@[simp]
theorem length_rankTokens (commas : Nat) : (rankTokens commas).length = commas + 2 := by
  simp [rankTokens]

mutual

theorem Wording.spells {t : WrittenType} {ts : List Token} (h : Wording t ts) (ht : Printable t) :
    Spells (fun _ => True) t ts := by
  cases h with
  | keyword h => exact .of_primary (.keyword (lookup_of_mem h))
  | named h =>
      have hsegments := (ht.isValue (by simp)).of_named
      exact .of_primary (.named (h.isName hsegments.1) (h.spells hsegments.2.2))
  | qualified h =>
      have hsegments := (ht.isValue (by simp)).of_named
      exact .of_primary (.qualified isName_global (h.spells hsegments.2.2))
  | array commas h =>
      have ht := (ht.isValue (by simp)).of_array
      exact (h.spells (.value ht)).mark ht (.rank commas)
  | pointer h =>
      have ht := (ht.isValue (by simp)).of_pointer
      exact (h.spells (.value ht)).mark ht (.pointer .nil)
  | byRef h => exact (h.spells (.value ht.of_byRef)).ref ht.of_byRef
  | tuple h =>
      have hall := (ht.isValue (by simp)).of_tuple
      exact .of_primary (.tuple (h.spells hall))
  | annotated h => exact (h.spells ht).annotated fun _ => trivial
termination_by 2 * ts.length

theorem WordingSegments.spells {first : String} {segments : List (Segment WrittenType)} {ts : List Token}
    (h : WordingSegments first segments ts) (hargs : ∀ s ∈ segments, ∀ a ∈ s.args, Printable a) :
    SpellsSegments (fun _ => True) first segments ts := by
  cases h with
  | last h => exact .last (h.spells (hargs _ List.mem_cons_self))
  | cons h hmore =>
      exact .cons (h.spells (hargs _ List.mem_cons_self))
        (hmore.spells fun s hs => hargs s (List.mem_cons_of_mem _ hs))
termination_by 2 * ts.length + 1

theorem WordingArguments.spells {args : List WrittenType} {ts : List Token}
    (h : WordingArguments args ts) (hargs : ∀ a ∈ args, Printable a) :
    SpellsArguments (fun _ => True) args ts := by
  cases h with
  | none => exact .none
  | some h => exact .some (h.spells hargs)
termination_by 2 * ts.length

theorem WordingList.spells {args : List WrittenType} {ts : List Token} (h : WordingList args ts)
    (hargs : ∀ a ∈ args, Printable a) : SpellsList (fun _ => True) args ts := by
  cases h with
  | last h => exact .last (h.spells (hargs _ List.mem_cons_self))
  | cons h hmore =>
      exact .cons (h.spells (hargs _ List.mem_cons_self))
        (hmore.spells fun a ha => hargs a (List.mem_cons_of_mem _ ha))
termination_by 2 * ts.length

theorem WordingElements.spells {elements : List WrittenType} {ts : List Token}
    (h : WordingElements elements ts) (hall : ∀ t ∈ elements, Printable t) :
    SpellsElements (fun _ => True) elements ts := by
  cases h with
  | last name h => exact .last name (h.spells (hall _ List.mem_cons_self))
  | cons name h hmore =>
      exact .cons name (h.spells (hall _ List.mem_cons_self))
        (hmore.spells fun t ht => hall t (List.mem_cons_of_mem _ ht))
termination_by 2 * ts.length

end

/-! ## The plain text -/

/-- The first keyword of a type. -/
def keywordFor (name : String) : String :=
  ((keywordTypes.find? (·.2 == name)).map (·.1)).getD name

mutual

def printTokens : WrittenType → List Token
  | .keyword name => [.word (keywordFor name)]
  | .named segments => printSegments segments
  | .array t => printTokens t ++ rankTokens 0
  | .pointer t => printTokens t ++ [.mark '*']
  | .byRef t => .word "ref" :: printTokens t
  | .tuple elements => .mark '(' :: printList ')' elements
  | .inferred => [.word "var"]

def printSegments : List (Segment WrittenType) → List Token
  | [] => []
  | ⟨name, args⟩ :: more =>
    let shown := if args.isEmpty then [] else .mark '<' :: printList '>' args
    .word name :: (shown ++ if more.isEmpty then [] else .mark '.' :: printSegments more)

/-- The types between commas, up to a closing mark. -/
def printList (close : Char) : List WrittenType → List Token
  | [] => [.mark close]
  | t :: more => printTokens t ++ if more.isEmpty then [.mark close] else .mark ',' :: printList close more

end

/-- A text of tokens; a blank keeps words apart. -/
def render : List Token → Chars
  | [] => []
  | .word w :: .word v :: ts => w.toList ++ ' ' :: render (.word v :: ts)
  | .word w :: ts => w.toList ++ render ts
  | .mark c :: ts => c :: render ts
  | .doubleColon :: ts => ':' :: ':' :: render ts

def print (t : WrittenType) : String :=
  .ofList (render (printTokens t))

/-! ## The plain text is one of the wordings -/

theorem keywordFor_mem {word name : String} (h : (word, name) ∈ keywordTypes) :
    (keywordFor name, name) ∈ keywordTypes := by
  have hall : ∀ e ∈ keywordTypes, (keywordFor e.2, e.2) ∈ keywordTypes := by decide
  exact hall _ h

mutual

theorem wording_printTokens : ∀ (t : WrittenType), Printable t → Wording t (printTokens t)
  | .keyword name, h => by
      cases h.isValue (by simp) with
      | keyword h => exact .keyword (keywordFor_mem h)
  | .named segments, h => by
      cases h.isValue (by simp) with
      | named hne _ _ hargs =>
          obtain ⟨first, ts, hts, hwording⟩ := wording_printSegments segments hne hargs
          rw [printTokens, hts]
          exact .named hwording
  | .array t, h => .array 0 (wording_printTokens t (.value (h.isValue (by simp)).of_array))
  | .pointer t, h => .pointer (wording_printTokens t (.value (h.isValue (by simp)).of_pointer))
  | .byRef t, h => .byRef (wording_printTokens t (.value h.of_byRef))
  | .tuple elements, h => by
      cases h.isValue (by simp) with
      | tuple hne hall => exact .tuple (wording_printElements elements hne hall)
  | .inferred, h => by cases h.isValue (by simp)

theorem wording_printSegments : ∀ segments : List (Segment WrittenType), segments ≠ [] →
    (∀ s ∈ segments, ∀ a ∈ s.args, Printable a) →
    ∃ first ts, printSegments segments = .word first :: ts ∧ WordingSegments first segments ts
  | [], hne, _ => absurd rfl hne
  | ⟨name, args⟩ :: more, _, hargs => by
      rw [printSegments]
      have hfirst : WordingArguments args (if args.isEmpty then [] else .mark '<' :: printList '>' args) := by
        cases args with
        | nil => exact .none
        | cons t args =>
            exact .some (wording_printList (t :: args) (List.cons_ne_nil t args) (hargs _ List.mem_cons_self))
      cases more with
      | nil => exact ⟨name, _, by simp, .last hfirst⟩
      | cons s more =>
          obtain ⟨next, ts, hts, hwording⟩ :=
            wording_printSegments (s :: more) (List.cons_ne_nil s more)
              fun u hu => hargs u (List.mem_cons_of_mem _ hu)
          exact ⟨name, _, by simp [hts], .cons hfirst hwording⟩

theorem wording_printList : ∀ args : List WrittenType, args ≠ [] → (∀ a ∈ args, Printable a) →
    WordingList args (printList '>' args)
  | [], hne, _ => absurd rfl hne
  | [t], _, hall => .last (wording_printTokens t (hall _ List.mem_cons_self))
  | t :: u :: more, _, hall =>
      .cons (wording_printTokens t (hall _ List.mem_cons_self))
        (wording_printList (u :: more) (List.cons_ne_nil u more)
          fun a ha => hall a (List.mem_cons_of_mem _ ha))

theorem wording_printElements : ∀ elements : List WrittenType, elements ≠ [] →
    (∀ t ∈ elements, Printable t) → WordingElements elements (printList ')' elements)
  | [], hne, _ => absurd rfl hne
  | [t], _, hall => .last none (wording_printTokens t (hall _ List.mem_cons_self))
  | t :: u :: more, _, hall =>
      .cons none (wording_printTokens t (hall _ List.mem_cons_self))
        (wording_printElements (u :: more) (List.cons_ne_nil u more)
          fun a ha => hall a (List.mem_cons_of_mem _ ha))

end

/-! ## The plain text has these tokens -/

/-- A token that a text can have. -/
def IsToken : Token → Prop
  | .word w => IsWord w
  | .mark c => IsMark c ∧ c ≠ ':'
  | .doubleColon => True

theorem isToken_mark {c : Char} (h : c ∈ ['[', ']', '*', '(', ')', '<', '>', '.', ',']) :
    IsToken (.mark c) := by
  have hall : ['[', ']', '*', '(', ')', '<', '>', '.', ','].all
      (fun d => !isBlank d && !isWordChar d && d != '@' && d != ':') = true := by
    decide
  have hc := List.all_eq_true.mp hall c h
  simp only [Bool.and_eq_true, Bool.not_eq_true', bne_iff_ne] at hc
  obtain ⟨⟨⟨hblank, hword⟩, hverbatim⟩, hcolon⟩ := hc
  exact ⟨⟨hblank, hword, hverbatim⟩, hcolon⟩

theorem isToken_keyword {word name : String} (h : (word, name) ∈ keywordTypes) : IsToken (.word word) := by
  have hall : ∀ e ∈ keywordTypes, (!e.1.toList.isEmpty && e.1.toList.all isWordChar) = true := by decide
  exact .of_all (hall _ h)

mutual

theorem isToken_printTokens : ∀ (t : WrittenType), Printable t → ∀ u ∈ printTokens t, IsToken u
  | .keyword name, h => by
      cases h.isValue (by simp) with
      | keyword h => exact List.forall_mem_singleton.mpr (isToken_keyword (keywordFor_mem h))
  | .named segments, h =>
      have hsegments := (h.isValue (by simp)).of_named
      isToken_printSegments segments hsegments.2.1 hsegments.2.2
  | .array t, h => by
      have hread := isToken_printTokens t (.value (h.isValue (by simp)).of_array)
      have hrank : ∀ u ∈ rankTokens 0, IsToken u := by
        simp [rankTokens, isToken_mark]
      exact List.forall_mem_append.mpr ⟨hread, hrank⟩
  | .pointer t, h => by
      have hread := isToken_printTokens t (.value (h.isValue (by simp)).of_pointer)
      exact List.forall_mem_append.mpr ⟨hread, List.forall_mem_singleton.mpr (isToken_mark (by decide))⟩
  | .byRef t, h => by
      have hread := isToken_printTokens t (.value h.of_byRef)
      exact List.forall_mem_cons.mpr ⟨.of_all (by decide), hread⟩
  | .tuple elements, h => by
      have hclose : IsToken (.mark ')') := isToken_mark (by decide)
      have hread := isToken_printList hclose elements (h.isValue (by simp)).of_tuple
      exact List.forall_mem_cons.mpr ⟨isToken_mark (by decide), hread⟩
  | .inferred, h => by cases h.isValue (by simp)

theorem isToken_printSegments : ∀ segments : List (Segment WrittenType),
    (∀ s ∈ segments, IsWord s.name) → (∀ s ∈ segments, ∀ a ∈ s.args, Printable a) →
    ∀ u ∈ printSegments segments, IsToken u
  | [], _, _ => List.forall_mem_nil _
  | ⟨name, args⟩ :: more, hwords, hargs => by
      have hname : IsToken (.word name) := hwords _ List.mem_cons_self
      have hclose : IsToken (.mark '>') := isToken_mark (by decide)
      have hlist := isToken_printList hclose args (hargs _ List.mem_cons_self)
      have hmore := isToken_printSegments more (fun s hs => hwords s (List.mem_cons_of_mem _ hs))
        fun s hs => hargs s (List.mem_cons_of_mem _ hs)
      rw [printSegments]
      refine List.forall_mem_cons.mpr ⟨hname, List.forall_mem_append.mpr ⟨?_, ?_⟩⟩
      · split
        · exact List.forall_mem_nil _
        · exact List.forall_mem_cons.mpr ⟨isToken_mark (by decide), hlist⟩
      · split
        · exact List.forall_mem_nil _
        · exact List.forall_mem_cons.mpr ⟨isToken_mark (by decide), hmore⟩

theorem isToken_printList {close : Char} (hclose : IsToken (.mark close)) :
    ∀ types : List WrittenType, (∀ t ∈ types, Printable t) → ∀ u ∈ printList close types, IsToken u
  | [], _ => List.forall_mem_singleton.mpr hclose
  | t :: more, hall => by
      have hread := isToken_printTokens t (hall _ List.mem_cons_self)
      have hmore := isToken_printList hclose more fun u hu => hall u (List.mem_cons_of_mem _ hu)
      rw [printList]
      refine List.forall_mem_append.mpr ⟨hread, ?_⟩
      split
      · exact List.forall_mem_singleton.mpr hclose
      · exact List.forall_mem_cons.mpr ⟨isToken_mark (by decide), hmore⟩

end

/-- No character of a word stands before tokens that do not begin with a word. -/
theorem head?_render {ts : List Token} (hword : ∀ w rest, ts ≠ .word w :: rest)
    (hts : ∀ u ∈ ts, IsToken u) {c : Char} (hc : (render ts).head? = some c) : isWordChar c = false := by
  match ts with
  | [] => cases hc
  | .word w :: rest => exact absurd rfl (hword w rest)
  | .mark d :: rest =>
      obtain rfl := Option.some.inj hc
      exact (hts _ List.mem_cons_self).1.word
  | .doubleColon :: rest =>
      obtain rfl := Option.some.inj hc
      decide

theorem lexes_render {ts : List Token} (hts : ∀ u ∈ ts, IsToken u) : Lexes ts (render ts) := by
  fun_induction render ts with
  | case1 => exact .nil
  | case2 w v ts ih =>
      obtain ⟨⟨hne, hw⟩, hrest⟩ := List.forall_mem_cons.mp hts
      have hend : ∀ c, (' ' :: render (.word v :: ts)).head? = some c → isWordChar c = false := by
        rintro c ⟨⟩
        decide
      have hlex := Lexes.word hne hw hend (.blank (by decide) (ih hrest))
      rwa [String.ofList_toList] at hlex
  | case3 w ts hword ih =>
      obtain ⟨⟨hne, hw⟩, hrest⟩ := List.forall_mem_cons.mp hts
      have hlex := Lexes.word hne hw (fun c => head?_render hword hrest) (ih hrest)
      rwa [String.ofList_toList] at hlex
  | case4 c ts ih =>
      obtain ⟨⟨hc, hcolon⟩, hrest⟩ := List.forall_mem_cons.mp hts
      exact .mark hc (fun h => hcolon h.1) (ih hrest)
  | case5 ts ih => exact .doubleColon (ih (List.forall_mem_cons.mp hts).2)

/-! ## Types are read back -/

/-- A type is read back from its plain text and from every text of its other wordings. -/
theorem parse?_print {t : WrittenType} (h : Printable t) :
    parse? (print t) = some t ∧
      ∀ ts text, Wording t ts → Lexes ts text.toList → parse? text = some t := by
  have hread : ∀ ts text, Wording t ts → Lexes ts text.toList → parse? text = some t :=
    fun _ _ hwording hlex => parse?_eq_some (hwording.spells h) hlex
  refine ⟨hread _ _ (wording_printTokens t h) ?_, hread⟩
  rw [print, String.toList_ofList]
  exact lexes_render (isToken_printTokens t h)

/-- A reference to an array of a type inside a generic one. -/
def sampleType : WrittenType :=
  .byRef (.array (.named [⟨"A", [.keyword "Int32", .tuple [.pointer (.named [⟨"T", []⟩]),
    .byRef (.keyword "Object")]]⟩, ⟨"D", []⟩]))

def sampleTokens : List Token :=
  [.word "ref", .word "global", .doubleColon, .word "A", .mark '<', .word "int", .mark '?', .mark ',',
    .mark '(', .word "T", .mark '*', .word "p", .mark ',', .word "ref", .word "dynamic", .mark ')',
    .mark '>', .mark '.', .word "D", .mark '?', .mark '[', .mark ',', .mark ']']

theorem printable_sampleType : Printable sampleType := by
  have hint : IsValue (.keyword "Int32") := .keyword (by decide : ("int", "Int32") ∈ keywordTypes)
  have hobject : IsValue (.keyword "Object") := .keyword (by decide : ("object", "Object") ∈ keywordTypes)
  have hname : ∀ w ∈ ["A", "D", "T"], IsName w ∧ IsWord w := by
    simp only [List.forall_mem_cons]
    exact ⟨⟨⟨by decide, by decide, by decide⟩, .of_all (by decide)⟩,
      ⟨⟨by decide, by decide, by decide⟩, .of_all (by decide)⟩,
      ⟨⟨by decide, by decide, by decide⟩, .of_all (by decide)⟩, List.forall_mem_nil _⟩
  have hinner : IsValue (.named [⟨"T", []⟩]) :=
    .named (by simp) (by simp [hname]) (by simp [hname]) (by simp)
  have htuple : IsValue (.tuple [.pointer (.named [⟨"T", []⟩]), .byRef (.keyword "Object")]) :=
    .tuple (by simp) (by simp [Printable.value hinner.pointer, Printable.byRef hobject])
  exact .byRef (.array (.named (by simp) (by simp [hname]) (by simp [hname])
    (by simp [Printable.value hint, Printable.value htuple])))

theorem wording_sampleTokens : Wording sampleType sampleTokens := by
  have hint : Wording (.keyword "Int32") [.word "int"] := .keyword (by decide)
  have hobject : Wording (.keyword "Object") [.word "dynamic"] := .keyword (by decide)
  have hinner : Wording (.named [⟨"T", []⟩]) [.word "T"] := .named (.last .none)
  have htuple := Wording.tuple (.cons (some "p") hinner.pointer (.last none hobject.byRef))
  have hlast : WordingSegments "D" [⟨"D", []⟩] [] := .last .none
  have hsegments : WordingSegments "A" [⟨"A", _⟩, ⟨"D", []⟩] _ :=
    .cons (.some (.cons hint.annotated (.last htuple))) hlast
  have hname := Wording.qualified hsegments
  exact ((hname.annotated).array 1).byRef

/-- Blanks, `?`, `global::`, a comma and the name of an element change nothing. -/
theorem parse?_print_generic :
    Printable sampleType ∧ print sampleType = "ref A<int,(T*,ref object)>.D[]" ∧
      parse? "ref A<int,(T*,ref object)>.D[]" = some sampleType ∧
      parse? "ref global::A<int?, ( T * p,ref dynamic)> . D ? [ ,]" = some sampleType := by
  have hprint : print sampleType = "ref A<int,(T*,ref object)>.D[]" := by decide +kernel
  have htokens : tokens "ref global::A<int?, ( T * p,ref dynamic)> . D ? [ ,]".toList = sampleTokens := by
    decide +kernel
  obtain ⟨hplain, hwordings⟩ := parse?_print printable_sampleType
  exact ⟨printable_sampleType, hprint, hprint ▸ hplain,
    hwordings _ _ wording_sampleTokens (htokens ▸ lexes_tokens _)⟩

end CodeGraph.CSharp.WrittenType
