import CodeGraph.Proofs.Name.TypeExpressions
import CodeGraph.Symbol.TypeRef

namespace CodeGraph

open CodeGraph.Text

/-!
# Overloads

Types are displayed by their last names, with their arguments and marks. Such texts nest, have no comma
outside brackets, and are canonical, so that methods of one name are told apart by the types that are
displayed for their parameters.
-/

namespace Name

/-- A type none of whose names has a dot, as it may stand among arguments. -/
structure IsShort (s : Chars) : Prop extends IsArgument s where
  simple : Simple s

theorem IsShort.isParameterText {p : String} (h : IsShort p.toList) : IsParameterText p :=
  ⟨fun hempty => h.ne_nil (by rw [hempty]; rfl), h.simple, h.uncut, h.steady⟩

theorem Simple.append_mark {s : Chars} (h : Simple s) (m : TypeMark)
    (ht : Chars.IsTrimmed (s ++ m.chars)) : Simple (s ++ m.chars) := by
  cases h with
  | @name base suffix hdot hbase hsuffix hangle hn _ =>
      obtain ⟨c, r, hm, hc⟩ := m.exists_cons
      rw [List.append_assoc] at ht ⊢
      refine .name hdot hbase ?_ ?_ ?_ ht
      · intro d hd
        cases suffix with
        | nil =>
            rw [List.nil_append, hm] at hd
            obtain rfl := Option.some.inj hd
            exact hc
        | cons e suffix => exact hsuffix d hd
      · rw [← List.append_assoc]
        exact List.not_mem_append hangle fun hmem => absurd (m.mem_chars hmem) (by decide)
      · rw [← List.append_assoc]
        exact hn.append m.nested
  | @generic base suffix args hdot hangle hb hs hne hargs huncut _ =>
      have hsplit : base ++ '<' :: (Chars.joinWith [','] args ++ '>' :: suffix) ++ m.chars =
          base ++ '<' :: (Chars.joinWith [','] args ++ '>' :: (suffix ++ m.chars)) := by simp
      rw [hsplit] at ht ⊢
      exact .generic hdot hangle hb (hs.append m.nested) hne hargs huncut ht

namespace IsShort

variable {s : Chars}

theorem append_mark (h : IsShort s) (m : TypeMark) : IsShort (s ++ m.chars) :=
  ⟨h.toIsArgument.mark m, h.simple.append_mark m (h.toIsArgument.mark m).isTrimmed⟩

/-- Names without dots are short, also with the tick of an arity. -/
theorem of_chars (hne : s ≠ []) (hchars : ∀ c ∈ s, c = tick ∨ IsNameChar c) (hrendered : Rendered s) :
    IsShort s := by
  have hnotMem : ∀ {d}, d ≠ tick → ¬ IsNameChar d → d ∉ s := fun htick hd hmem =>
    (hchars _ hmem).elim htick hd
  have hdot : '.' ∉ s := hnotMem (by decide) (by decide)
  have hargument : IsArgument s :=
    .of_chars hne (fun c hc => Or.inr (hchars c hc)) (segmented_of_notMem hdot) hrendered
  have hmark : ∀ c ∈ s, isMark c = false := by
    intro c hc
    rcases hchars c hc with rfl | hc
    · decide
    · exact hc.isMark_eq_false
  have hname := @Simple.name s [] hdot hmark (by simp)
    (by simpa using hnotMem (by decide) (by decide)) (by simpa using hargument.nested)
    (by simpa using hargument.isTrimmed)
  exact ⟨hargument, by simpa using hname⟩

theorem of_identifier {name : String} (h : IsIdentifier name) : IsShort name.toList :=
  of_chars h.toList_ne_nil (fun c hc => Or.inr (h.chars c hc))
    (rendered_of_notMem (h.notMem (by decide)))

theorem generic {name : String} {args : List Chars} (h : IsIdentifier name) (hne : args ≠ [])
    (hargs : ∀ a ∈ args, IsShort a) :
    IsShort (name.toList ++ '<' :: (Chars.joinWith [','] args ++ ['>'])) := by
  have hargument := (of_identifier h).toIsArgument.generic (h.notMem (by decide))
    fun a ha => (hargs a ha).toIsArgument
  exact ⟨hargument, .generic (h.notMem (by decide)) (h.notMem (by decide)) h.quiet.nested .nil hne
    (fun a ha => (hargs a ha).simple) (fun a ha => (hargs a ha).uncut) hargument.isTrimmed⟩

end IsShort

/-- The raw name of a type is an identifier, with an arity behind it or without. -/
inductive IsRawName : String → Prop
  | plain {name : String} (h : IsIdentifier name) : IsRawName name
  | generic {name digits : String} (h : IsIdentifier name) (hne : digits ≠ "")
      (hdigits : digits.toList.all Char.isDigit = true) : IsRawName (name ++ "\x60" ++ digits)

theorem toList_arity (name digits : String) :
    (name ++ "\x60" ++ digits).toList = name.toList ++ tick :: digits.toList := by
  simp [tick]

namespace IsRawName

variable {raw : String} (h : IsRawName raw)

include h

theorem isIdentifier_before : IsIdentifier (before (· == tick) raw) := by
  cases h with
  | plain h =>
      have htick := beq_of_notMem (d := tick) (h.notMem (by decide))
      have hall := Chars.before_append (b := "") htick (by simp)
      rw [String.append_empty] at hall
      rwa [hall]
  | generic h _ _ => rwa [before_tick (h.notMem (by decide))]

theorem chars : raw.toList ≠ [] ∧ ∀ c ∈ raw.toList, c = tick ∨ IsNameChar c := by
  cases h with
  | plain h => exact ⟨h.toList_ne_nil, fun c hc => Or.inr (h.chars c hc)⟩
  | @generic name digits h _ hdigits =>
      rw [toList_arity]
      refine ⟨by simp, fun c hc => ?_⟩
      rcases List.mem_append.mp hc with hc | hc
      · exact Or.inr (h.chars c hc)
      · exact (List.mem_cons.mp hc).imp_right fun hc => isNameChar_of_isDigit (List.all_eq_true.mp hdigits c hc)

theorem isQuiet : IsQuiet raw.toList := by
  refine .of_forall fun c hc => ?_
  rcases h.chars.2 c hc with rfl | hc
  · decide
  · exact hc.quiet

/-- An arity of one to five is written out as arguments, and any other one stays. -/
theorem isShort_collapseArity : IsShort (collapseArity raw.toList) := by
  obtain ⟨hne, hchars⟩ := h.chars
  cases h with
  | plain h =>
      have hstay : collapseArity raw.toList = raw.toList := rendered_of_notMem (h.notMem (by decide))
      rw [hstay]
      exact .of_identifier h
  | @generic name digits h _ hdigits =>
      rw [toList_arity] at hne hchars ⊢
      have hshown : collapseArity (name.toList ++ tick :: digits.toList) =
          name.toList ++ renderArity [tick] digits.toList [] := by
        rw [collapseArity_append_of_notMem (h.notMem (by decide)), collapseArity_digits (List.all_eq_true.mp hdigits)]
      by_cases hfive : 1 ≤ digitsValue digits.toList ∧ digitsValue digits.toList ≤ 5
      · have hargs : renderArity [tick] digits.toList [] = arityArguments (digitsValue digits.toList) := by
          simp [renderArity, hfive]
        have hT : IsIdentifier "T" := by decide
        rw [hshown, hargs, arityArguments]
        refine .generic h ?_ fun a ha => ?_
        · simp only [ne_eq, List.replicate_eq_nil_iff]
          omega
        · rw [List.eq_of_mem_replicate ha]
          exact .of_identifier hT
      · have hstay : renderArity [tick] digits.toList [] = tick :: digits.toList := by
          simp [renderArity, hfive]
        rw [hstay] at hshown
        rw [hshown]
        exact .of_chars hne hchars hshown

theorem isShort_canonicalize : IsShort (canonicalize raw).toList := by
  have hshort := h.isShort_collapseArity
  rw [canonicalize, String.toList_ofList, h.isQuiet.canonicalizeChars_eq hshort.nested]
  exact hshort

end IsRawName

end Name

namespace TypeRef

open CodeGraph.Name

/-- A type whose names are identifiers, with arities or without, at every depth. -/
inductive Displayable : TypeRef → Prop
  | named {type : NamedType} (hne : type.nesting ≠ []) (hnesting : ∀ raw ∈ type.nesting, IsRawName raw)
      (hargs : ∀ arg ∈ type.args, Displayable arg) : Displayable (.named type)
  | array {element : TypeRef} (h : Displayable element) : Displayable (.array element)
  | pointer {target : TypeRef} (h : Displayable target) : Displayable (.pointer target)
  | byRef {target : TypeRef} (h : Displayable target) : Displayable (.byRef target)
  | param {name : String} (h : IsIdentifier name) : Displayable (.param name)

theorem displayAll_eq (types : List TypeRef) : displayAll types = types.map display := by
  induction types with
  | nil => rfl
  | cons t more ih => rw [displayAll, ih, List.map_cons]

theorem Displayable.isShort {t : TypeRef} (h : Displayable t) : IsShort t.display.toList := by
  induction h with
  | @named type hne hnesting _ ih =>
      obtain ⟨owner, ns, nesting, args, handle⟩ := type
      obtain ⟨init, raw, rfl⟩ := (List.eq_nil_or_concat nesting).resolve_left hne
      have hraw : IsRawName raw := hnesting raw (by simp)
      rcases eq_or_ne args [] with rfl | hargs
      · simpa [display, displayNamed, displayAll] using hraw.isShort_canonicalize
      · have hshown : (displayNamed ⟨owner, ns, init.concat raw, args, handle⟩).toList =
            (before (· == tick) raw).toList ++
              '<' :: (Chars.joinWith [','] ((args.map display).map String.toList) ++ ['>']) := by
          obtain ⟨first, more, rfl⟩ := List.exists_cons_of_ne_nil hargs
          simp [displayNamed, displayAll_eq, toList_joinWith]
        rw [display, hshown]
        refine .generic hraw.isIdentifier_before (by simpa using hargs) fun a ha => ?_
        obtain ⟨p, hp, rfl⟩ := List.mem_map.mp ha
        obtain ⟨arg, harg, rfl⟩ := List.mem_map.mp hp
        exact ih arg harg
  | array _ ih => simpa [display, TypeMark.chars] using ih.append_mark (.rank 0)
  | pointer _ ih => simpa [display, TypeMark.chars] using ih.append_mark .pointer
  | byRef _ ih => simpa [display, TypeMark.chars] using ih.append_mark .reference
  | param h => exact .of_identifier h

end TypeRef

/-! ## Segments -/

namespace Name

theorem memberSegment_of_identifier {name : String} (h : IsIdentifier name) (params : List String) :
    memberSegment name params true = canonicalize (name ++ "(" ++ joinWith "," params ++ ")") := by
  have hdot : '.' ∉ name.toList := h.notMem (by decide)
  have hctor : name ≠ ".ctor" := by
    rintro rfl
    exact hdot (by decide)
  have hcctor : name ≠ ".cctor" := by
    rintro rfl
    exact hdot (by decide)
  simp [memberSegment, hctor, hcctor, moduleSegment, escapeDots_eq_self hdot]

/-- Short parameters stay, unless the method is named like an accessor. -/
theorem canonicalize_method {name : String} (h : IsIdentifier name)
    (hget : startsWith "get_" name = false) (hset : startsWith "set_" name = false)
    {params : List String} (hparams : ∀ p ∈ params, IsShort p.toList) :
    canonicalize (name ++ "(" ++ joinWith "," params ++ ")") =
      name ++ "(" ++ joinWith "," params ++ ")" := by
  have hchars : ∀ a ∈ params.map String.toList, IsArgument a := by
    intro a ha
    obtain ⟨p, hp, rfl⟩ := List.mem_map.mp ha
    exact (hparams p hp).toIsArgument
  have htext : (name ++ "(" ++ joinWith "," params ++ ")").toList =
      dottedName [] ⟨name, h⟩ ++ '(' :: (Chars.joinWith [','] (params.map String.toList) ++ [')']) := by
    simp [dottedName, toList_joinWith]
  have hstay := canonicalizeChars_dottedName [] ⟨name, h⟩ hget hset hchars
  rw [simpleParameters_texts fun p hp => (hparams p hp).isParameterText, ← htext] at hstay
  rw [canonicalize, hstay, String.ofList_toList]

end Name

namespace TypeRef

open CodeGraph.Name

/-- A method that is not named like an accessor shows its name and its parameters, and methods of
one name that display different parameters have different segments. -/
theorem memberSegment_display {name : String} (hname : IsIdentifier name)
    (hget : startsWith "get_" name = false) (hset : startsWith "set_" name = false)
    {types types' : List TypeRef} (h : ∀ t ∈ types, Displayable t) (h' : ∀ t ∈ types', Displayable t) :
    memberSegment name (types.map display) true =
        name ++ "(" ++ joinWith "," (types.map display) ++ ")" ∧
      canonicalize (memberSegment name (types.map display) true) =
        memberSegment name (types.map display) true ∧
      (types.map display ≠ types'.map display →
        memberSegment name (types.map display) true ≠
          memberSegment name (types'.map display) true) := by
  have hshort : ∀ {types : List TypeRef}, (∀ t ∈ types, Displayable t) →
      ∀ p ∈ types.map display, IsShort p.toList := by
    intro types h p hp
    obtain ⟨t, ht, rfl⟩ := List.mem_map.mp hp
    exact (h t ht).isShort
  have hstay := canonicalize_method hname hget hset (hshort h)
  have hstay' := canonicalize_method hname hget hset (hshort h')
  rw [memberSegment_of_identifier hname, memberSegment_of_identifier hname, hstay, hstay']
  refine ⟨rfl, hstay, fun hne heq => hne ?_⟩
  refine joinWith_parameters_injective (fun p hp => (hshort h p hp).isParameterText)
    (fun p hp => (hshort h' p hp).isParameterText) ?_
  have hchars := congrArg String.toList heq
  simpa [toList_joinWith] using hchars

/-- The parameters of the sample: an array of a nested generic type and a reference to a type. -/
def sampleTypes (last : TypeRef) : List TypeRef :=
  [.array (.named ⟨none, "N", ["Outer", "List" ++ "\x60" ++ "1"], [.named (.simple none "System" "Int32")],
    none⟩), .byRef last]

/-- A type of six type parameters. -/
def sampleFunc : TypeRef :=
  .named (.simple none "System" ("Func" ++ "\x60" ++ "6"))

theorem displayable_sampleTypes {last : TypeRef} (h : Displayable last) :
    ∀ t ∈ sampleTypes last, Displayable t := by
  have hint : Displayable (.named (.simple none "System" "Int32")) :=
    .named (by decide) (List.forall_mem_singleton.mpr (.plain (by decide))) (List.forall_mem_nil _)
  refine List.forall_mem_cons.mpr ⟨.array ?_, List.forall_mem_singleton.mpr (.byRef h)⟩
  refine .named (by decide) ?_ (List.forall_mem_singleton.mpr hint)
  refine List.forall_mem_cons.mpr ⟨.plain (by decide), List.forall_mem_singleton.mpr ?_⟩
  exact .generic (by decide) (by decide) (by decide)

theorem displayable_sampleFunc : Displayable sampleFunc :=
  .named (by decide) (List.forall_mem_singleton.mpr (.generic (by decide) (by decide) (by decide)))
    (List.forall_mem_nil _)

/-- An arity of six stays, and is told apart from a type parameter. -/
theorem memberSegment_display_arity :
    (∀ t ∈ sampleTypes sampleFunc, Displayable t) ∧ (∀ t ∈ sampleTypes (.param "T"), Displayable t) ∧
      memberSegment "Add" ((sampleTypes sampleFunc).map display) true = "Add(List<Int32>[],Func\x606&)" ∧
      memberSegment "Add" ((sampleTypes sampleFunc).map display) true ≠
        memberSegment "Add" ((sampleTypes (.param "T")).map display) true := by
  have hfunc := displayable_sampleTypes displayable_sampleFunc
  have hparam := displayable_sampleTypes (.param (by decide : IsIdentifier "T"))
  have hshown : (sampleTypes sampleFunc).map display = ["List<Int32>[]", "Func\x606&"] := by
    decide +kernel
  have hshown' : (sampleTypes (.param "T")).map display = ["List<Int32>[]", "T&"] := by
    decide +kernel
  obtain ⟨hsegment, -, hdiffer⟩ :=
    @memberSegment_display "Add" (by decide) (by decide) (by decide) _ _ hfunc hparam
  refine ⟨hfunc, hparam, ?_, hdiffer ?_⟩
  · rw [hsegment, hshown]
    decide +kernel
  · rw [hshown, hshown']
    decide

end TypeRef

end CodeGraph
