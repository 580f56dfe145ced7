import CodeGraph.Proofs.Name.Identifiers

namespace CodeGraph.Name

open CodeGraph.Text

/-!
# Type expressions

A type is written as a dotted name, its arguments in angle brackets, and the marks of arrays, pointers,
references and nullable types. Names at every depth are cut down to their last part, and everything
else stays.
-/

/-! ## Texts that may stand among arguments -/

inductive TypeMark where
  /-- An array of one more dimension than there are commas. -/
  | rank (commas : Nat)
  | pointer
  | reference
  | nullable

def TypeMark.chars : TypeMark → Chars
  | rank commas => '[' :: (List.replicate commas ',' ++ [']'])
  | pointer => ['*']
  | reference => ['&']
  | nullable => ['?']

/-- The characters of marks. -/
def markChars : Chars :=
  ['[', ',', ']', '*', '&', '?']

/-- The text is found again between the commas of an argument list, and the first passes find nothing in
it. -/
structure IsArgument (s : Chars) : Prop where
  ne_nil : s ≠ []
  solid : ∀ c ∈ s, isBlank c = false
  nested : Nested s
  uncut : Uncut ',' s
  steady : Steady s

namespace TypeMark

variable (mark : TypeMark)

theorem exists_cons : ∃ c s, mark.chars = c :: s ∧ isMark c = true := by
  cases mark with
  | rank => exact ⟨_, _, rfl, by decide⟩
  | _ => exact ⟨_, _, rfl, by decide⟩

theorem mem_chars {c : Char} (h : c ∈ mark.chars) : c ∈ markChars := by
  cases mark with
  | rank commas =>
      simp only [chars, markChars, List.mem_cons, List.mem_append, List.mem_replicate] at h ⊢
      tauto
  | _ =>
      obtain rfl := List.mem_singleton.mp h
      decide

theorem nested : Nested mark.chars := by
  cases mark with
  | rank commas => exact .rank commas .nil
  | _ => exact .of_all (by decide)

theorem uncut : Uncut ',' mark.chars := by
  cases mark with
  | rank commas =>
      exact (Brackets.rank commas).uncut (.of_plain fun c hc => List.eq_of_mem_replicate hc ▸ by decide)
        (by decide)
  | _ => exact .of_notMem (by decide)

theorem head?_flatMap (marks : List TypeMark) {c : Char}
    (h : (marks.flatMap chars).head? = some c) : isMark c = true := by
  cases marks with
  | nil => cases h
  | cons mark marks =>
      obtain ⟨d, s, hs, hd⟩ := mark.exists_cons
      rw [List.flatMap_cons, hs] at h
      obtain rfl := Option.some.inj h
      exact hd

theorem angle_notMem_flatMap (marks : List TypeMark) : '<' ∉ marks.flatMap chars := by
  intro hmem
  obtain ⟨mark, -, hangle⟩ := List.mem_flatMap.mp hmem
  exact absurd (mark.mem_chars hangle) (by decide)

/-- All characters of marks are delimiters. -/
theorem steady_append {s : Chars} (hs : Steady s) : Steady (s ++ mark.chars) := by
  have hall : ∀ c ∈ mark.chars, IsDelimiter c := by
    have hdelimiters : markChars.all (fun c => decide (IsDelimiter c)) = true := by decide
    exact fun c hc => of_decide_eq_true (List.all_eq_true.mp hdelimiters c (mark.mem_chars hc))
  generalize mark.chars = chars at hall
  induction chars generalizing s with
  | nil => simpa using hs
  | cons c chars ih =>
      have hmore := ih (hs.snoc (hall c List.mem_cons_self))
        fun d hd => hall d (List.mem_cons_of_mem c hd)
      simpa using hmore

end TypeMark

namespace IsArgument

variable {s base : Chars} {args : List Chars}

theorem isTrimmed (h : IsArgument s) : Chars.IsTrimmed s :=
  ⟨fun c hc => h.solid c (List.mem_of_head? hc), fun c hc => h.solid c (List.mem_of_getLast? hc)⟩

theorem mark (h : IsArgument s) (m : TypeMark) : IsArgument (s ++ m.chars) := by
  refine ⟨by simp [h.ne_nil], ?_, h.nested.append m.nested, h.uncut.append h.nested.net_eq_zero m.uncut,
    m.steady_append h.steady⟩
  intro c hc
  rcases List.mem_append.mp hc with hc | hc
  · exact h.solid c hc
  · have hsolid : markChars.all (! isBlank ·) = true := by decide
    simpa using List.all_eq_true.mp hsolid c (m.mem_chars hc)

theorem marks (h : IsArgument s) (marks : List TypeMark) :
    IsArgument (s ++ marks.flatMap TypeMark.chars) := by
  induction marks generalizing s with
  | nil => simpa using h
  | cons m marks ih => simpa using ih (h.mark m)

/-- Names that are put together with dots, and the ticks of arities that stay, may be arguments. -/
theorem of_chars (hne : s ≠ []) (hchars : ∀ c ∈ s, c = '.' ∨ c = tick ∨ IsNameChar c)
    (hsegmented : Segmented s) (hrendered : Rendered s) : IsArgument s := by
  have hall : ∀ {P : Char → Prop}, P '.' → P tick → (∀ c, IsNameChar c → P c) → ∀ c ∈ s, P c := by
    intro P hdot htick hname c hc
    rcases hchars c hc with rfl | rfl | hc
    · exact hdot
    · exact htick
    · exact hname c hc
  have hnotMem : ∀ {d}, d ≠ '.' → d ≠ tick → ¬ IsNameChar d → d ∉ s := fun hdot htick hd hmem =>
    (hchars _ hmem).elim hdot fun h => h.elim htick hd
  refine ⟨hne, hall (by decide) (by decide) fun c hc => hc.2.1,
    .of_plain (hall (by decide) (by decide) fun c hc => hc.1),
    .of_notMem (hnotMem (by decide) (by decide) (by decide)),
    ⟨colonsApart_of_notMem (hnotMem (by decide) (by decide) (by decide)), ?_, ?_⟩, hsegmented, hrendered⟩
  · exact hnotMem (by decide) (by decide) (by decide)
  · exact hnotMem (by decide) (by decide) (by decide)

theorem nested_joinWith (hargs : ∀ a ∈ args, IsArgument a) : Nested (Chars.joinWith [','] args) :=
  .joinWith fun a ha => (hargs a ha).nested

theorem steady_joinWith (hargs : ∀ a ∈ args, IsArgument a) : Steady (Chars.joinWith [','] args) :=
  .joinWith fun a ha => (hargs a ha).steady

theorem splitTop_joinWith (hne : args ≠ []) (hargs : ∀ a ∈ args, IsArgument a) :
    splitTop ',' 0 (Chars.joinWith [','] args) = args :=
  Name.splitTop_joinWith hne fun a ha => ⟨(hargs a ha).uncut, (hargs a ha).nested.net_eq_zero⟩

/-- Arguments may stand behind a name that has no arity. -/
theorem generic (h : IsArgument base) (htick : tick ∉ base) (hargs : ∀ a ∈ args, IsArgument a) :
    IsArgument (base ++ '<' :: (Chars.joinWith [','] args ++ ['>'])) := by
  have hinner := nested_joinWith hargs
  -- an arity in the name would be dropped in front of the bracket
  have hrendered : Rendered (base ++ ['<']) := rendered_of_notMem (by simpa using ⟨htick, by decide⟩)
  have hopen : Steady (base ++ ['<']) := by
    refine ⟨h.steady.separated.append (t := ['<']) ⟨?_, by decide⟩ (Or.inr (by decide)), ?_, hrendered⟩
    · simp [ColonsApart]
    · refine List.isChain_append.mpr ⟨h.steady.segmented, by simp, ?_⟩
      rintro x - y hy -
      obtain rfl : '<' = y := by simpa using hy
      decide
  refine ⟨by simp, ?_, h.nested.append (hinner.angle .nil),
    h.uncut.append h.nested.net_eq_zero ((Brackets.angle _).uncut hinner (by decide)),
    hopen.append ((steady_joinWith hargs).snoc (by decide)) (by decide) (by decide) (by simp)⟩
  intro c hc
  simp only [List.mem_append, List.mem_cons, List.not_mem_nil, or_false] at hc
  rcases hc with hc | rfl | hc | rfl
  · exact h.solid c hc
  · decide
  · rcases Chars.mem_joinWith hc with hc | ⟨a, ha, hc⟩
    · obtain rfl := List.mem_singleton.mp hc
      decide
    · exact (hargs a ha).solid c hc
  · decide

end IsArgument

/-! ## Dotted names -/

abbrev Identifier :=
  { s : String // IsIdentifier s }

def dottedName : List Identifier → Identifier → Chars
  | [], name => name.1.toList
  | first :: above, name => first.1.toList ++ '.' :: dottedName above name

section DottedName

variable (above : List Identifier) (name : Identifier)

theorem mem_dottedName {c : Char} (h : c ∈ dottedName above name) : c = '.' ∨ IsNameChar c := by
  induction above with
  | nil => exact Or.inr (name.2.chars c h)
  | cons first above ih =>
      rcases List.mem_append.mp h with h | h
      · exact Or.inr (first.2.chars c h)
      · exact (List.mem_cons.mp h).elim Or.inl ih

theorem notMem_dottedName {c : Char} (hdot : c ≠ '.') (hc : ¬ IsNameChar c) :
    c ∉ dottedName above name :=
  fun h => (mem_dottedName above name h).elim hdot hc

theorem exists_dottedName : ∃ c s, dottedName above name = c :: s ∧ IsNameChar c := by
  cases above with
  | nil =>
      obtain ⟨c, s, hs⟩ := List.exists_cons_of_ne_nil name.2.toList_ne_nil
      exact ⟨c, s, hs, name.2.chars c (by simp [hs])⟩
  | cons first above =>
      obtain ⟨c, s, hs⟩ := List.exists_cons_of_ne_nil first.2.toList_ne_nil
      exact ⟨c, _, by rw [dottedName, hs, List.cons_append], first.2.chars c (by simp [hs])⟩

theorem isPlain_of_mem_dottedName {c : Char} (h : c ∈ dottedName above name) : IsPlain c := by
  rcases mem_dottedName above name h with rfl | h
  · decide
  · exact h.1

theorem segmented_dottedName : Segmented (dottedName above name) := by
  induction above with
  | nil => exact segmented_of_notMem (name.2.notMem (by decide))
  | cons first above ih =>
      obtain ⟨c, s, hs, hc⟩ := exists_dottedName above name
      rw [dottedName, hs]
      rw [hs] at ih
      refine List.isChain_append_cons_cons.mpr ⟨?_, fun _ => ⟨hc.ne (by decide), hc.2.1⟩, ih⟩
      refine List.isChain_append.mpr ⟨segmented_of_notMem (first.2.notMem (by decide)), by simp, ?_⟩
      rintro d hd y - rfl
      exact absurd (List.mem_of_getLast? hd) (first.2.notMem (by decide))

theorem isArgument_dottedName : IsArgument (dottedName above name) := by
  obtain ⟨c, s, hs, -⟩ := exists_dottedName above name
  refine .of_chars (by simp [hs]) (fun c hc => (mem_dottedName above name hc).imp_right Or.inr)
    (segmented_dottedName above name) (rendered_of_notMem ?_)
  exact notMem_dottedName above name (by decide) (by decide)

theorem lastDotted_dottedName : lastDotted (dottedName above name) = name.1.toList := by
  induction above with
  | nil => exact Chars.behindLast_of_notMem (name.2.notMem (by decide))
  | cons first above ih => exact (Chars.behindLast_append_cons '.' _ _).trans ih

end DottedName

/-- Where there are no brackets the last segment is what stands behind the last dot. -/
theorem splitLast_snd_of_plain {s : Chars} (h : ∀ c ∈ s, IsPlain c) (hhead : s.head? ≠ some '.') :
    (splitLast s).2 = lastDotted s := by
  obtain ⟨hnone, hcases⟩ := splitLast_cases hhead
  have hdot : (∀ c ∈ (splitLast s).2, IsPlain c) → '.' ∉ (splitLast s).2 := by
    intro hplain hmem
    obtain ⟨a, b, hab⟩ := List.append_of_mem hmem
    have ha : Nested a := .of_plain fun c hc => hplain c (by simp [hab, hc])
    exact lastDot?_eq_none_iff.mp hnone a b hab (by simp [ha.net_eq_zero])
  rcases hcases with ⟨-, hlast⟩ | ⟨-, hsplit⟩
  · have hbehind := Chars.behindLast_of_notMem (hdot (by rwa [hlast]))
    rw [hlast] at hbehind ⊢
    exact hbehind.symm
  · have hbehind := Chars.behindLast_append_cons '.' (splitLast s).1 (splitLast s).2
    rw [← hsplit, Chars.behindLast_of_notMem (hdot fun c hc => h c (by rw [hsplit]; simp [hc]))] at hbehind
    exact hbehind.symm

/-- The parameters of a method that is not named like an accessor are cut down. -/
theorem canonicalizeChars_dottedName (above : List Identifier) (name : Identifier)
    (hget : startsWith "get_" name.1 = false) (hset : startsWith "set_" name.1 = false)
    {params : List Chars} (hparams : ∀ p ∈ params, IsArgument p) :
    canonicalizeChars (dottedName above name ++ '(' :: (Chars.joinWith [','] params ++ [')'])) =
      dottedName above name ++
        '(' :: (Chars.joinWith [','] (simpleParameters (Chars.joinWith [','] params)) ++ [')']) := by
  obtain ⟨c, s, hs, hc⟩ := exists_dottedName above name
  have hhead := isArgument_dottedName above name
  have hstart : (dottedName above name).head? = some c := by rw [hs]; rfl
  have hlast : (splitLast (dottedName above name)).2 = name.1.toList := by
    rw [splitLast_snd_of_plain (fun d hd => isPlain_of_mem_dottedName above name hd), lastDotted_dottedName]
    rw [hstart]
    exact fun hdot => hc.ne (by decide) (Option.some.inj hdot)
  refine canonicalizeChars_parameters hhead.ne_nil hhead.steady hhead.nested.ranksOnly ?_
    (IsArgument.nested_joinWith hparams) (IsArgument.steady_joinWith hparams) ?_
  · intro d hd
    obtain rfl := Option.some.inj (hstart.symm.trans hd)
    exact ⟨hc.2.1, hc.ne (by decide)⟩
  · rw [hlast]
    exact name.2.accessorProperty_eq_none hget hset

/-! ## Expressions -/

inductive TypeExpr where
  | mk (above : List Identifier) (name : Identifier) (args : List TypeExpr) (marks : List TypeMark)

/-- The arguments of a type in their brackets, nothing when there are none. -/
def enclosed : List Chars → Chars
  | [] => []
  | args => '<' :: (Chars.joinWith [','] args ++ ['>'])

theorem enclosed_of_ne_nil {args : List Chars} (h : args ≠ []) :
    enclosed args = '<' :: (Chars.joinWith [','] args ++ ['>']) := by
  cases args with
  | nil => exact absurd rfl h
  | cons first more => rfl

namespace TypeExpr

mutual

def chars : TypeExpr → Chars
  | mk above name args marks =>
    dottedName above name ++ enclosed (charsAll args) ++ marks.flatMap TypeMark.chars

def charsAll : List TypeExpr → List Chars
  | [] => []
  | t :: more => chars t :: charsAll more

end

mutual

/-- Every name is cut down to its last part. -/
def lastNamed : TypeExpr → TypeExpr
  | mk _ name args marks => mk [] name (lastNamedAll args) marks

def lastNamedAll : List TypeExpr → List TypeExpr
  | [] => []
  | t :: more => lastNamed t :: lastNamedAll more

end

def text (t : TypeExpr) : String :=
  .ofList t.chars

@[induction_eliminator]
theorem induction {P : TypeExpr → Prop}
    (mk : ∀ above name args marks, (∀ a ∈ args, P a) → P (.mk above name args marks)) (t : TypeExpr) :
    P t :=
  @TypeExpr.rec P (fun args => ∀ a ∈ args, P a) mk (List.forall_mem_nil P)
    (fun _ _ hfirst hmore => List.forall_mem_cons.mpr ⟨hfirst, hmore⟩) t

@[simp] theorem charsAll_eq (args : List TypeExpr) : charsAll args = args.map chars := by
  induction args with
  | nil => rfl
  | cons t more ih => rw [charsAll, ih, List.map_cons]

@[simp] theorem lastNamedAll_eq (args : List TypeExpr) : lastNamedAll args = args.map lastNamed := by
  induction args with
  | nil => rfl
  | cons t more ih => rw [lastNamedAll, ih, List.map_cons]

theorem isArgument_chars (t : TypeExpr) : IsArgument t.chars := by
  induction t with
  | mk above name args marks ih =>
      have hname := isArgument_dottedName above name
      rw [chars, charsAll_eq]
      refine IsArgument.marks ?_ marks
      cases args with
      | nil => simpa [enclosed] using hname
      | cons first more =>
          refine hname.generic (notMem_dottedName above name (by decide) (by decide)) fun a ha => ?_
          obtain ⟨t, ht, rfl⟩ := List.mem_map.mp ha
          exact ih t ht

theorem isArgument_map (types : List TypeExpr) : ∀ a ∈ types.map chars, IsArgument a := by
  intro a ha
  obtain ⟨t, -, rfl⟩ := List.mem_map.mp ha
  exact t.isArgument_chars

theorem map_simplify {types : List TypeExpr}
    (h : ∀ t ∈ types, simplifyTypeChars t.chars = t.lastNamed.chars) :
    (types.map chars).map simplifyTypeChars = (types.map lastNamed).map chars := by
  rw [List.map_map, List.map_map]
  exact List.map_congr_left h

/-- At every depth the name is found in front of its arguments and its marks. -/
theorem simplify_chars (t : TypeExpr) : simplifyTypeChars t.chars = t.lastNamed.chars := by
  induction t with
  | mk above name args marks ih =>
      have hwhole := isArgument_chars (.mk above name args marks)
      have hname := lastDotted_dottedName above name
      have hangle : '<' ∉ dottedName above name := notMem_dottedName above name (by decide) (by decide)
      rw [simplifyTypeChars_eq, Chars.trim_eq_self hwhole.isTrimmed,
        if_neg (by simpa using hwhole.ne_nil), lastNamed, lastNamedAll_eq, chars, chars, charsAll_eq,
        charsAll_eq]
      rcases eq_or_ne args [] with rfl | hne
      · -- no angle bracket stands in the marks, so the first mark ends the name
        have hmark : ∀ c ∈ dottedName above name, isMark c = false := by
          intro c hc
          rcases mem_dottedName above name hc with rfl | hc
          · decide
          · exact hc.isMark_eq_false
        have hsplit := splitGeneric_marked hmark (fun c hc => TypeMark.head?_flatMap marks hc)
          (List.not_mem_append hangle (TypeMark.angle_notMem_flatMap marks))
        simp [enclosed, dottedName, hsplit, hname]
      · have hsplit := splitGeneric_generic (r := marks.flatMap TypeMark.chars) hangle
          (IsArgument.nested_joinWith (isArgument_map args))
        have hparts := IsArgument.splitTop_joinWith (by simpa using hne) (isArgument_map args)
        rw [enclosed_of_ne_nil (by simpa using hne), enclosed_of_ne_nil (by simpa using hne), dottedName]
        simp only [List.append_assoc, List.cons_append, List.nil_append, hsplit, hparts, map_simplify ih,
          hname]

end TypeExpr

/-- A call of a method with parameters of these types. -/
def callText (above : List Identifier) (name : Identifier) (params : List TypeExpr) : String :=
  .ofList (dottedName above name ++ '(' :: (Chars.joinWith [','] (params.map TypeExpr.chars) ++ [')']))

/-- A type is cut down to the expression of its last names, and so is each parameter of a canonical name. -/
theorem simplifyType_text :
    (∀ t : TypeExpr, simplifyType t.text = t.lastNamed.text) ∧
      ∀ (above : List Identifier) (name : Identifier) (params : List TypeExpr),
        startsWith "get_" name.1 = false → startsWith "set_" name.1 = false →
          canonicalize (callText above name params) =
            callText above name (params.map TypeExpr.lastNamed) := by
  refine ⟨fun t => ?_, fun above name params hget hset => ?_⟩
  · rw [simplifyType, TypeExpr.text, String.toList_ofList, t.simplify_chars, TypeExpr.text]
  · have hparams := TypeExpr.isArgument_map params
    have hsimple : simpleParameters (Chars.joinWith [','] (params.map TypeExpr.chars)) =
        (params.map TypeExpr.lastNamed).map TypeExpr.chars := by
      rw [simpleParameters_eq_map, TypeExpr.map_simplify fun t _ => t.simplify_chars]
      intro p hp
      refine ⟨(hparams p hp).nested, (hparams p hp).uncut, ?_⟩
      obtain ⟨t, -, rfl⟩ := List.mem_map.mp hp
      rw [t.simplify_chars]
      exact t.lastNamed.isArgument_chars.ne_nil
    rw [canonicalize, callText, String.toList_ofList,
      canonicalizeChars_dottedName above name hget hset hparams, hsimple, callText]

/-- Arguments, ranks and marks stay at every depth. -/
theorem simplifyType_text_dictionary :
    startsWith "get_" "Bar" = false ∧ startsWith "set_" "Bar" = false ∧
      canonicalize "N.Foo.Bar(System.Collections.Dictionary<System.String,N.Item[,]*>[]?,System.Int32&)" =
        "N.Foo.Bar(Dictionary<String,Item[,]*>[]?,Int32&)" := by
  let system : Identifier := ⟨"System", by decide⟩
  let string : TypeExpr := .mk [system] ⟨"String", by decide⟩ [] []
  let item : TypeExpr := .mk [⟨"N", by decide⟩] ⟨"Item", by decide⟩ [] [.rank 1, .pointer]
  let dictionary : TypeExpr := .mk [system, ⟨"Collections", by decide⟩] ⟨"Dictionary", by decide⟩
    [string, item] [.rank 0, .nullable]
  let int : TypeExpr := .mk [system] ⟨"Int32", by decide⟩ [] [.reference]
  let foo : List Identifier := [⟨"N", by decide⟩, ⟨"Foo", by decide⟩]
  let bar : Identifier := ⟨"Bar", by decide⟩
  have hraw : callText foo bar [dictionary, int] =
      "N.Foo.Bar(System.Collections.Dictionary<System.String,N.Item[,]*>[]?,System.Int32&)" := by
    decide +kernel
  have hcanonical : callText foo bar ([dictionary, int].map TypeExpr.lastNamed) =
      "N.Foo.Bar(Dictionary<String,Item[,]*>[]?,Int32&)" := by
    decide +kernel
  have hget : startsWith "get_" "Bar" = false := by decide
  have hset : startsWith "set_" "Bar" = false := by decide
  refine ⟨hget, hset, ?_⟩
  rw [← hraw, ← hcanonical]
  exact simplifyType_text.2 foo bar [dictionary, int] hget hset

end CodeGraph.Name
