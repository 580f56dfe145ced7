import CodeGraph.Proofs.Name.TypeNames

namespace CodeGraph.Name

open CodeGraph.Text

/-!
# The names of members

The segment of a method shows its name and its parameters. Members of other kinds, and methods that are
named like accessors, are shown by a name alone: two of them have one segment as soon as these names
agree, whatever their parameters are.
-/

/-- What stands in front of a character that it does not contain can be read off. -/
theorem append_cons_cancel {a b x y : Chars} {d : Char} (ha : d ∉ a) (hb : d ∉ b)
    (h : a ++ d :: x = b ++ d :: y) : a = b ∧ x = y := by
  have hcut := Chars.cut?_append (beq_of_notMem ha) (beq_self_eq_true d) x
  rw [h, Chars.cut?_append (beq_of_notMem hb) (beq_self_eq_true d) y] at hcut
  simp only [Option.some.injEq, Prod.mk.injEq] at hcut
  exact ⟨hcut.1.symm, hcut.2.2.symm⟩

/-- What a member is called in front of its parameters. -/
def memberHead (raw : String) : Chars :=
  if raw = ".ctor" then ['#', 'c', 't', 'o', 'r']
  else if raw = ".cctor" then ['#', 'c', 'c', 't', 'o', 'r']
  else escapeDots raw.toList

/-- The name that shows a member without its parameters, none when these are shown. -/
def bareName? (raw : String) (isMethod : Bool) : Option Chars :=
  if isMethod then accessorProperty (memberHead raw) else some (memberHead raw)

/-- The characters that member names of metadata and sources do not have: the separators but the dot, the
marks that are written for dots, and the tick of an arity. -/
def memberForeign : Chars :=
  ['*', '#', '/', '+', ':', tick]

/-- A raw member name as metadata and sources have them; that of an explicit implementation has the dots
and the arguments of its interface. -/
structure IsMemberText (raw : String) : Prop where
  ne_empty : raw ≠ ""
  text : Without memberForeign raw.toList

/-- A parameter as it is displayed, cut down to the last segments. -/
structure IsParameterText (p : String) : Prop where
  ne_empty : p ≠ ""
  simple : Simple p.toList
  uncut : Uncut ',' p.toList
  steady : Steady p.toList

theorem IsParameterText.of_all {p : String} (hne : p ≠ "")
    (h : p.toList.all (fun c => decide (IsPlain c ∧ isBlank c = false ∧
      c ∉ separators ++ [tick, ',', '[', '&', '*', '?'])) = true) : IsParameterText p := by
  have htext : Without (separators ++ [tick, ',', '[', '&', '*', '?']) p.toList := .of_all h
  have hquiet : IsQuiet p.toList :=
    ⟨htext.nested, htext.trimmed, fun c hc hforeign => htext.absent c hc (List.mem_append_left _ hforeign)⟩
  have hangle : '<' ∉ p.toList := by
    intro hmem
    have hplain := (of_decide_eq_true (List.all_eq_true.mp h _ hmem)).1
    exact absurd hplain (by decide)
  have hmark : ∀ c ∈ p.toList, isMark c = false := by
    intro c hc
    have hne : ∀ d ∈ ['[', '&', '*', '?'], (c == d) = false := by
      intro d hd
      rw [beq_eq_false_iff_ne]
      rintro rfl
      exact htext.absent c hc (List.mem_append_right _ (List.mem_cons_of_mem _ (List.mem_cons_of_mem _ hd)))
    simp [isMark, hne]
  refine ⟨hne, ?_, .of_notMem (htext.notMem (by decide)), hquiet.steady (htext.notMem (by decide))⟩
  have hname := @Simple.name p.toList [] (hquiet.notMem (by decide)) hmark (by simp)
    (by simpa using hangle) (by simpa using hquiet.nested) (by simpa using hquiet.trimmed)
  simpa using hname

/-! ## Heads -/

theorem Nested.escapeDots {s : Chars} (h : Nested s) : Nested (escapeDots s) := by
  induction h with
  | nil => exact .nil
  | @plain c r hc _ ih =>
      refine .plain ?_ ih
      dsimp only
      split
      · decide
      · exact hc
  | @group o c a r hp ha hr iha ihr =>
      have hsplit : Name.escapeDots (o :: (a ++ c :: r)) =
          o :: (Name.escapeDots a ++ c :: Name.escapeDots r) := by
        cases hp <;> simp [Name.escapeDots]
      rw [hsplit]
      cases hp with
      | angle => exact iha.angle ihr
      | rank k =>
          rw [escapeDots_eq_self (by simp)]
          exact .rank k ihr

theorem mem_escapeDots {s : Chars} {c : Char} (h : c ∈ escapeDots s) : c = '*' ∨ c ∈ s ∧ c ≠ '.' := by
  obtain ⟨d, hd, rfl⟩ := List.mem_map.mp h
  by_cases hdot : d = '.'
  · simp [hdot]
  · simp [hdot, hd]

theorem escapeDots_injective {a b : Chars} (ha : '*' ∉ a) (hb : '*' ∉ b)
    (h : escapeDots a = escapeDots b) : a = b := by
  induction a generalizing b with
  | nil => exact (List.map_eq_nil_iff.mp h.symm).symm
  | cons c a ih =>
      cases b with
      | nil => simp [escapeDots] at h
      | cons d b =>
          obtain ⟨hhead, htail⟩ := List.cons.inj h
          obtain ⟨hc, ha⟩ := not_or.mp (fun hmem => ha (List.mem_cons.mpr hmem))
          obtain ⟨hd, hb⟩ := not_or.mp (fun hmem => hb (List.mem_cons.mpr hmem))
          have hcd : c = d := by
            by_cases hcdot : c = '.' <;> by_cases hddot : d = '.' <;> simp_all
          rw [hcd, ih ha hb htail]

/-- The dots are written otherwise, so that no separator is left. -/
theorem Without.escapeDots {s : Chars} (h : Without ['/', '+', ':'] s) : IsQuiet (escapeDots s) := by
  have hends : ∀ c, isBlank c = false → isBlank (if c = '.' then '*' else c) = false := by
    intro c hc
    split
    · decide
    · exact hc
  refine ⟨h.nested.escapeDots, ⟨?_, ?_⟩, ?_⟩
  · intro c hc
    rw [Name.escapeDots, List.head?_map, Option.map_eq_some_iff] at hc
    obtain ⟨d, hd, rfl⟩ := hc
    exact hends d (h.trimmed.1 d hd)
  · intro c hc
    rw [Name.escapeDots, List.getLast?_map, Option.map_eq_some_iff] at hc
    obtain ⟨d, hd, rfl⟩ := hc
    exact hends d (h.trimmed.2 d hd)
  · intro c hc hforeign
    rcases mem_escapeDots hc with rfl | ⟨hc, hdot⟩
    · exact absurd hforeign (by decide)
    · exact (List.mem_cons.mp hforeign).elim hdot (h.absent c hc)

namespace IsMemberText

variable {raw : String} (h : IsMemberText raw)

include h

theorem quiet_escapeDots : IsQuiet (escapeDots raw.toList) := by
  have hsubset : ['/', '+', ':'] ⊆ memberForeign := by decide
  exact .escapeDots ⟨h.text.nested, h.text.trimmed, fun c hc hforeign =>
    h.text.absent c hc (hsubset hforeign)⟩

/-- Nothing stands in the head that the passes look for. -/
theorem head : IsQuiet (memberHead raw) ∧ tick ∉ memberHead raw ∧ memberHead raw ≠ [] := by
  unfold memberHead
  split
  · exact ⟨.of_all (by decide), by decide, by decide⟩
  · split
    · exact ⟨.of_all (by decide), by decide, by decide⟩
    · refine ⟨h.quiet_escapeDots, fun htick => ?_, fun hnil => ?_⟩
      · rcases mem_escapeDots htick with heq | ⟨hmem, -⟩
        · exact absurd heq (by decide)
        · exact h.text.notMem (by decide) hmem
      · exact toList_ne_nil h.ne_empty (List.map_eq_nil_iff.mp hnil)

theorem hash_mem_head_iff : '#' ∈ memberHead raw ↔ raw = ".ctor" ∨ raw = ".cctor" := by
  unfold memberHead
  split
  · next heq => simp [heq]
  · split
    · next heq => simp [heq]
    · next hctor hcctor =>
        have hhash : '#' ∉ escapeDots raw.toList := by
          intro hmem
          rcases mem_escapeDots hmem with heq | ⟨hmem, -⟩
          · exact absurd heq (by decide)
          · exact h.text.notMem (by decide) hmem
        simp [hctor, hcctor, hhash]

end IsMemberText

theorem memberHead_injective {a b : String} (ha : IsMemberText a) (hb : IsMemberText b)
    (h : memberHead a = memberHead b) : a = b := by
  have hhash : (a = ".ctor" ∨ a = ".cctor") ↔ (b = ".ctor" ∨ b = ".cctor") := by
    rw [← ha.hash_mem_head_iff, ← hb.hash_mem_head_iff, h]
  by_cases hctor : a = ".ctor" ∨ a = ".cctor"
  · rcases hctor with rfl | rfl <;> rcases hhash.mp (by simp) with rfl | rfl <;> simp_all [memberHead]
  · have hctor' := fun hb => hctor (hhash.mpr hb)
    rw [not_or] at hctor
    obtain ⟨hb₁, hb₂⟩ := not_or.mp hctor'
    simp only [memberHead, hctor.1, hctor.2, hb₁, hb₂, if_false] at h
    exact String.toList_injective (escapeDots_injective (ha.text.notMem (by decide)) (hb.text.notMem (by decide)) h)

/-! ## Segments -/

theorem toList_joinWith (params : List String) :
    (joinWith "," params).toList = Chars.joinWith [','] (params.map String.toList) :=
  Chars.toList_joinWith "," params

/-- What is shown of a method that is not named like an accessor. -/
def methodText (raw : String) (params : List String) : Chars :=
  memberHead raw ++ '(' :: (Chars.joinWith [','] (params.map String.toList) ++ [')'])

theorem toList_memberSegment (raw : String) (params : List String) (isMethod : Bool) :
    (memberSegment raw params isMethod).toList =
      canonicalizeChars (if isMethod then methodText raw params else memberHead raw) := by
  have hhead : (if raw = ".ctor" then "#ctor" else if raw = ".cctor" then "#cctor"
      else moduleSegment raw).toList = memberHead raw := by
    unfold memberHead
    split
    · rfl
    · split
      · rfl
      · simp [moduleSegment]
  cases isMethod with
  | false => simp [memberSegment, canonicalize, hhead]
  | true => simp [memberSegment, canonicalize, hhead, methodText, toList_joinWith]

section Segments

variable {raw : String} {params : List String} (h : IsMemberText raw)
  (hparams : ∀ p ∈ params, IsParameterText p)

include hparams

theorem nested_parameters : Nested (Chars.joinWith [','] (params.map String.toList)) := by
  refine .joinWith fun part hpart => ?_
  obtain ⟨p, hp, rfl⟩ := List.mem_map.mp hpart
  exact (hparams p hp).simple.nested

theorem simpleParameters_texts :
    simpleParameters (Chars.joinWith [','] (params.map String.toList)) = params.map String.toList := by
  refine simpleParameters_joinWith fun part hpart => ?_
  obtain ⟨p, hp, rfl⟩ := List.mem_map.mp hpart
  exact ⟨(hparams p hp).simple, (hparams p hp).uncut, toList_ne_nil (hparams p hp).ne_empty⟩

/-- Parameters that are joined alike are the same. -/
theorem joinWith_parameters_injective {params' : List String} (hparams' : ∀ p ∈ params', IsParameterText p)
    (h : Chars.joinWith [','] (params.map String.toList) = Chars.joinWith [','] (params'.map String.toList)) :
    params = params' := by
  have htexts := simpleParameters_texts hparams
  rw [h, simpleParameters_texts hparams'] at htexts
  exact (List.map_injective_iff.mpr (fun _ _ => String.toList_injective) htexts).symm

include h

/-- The parameters of a method stay, unless it is named like an accessor. -/
theorem canonicalizeChars_methodText :
    canonicalizeChars (methodText raw params) =
      (bareName? raw true).getD (methodText raw params) := by
  obtain ⟨hquiet, htick, hne⟩ := h.head
  have hnested := nested_parameters hparams
  have hinner : Steady (Chars.joinWith [','] (params.map String.toList)) := by
    refine .joinWith fun part hpart => ?_
    obtain ⟨p, hp, rfl⟩ := List.mem_map.mp hpart
    exact (hparams p hp).steady
  have hstart : ∀ c, (memberHead raw).head? = some c → isBlank c = false ∧ c ≠ '.' := by
    intro c hc
    refine ⟨hquiet.trimmed.1 c hc, ?_⟩
    rintro rfl
    exact hquiet.head?_ne hc
  have hsettle : settle (methodText raw params) = methodText raw params :=
    settle_parameters hne (hquiet.steady htick) hquiet.nested.ranksOnly hstart hnested hinner
  have hsplit := hnested.closes.splitParameters_eq hne
  rw [canonicalizeChars_eq, hsettle]
  cases haccessor : accessorProperty (memberHead raw) with
  | some property =>
      simp [methodText, finish, hsplit, hquiet.splitLast_eq, haccessor, joinChars, bareName?]
  | none =>
      have hfinish := finish_of_parameters hquiet.head?_ne hsplit (by rwa [hquiet.splitLast_eq])
      rw [simpleParameters_texts hparams] at hfinish
      simp only [bareName?, if_true, haccessor, Option.getD_none]
      exact hfinish

theorem memberSegment_eq (isMethod : Bool) :
    (memberSegment raw params isMethod).toList =
      (bareName? raw isMethod).getD (methodText raw params) := by
  rw [toList_memberSegment]
  cases isMethod with
  | true => exact canonicalizeChars_methodText h hparams
  | false =>
      obtain ⟨hquiet, htick, -⟩ := h.head
      have hhead : collapseArity (memberHead raw) = memberHead raw := rendered_of_notMem htick
      simp [hquiet.canonicalizeChars_eq (hhead.symm ▸ hquiet.nested), hhead, bareName?]

end Segments

/-- The bare name of a member is made of characters of its head. -/
theorem of_bareName? {raw : String} (h : IsMemberText raw) {isMethod : Bool} {name : Chars}
    (hname : bareName? raw isMethod = some name) :
    name ⊆ memberHead raw ∧ name ≠ [] ∧ net name = 0 := by
  obtain ⟨hquiet, -, hne⟩ := h.head
  cases isMethod with
  | false =>
      obtain rfl := Option.some.inj hname
      exact ⟨List.Subset.refl _, hne, hquiet.nested.net_eq_zero⟩
  | true =>
      obtain ⟨q, verb, x, hhead, rfl, hx, hverb, -⟩ := accessorProperty_eq_some hname
      have hnet := hquiet.nested.net_eq_zero
      have hverbNet : net verb = 0 := by
        rcases hverb with rfl | rfl <;> decide
      rw [hhead, net_append, net_append, hverbNet, net_plain_cons (by decide)] at hnet
      refine ⟨?_, by simp [hx], by rw [net_append]; omega⟩
      rw [hhead]
      intro c hc
      rcases List.mem_append.mp hc with hc | hc <;> simp [hc]

/-- Inside of a parameter list nothing is cut. -/
theorem uncut_round {sep : Char} {a : Chars} (ha : Nested a) (hsep : IsPlain sep) :
    Uncut sep ('(' :: (a ++ [')'])) := by
  intro x y hxy
  rcases List.cons_eq_append_iff.mp hxy with ⟨rfl, hy⟩ | ⟨x, rfl, hrest⟩
  · exact absurd (List.cons.inj hy).1 (hsep.ne (by decide))
  · have hopen : depthAfter 0 '(' = 1 := by decide
    have hx : 0 ≤ net x := by
      rcases List.append_eq_append_iff.mp hrest with ⟨z, rfl, hz⟩ | ⟨z, rfl, -⟩
      · cases z with
        | nil => exact absurd (List.cons.inj hz).1.symm (hsep.ne (by decide))
        | cons d z => simp at hz
      · exact ha.net_prefix_nonneg x z rfl
    rw [net_cons, hopen]
    omega

section Shown

variable {raw : String} {params : List String} (h : IsMemberText raw)
  (hparams : ∀ p ∈ params, IsParameterText p)

include h hparams

theorem isSegment_memberSegment (isMethod : Bool) :
    IsSegment (memberSegment raw params isMethod) := by
  obtain ⟨hquiet, -, hne⟩ := h.head
  have hsegment := memberSegment_eq h hparams isMethod
  cases hbare : bareName? raw isMethod with
  | some name =>
      obtain ⟨hsub, hname, hnet⟩ := of_bareName? h hbare
      rw [hbare, Option.getD_some] at hsegment
      refine ⟨fun hempty => ?_, by rw [Balanced, hsegment, hnet], isUndotted_of_notMem ?_⟩
      · rw [hempty] at hsegment
        exact hname hsegment.symm
      · rw [hsegment]
        exact fun hdot => hquiet.notMem (by decide) (hsub hdot)
  | none =>
      have hnested := nested_parameters hparams
      rw [hbare, Option.getD_none] at hsegment
      refine ⟨fun hempty => ?_, ?_, ?_⟩
      · rw [hempty] at hsegment
        simp [methodText] at hsegment
      · have hround : depthAfter 0 '(' = 1 ∧ depthAfter 0 ')' = -1 := by decide
        rw [Balanced, hsegment, methodText, net_append, net_cons, net_append, net_cons, net_nil,
          hquiet.nested.net_eq_zero, hnested.net_eq_zero, hround.1, hround.2]
        rfl
      · have hundotted : Uncut '.' (methodText raw params) :=
          (Uncut.of_notMem (hquiet.notMem (by decide))).append hquiet.nested.net_eq_zero
            (uncut_round hnested (by decide))
        exact fun a b hab => hundotted a b (hsegment ▸ hab)

end Shown

/-- Two members of one segment are shown by one bare name, or they are methods of one name with the same
parameters. -/
theorem memberSegment_injective {raw raw' : String} {params params' : List String}
    {isMethod isMethod' : Bool} (h : IsMemberText raw) (h' : IsMemberText raw')
    (hparams : ∀ p ∈ params, IsParameterText p) (hparams' : ∀ p ∈ params', IsParameterText p)
    (hbare : ∀ name, bareName? raw isMethod = some name → bareName? raw' isMethod' ≠ some name)
    (hsegment : memberSegment raw params isMethod = memberSegment raw' params' isMethod') :
    raw = raw' ∧ params = params' := by
  have hchars := congrArg String.toList hsegment
  rw [memberSegment_eq h hparams, memberSegment_eq h' hparams'] at hchars
  have hround : ∀ {raw}, IsMemberText raw → '(' ∉ memberHead raw :=
    fun h => h.head.1.nested.round_notMem.1
  -- a bare name has no round bracket, and the text of a method has one
  have hclash : ∀ {raw raw' : String} {params : List String} {m : Bool} {name : Chars},
      IsMemberText raw → bareName? raw m = some name → name ≠ methodText raw' params := by
    rintro raw raw' params m name h hname rfl
    exact hround h ((of_bareName? h hname).1 (by simp [methodText]))
  cases hname : bareName? raw isMethod with
  | some name =>
      cases hname' : bareName? raw' isMethod' with
      | some name' =>
          rw [hname, hname'] at hchars
          obtain rfl : name = name' := hchars
          exact absurd hname' (hbare name hname)
      | none =>
          rw [hname, hname'] at hchars
          exact absurd hchars (hclash h hname)
  | none =>
      cases hname' : bareName? raw' isMethod' with
      | some name' =>
          rw [hname, hname'] at hchars
          exact absurd hchars.symm (hclash h' hname')
      | none =>
          rw [hname, hname'] at hchars
          obtain ⟨hhead, hrest⟩ := append_cons_cancel (hround h) (hround h') hchars
          exact ⟨memberHead_injective h h' hhead,
            joinWith_parameters_injective hparams hparams' (List.append_cancel_right hrest)⟩

/-- A member has the segment of a type only when its bare name is that of the type. -/
theorem memberSegment_ne_typeSegment {raw type : String} {params : List String} {isMethod : Bool}
    (h : IsMemberText raw) (hparams : ∀ p ∈ params, IsParameterText p) (htype : IsTypeText type)
    (hbare : bareName? raw isMethod ≠ some (typeSegment type).toList) :
    memberSegment raw params isMethod ≠ typeSegment type := by
  intro heq
  have hsegment := memberSegment_eq h hparams isMethod
  rw [heq] at hsegment
  cases hname : bareName? raw isMethod with
  | some name =>
      rw [hname, Option.getD_some] at hsegment
      exact hbare (by rw [hname, hsegment])
  | none =>
      rw [hname, Option.getD_none] at hsegment
      apply htype.nested.round_notMem.1
      rw [hsegment]
      simp [methodText]

end CodeGraph.Name
