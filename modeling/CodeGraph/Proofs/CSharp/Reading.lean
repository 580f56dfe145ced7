import CodeGraph.Proofs.CSharp.Spelling

namespace CodeGraph.CSharp.WrittenType

open CodeGraph.Text

/-!
# Reading a spelled type

The reader gives back the tree that was spelled. It takes no more than four steps for each token, and it
stops where neither a part of the name nor a mark follows.
-/

/-- What would go on with a name. -/
def continuing : List Token :=
  [.mark '<', .mark '.', .doubleColon]

/-- What would go on with a type. -/
def marking : List Token :=
  [.mark '[', .mark '*', .mark '?']

/-- The tokens do not begin with one of these. -/
def Avoids (stops ts : List Token) : Prop :=
  ∀ t, ts.head? = some t → t ∉ stops

theorem Avoids.cons {stops : List Token} {t : Token} (h : t ∉ stops) (ts : List Token) :
    Avoids stops (t :: ts) := by
  intro u hu
  obtain rfl := Option.some.inj hu
  exact h

theorem Avoids.nil (stops : List Token) : Avoids stops [] := by
  intro t ht
  cases ht

theorem Avoids.mono {stops stops' ts : List Token} (h : Avoids stops' ts) (hsub : stops ⊆ stops') :
    Avoids stops ts :=
  fun t ht hmem => h t ht (hsub hmem)

/-! ## Words -/

theorem refWords_words {words : List String} (hwords : words ⊆ refWord ++ plainWord) (ts : List Token) :
    refWords (words.map .word ++ ts) =
      (decide (∃ w ∈ words, w ∈ refWord) || (refWords ts).1, (refWords ts).2) := by
  induction words with
  | nil => simp
  | cons w words ih =>
      have hw := hwords List.mem_cons_self
      have ih := ih fun v hv => hwords (List.mem_cons_of_mem w hv)
      rw [List.map_cons, List.cons_append, refWords]
      by_cases href : w ∈ refWord
      · have hcond : w = "ref" ∨ w = "out" ∨ w = "in" := by simpa [refWord] using href
        rw [if_pos hcond, ih]
        simp [href]
      · have hcond : ¬ (w = "ref" ∨ w = "out" ∨ w = "in") := by simpa [refWord] using href
        have hplain : w = "readonly" ∨ w = "scoped" ∨ w = "params" ∨ w = "this" := by
          simpa [plainWord] using (List.mem_append.mp hw).resolve_left href
        rw [if_neg hcond, if_pos hplain, ih]
        simp [href]

theorem refWords_word {w : String} (h : w ∉ refWord ++ plainWord) (ts : List Token) :
    refWords (.word w :: ts) = (false, .word w :: ts) := by
  obtain ⟨href, hplain⟩ := not_or.mp (fun hmem => h (List.mem_append.mpr hmem))
  rw [refWords, if_neg (by simpa [refWord] using href), if_neg (by simpa [plainWord] using hplain)]

theorem not_modifier_of_keyword {w name : String} (h : keywordTypes.lookup w = some name) :
    w ∉ refWord ++ plainWord ∧ w ≠ "var" ∧ w ≠ "delegate" := by
  have hnone : ∀ v ∈ refWord ++ plainWord ++ ["var", "delegate"], keywordTypes.lookup v = none := by
    decide
  have hne : w ∉ refWord ++ plainWord ++ ["var", "delegate"] := by
    intro hmem
    rw [hnone w hmem] at h
    cases h
  simpa [refWord, plainWord, and_assoc] using hne

/-- A type without words before it begins with no such word. -/
theorem SpellsPrimary.refWords_eq {Annotated : WrittenType → Prop} {t : WrittenType} {ts : List Token}
    (h : SpellsPrimary Annotated t ts) (rest : List Token) :
    refWords (ts ++ rest) = (false, ts ++ rest) := by
  cases h with
  | keyword h => exact refWords_word (not_modifier_of_keyword h).1 rest
  | named hfirst _ => exact refWords_word hfirst.modifier _
  | qualified hqualifier _ => exact refWords_word hqualifier.modifier _
  | tuple _ => simp [refWords]

/-! ## Marks -/

theorem marks_rank (t : WrittenType) (commas : Nat) (rest : List Token) :
    marks t (rankTokens commas ++ rest) = marks (.array t) rest := by
  have hdrop : (List.replicate commas (Token.mark ',') ++ .mark ']' :: rest).dropWhile (· == .mark ',') =
      .mark ']' :: rest := by
    rw [List.dropWhile_append_of_pos]
    · rfl
    · intro u hu
      rw [List.eq_of_mem_replicate hu]
      rfl
  have htokens : rankTokens commas ++ rest =
      .mark '[' :: (List.replicate commas (.mark ',') ++ .mark ']' :: rest) := by
    simp [rankTokens]
  rw [htokens, marks]
  split
  · next rest' h =>
      rw [hdrop] at h
      obtain ⟨-, rfl⟩ := List.cons.inj h
      rfl
  · next h => exact absurd hdrop (h rest)

theorem marks_end {rest : List Token} (h : Avoids marking rest) (t : WrittenType) :
    marks t rest = some (t, rest) := by
  rw [marks]
  all_goals
    rintro r rfl
    exact absurd (by decide) (h _ rfl)

/-- The marks of a spelled type are read to their end. -/
theorem SpellsMarks.marks_eq {Annotated : WrittenType → Prop} {t u : WrittenType} {ts : List Token}
    (h : SpellsMarks Annotated t u ts) {rest : List Token} (hrest : Avoids marking rest) :
    marks t (ts ++ rest) = some (u, rest) := by
  induction h with
  | nil => exact marks_end hrest _
  | array commas _ ih => rw [List.append_assoc, marks_rank, ih]
  | pointer _ ih => rw [List.cons_append, marks, ih]
  | annotated _ _ ih => rw [List.cons_append, marks, ih]

/-- Marks begin with nothing that would go on with a name. -/
theorem SpellsMarks.avoids {Annotated : WrittenType → Prop} {t u : WrittenType} {ts : List Token}
    (h : SpellsMarks Annotated t u ts) {rest : List Token} (hrest : Avoids continuing rest) :
    Avoids continuing (ts ++ rest) := by
  cases h with
  | nil => exact hrest
  | array commas _ => exact .cons (by decide) _
  | pointer _ => exact .cons (by decide) _
  | annotated _ _ => exact .cons (by decide) _

/-! ## Names -/

theorem readPrimary_name {first : String} (hfirst : first ≠ "var" ∧ first ≠ "delegate") (fuel : Nat)
    (ts : List Token) : readPrimary (fuel + 1) (.word first :: ts) = readNamed fuel first ts := by
  by_cases hpointer : ∃ rest, ts = .mark '*' :: rest
  · obtain ⟨rest, rfl⟩ := hpointer
    rw [readPrimary, if_neg hfirst.2]
  · rw [readPrimary, if_neg fun h => hfirst.1 h.1]
    rintro rest rfl
    exact hpointer ⟨rest, rfl⟩

theorem readNamed_name {first : String} {ts : List Token} (hfirst : keywordTypes.lookup first = none)
    (hts : Avoids [.doubleColon] ts) (fuel : Nat) :
    readNamed (fuel + 1) first ts = (readSegments fuel first ts).map ofSegments := by
  refine readNamed.eq_5 first fuel ts hfirst ?_ ?_
  · rintro name rest rfl
    exact hts _ rfl (by decide)
  · rintro rest rfl
    exact hts _ rfl (by decide)

theorem readNamed_segments {fuel : Nat} {first : String} {ts rest : List Token}
    {segments : List (Segment WrittenType)} (h : readSegments fuel first ts = some (segments, rest)) :
    (readSegments fuel first ts).map ofSegments = some (.named segments, rest) := by
  rw [h]
  rfl

/-- The arguments of a name, if an opening bracket follows it. -/
def readArguments (fuel : Nat) : List Token → Option (List WrittenType × List Token)
  | .mark '<' :: rest => readArgs fuel rest
  | ts => some ([], ts)

theorem readArguments_none {fuel : Nat} {ts : List Token} (h : ∀ rest, ts = .mark '<' :: rest → False) :
    readArguments fuel ts = some ([], ts) := by
  rw [readArguments]
  exact h

/-- What stands behind the arguments of a name decides whether it goes on. -/
def readBehind (fuel : Nat) (name : String) :
    List WrittenType × List Token → Option (List (Segment WrittenType) × List Token)
  | (args, .mark '.' :: .word next :: rest) =>
    (readSegments fuel next rest).map fun read => (⟨name, args⟩ :: read.1, read.2)
  | (_, .mark '.' :: _) => none
  | (args, ts) => some ([⟨name, args⟩], ts)

theorem readSegments_succ (fuel : Nat) (name : String) (ts : List Token) :
    readSegments (fuel + 1) name ts = (readArguments fuel ts).bind (readBehind fuel name) := by
  by_cases hopen : ∃ rest, ts = .mark '<' :: rest
  on_goal 1 =>
    obtain ⟨rest, rfl⟩ := hopen
    rw [readSegments, readArguments]
  on_goal 2 =>
    have hnone : ∀ rest, ts = .mark '<' :: rest → False := fun rest h => hopen ⟨rest, h⟩
    rw [readArguments_none hnone, readSegments.eq_3 _ _ _ hnone]
  -- With and without arguments the same is done with what stands behind them.
  all_goals
    refine congrArg (Option.bind _) (funext fun read => ?_)
    obtain ⟨args, behind⟩ := read
    dsimp only
    split
    · next next rest =>
        rw [readBehind]
        cases readSegments fuel next rest <;> rfl
    · next tail hword => rw [readBehind]; exact hword
    · next hword hdot => rw [readBehind]; exacts [rfl, hword, hdot]

/-! ## Types -/

theorem dropName_name {name : Option String} {t : Token} {ts : List Token} (ht : ∀ w, t ≠ .word w) :
    dropName (name.toList.map .word ++ t :: ts) = t :: ts := by
  cases name with
  | some w => rfl
  | none =>
      cases t with
      | word w => exact absurd rfl (ht w)
      | mark c => rfl
      | doubleColon => rfl

theorem avoids_name {stops : List Token} (name : Option String) {t : Token} (hword : ∀ w, .word w ∉ stops)
    (ht : t ∉ stops) (ts : List Token) : Avoids stops (name.toList.map .word ++ t :: ts) := by
  cases name with
  | some w => exact .cons (hword w) _
  | none => exact .cons ht ts

/-- Nothing stands before the arguments that would be a qualifier. -/
theorem SpellsSegments.avoids {Annotated : WrittenType → Prop} {name : String}
    {segments : List (Segment WrittenType)} {ts rest : List Token}
    (h : SpellsSegments Annotated name segments ts) (hrest : Avoids continuing rest) :
    Avoids [.doubleColon] (ts ++ rest) := by
  cases h with
  | last h =>
      cases h with
      | none => exact hrest.mono (by decide)
      | some _ => exact .cons (by decide) _
  | cons h _ =>
      cases h with
      | none => exact .cons (by decide) _
      | some _ => exact .cons (by decide) _

theorem read_succ {words : List String} {t u : WrittenType} {ts ms rest : List Token} {fuel : Nat}
    (hwords : words ⊆ refWord ++ plainWord) (hfirst : refWords ts = (false, ts))
    (hprimary : readPrimary fuel ts = some (t, ms)) (hmarks : marks t ms = some (u, rest)) :
    read (fuel + 1) (words.map .word ++ ts) =
      some (if ∃ w ∈ words, w ∈ refWord then .byRef u else u, rest) := by
  rw [read, refWords_words hwords, hfirst]
  simp [hprimary, hmarks]

section

variable {Annotated : WrittenType → Prop}

-- The steps decrease, but not from a name's arguments to their list, which is read with the same number.
mutual

theorem Spells.read_eq {t : WrittenType} {ts rest : List Token} {fuel : Nat} (h : Spells Annotated t ts)
    (hfuel : 4 * ts.length + 1 ≤ fuel) (hrest : Avoids (continuing ++ marking) rest) :
    read fuel (ts ++ rest) = some (t, rest) := by
  have hname : Avoids continuing rest := hrest.mono (List.subset_append_left _ _)
  have hmark : Avoids marking rest := hrest.mono (List.subset_append_right _ _)
  obtain ⟨fuel, rfl⟩ : ∃ k, fuel = k + 1 := ⟨fuel - 1, by omega⟩
  cases h with
  | @plain words t u ts ms hwords h hmarks =>
      simp only [List.length_append, List.length_map] at hfuel
      have hprimary : readPrimary fuel (ts ++ (ms ++ rest)) = some (t, ms ++ rest) :=
        h.read_eq (by omega) (hmarks.avoids hname)
      have href : ¬ ∃ w ∈ words, w ∈ refWord := by
        rintro ⟨w, hw, hmem⟩
        have hdisjoint : ∀ v ∈ plainWord, v ∉ refWord := by decide
        exact hdisjoint w (hwords hw) hmem
      have hwords' : words ⊆ refWord ++ plainWord :=
        List.Subset.trans hwords (List.subset_append_right _ _)
      rw [List.append_assoc, List.append_assoc,
        read_succ hwords' (h.refWords_eq _) hprimary (hmarks.marks_eq hmark), if_neg href]
  | @byRef words t u ts ms hwords href h hmarks =>
      simp only [List.length_append, List.length_map] at hfuel
      have hprimary : readPrimary fuel (ts ++ (ms ++ rest)) = some (t, ms ++ rest) :=
        h.read_eq (by omega) (hmarks.avoids hname)
      rw [List.append_assoc, List.append_assoc,
        read_succ hwords (h.refWords_eq _) hprimary (hmarks.marks_eq hmark), if_pos href]
termination_by 2 * fuel

theorem SpellsPrimary.read_eq {t : WrittenType} {ts rest : List Token} {fuel : Nat}
    (h : SpellsPrimary Annotated t ts) (hfuel : 4 * ts.length ≤ fuel) (hrest : Avoids continuing rest) :
    readPrimary fuel (ts ++ rest) = some (t, rest) := by
  cases h with
  | keyword h =>
      simp only [List.length_singleton] at hfuel
      obtain ⟨fuel, rfl⟩ : ∃ k, fuel = k + 1 := ⟨fuel - 1, by omega⟩
      obtain ⟨fuel, rfl⟩ : ∃ k, fuel = k + 1 := ⟨fuel - 1, by omega⟩
      rw [List.singleton_append, readPrimary_name (not_modifier_of_keyword h).2]
      exact readNamed.eq_2 _ fuel rest _ h
  | @named first segments ts hfirst h =>
      simp only [List.length_cons] at hfuel
      obtain ⟨fuel, rfl⟩ : ∃ k, fuel = k + 1 := ⟨fuel - 1, by omega⟩
      obtain ⟨fuel, rfl⟩ : ∃ k, fuel = k + 1 := ⟨fuel - 1, by omega⟩
      have hsegments : readSegments fuel first (ts ++ rest) = some (segments, rest) :=
        h.read_eq (by omega) hrest
      rw [List.cons_append, readPrimary_name hfirst.special, readNamed_name hfirst.keyword,
        readNamed_segments hsegments]
      exact h.avoids hrest
  | @qualified qualifier first segments ts hqualifier h =>
      simp only [List.length_cons] at hfuel
      obtain ⟨fuel, rfl⟩ : ∃ k, fuel = k + 1 := ⟨fuel - 1, by omega⟩
      obtain ⟨fuel, rfl⟩ : ∃ k, fuel = k + 1 := ⟨fuel - 1, by omega⟩
      have hsegments : readSegments fuel first (ts ++ rest) = some (segments, rest) :=
        h.read_eq (by omega) hrest
      rw [List.cons_append, readPrimary_name hqualifier.special]
      exact (readNamed.eq_3 _ fuel first _ hqualifier.keyword).trans (readNamed_segments hsegments)
  | @tuple elements ts h =>
      simp only [List.length_cons] at hfuel
      obtain ⟨fuel, rfl⟩ : ∃ k, fuel = k + 1 := ⟨fuel - 1, by omega⟩
      have helements : readElements fuel (ts ++ rest) = some (elements, rest) := h.read_eq (by omega)
      rw [List.cons_append, readPrimary, helements]
      rfl
termination_by 2 * fuel

theorem SpellsSegments.read_eq {name : String} {segments : List (Segment WrittenType)}
    {ts rest : List Token} {fuel : Nat} (h : SpellsSegments Annotated name segments ts)
    (hfuel : 4 * ts.length + 2 ≤ fuel) (hrest : Avoids continuing rest) :
    readSegments fuel name (ts ++ rest) = some (segments, rest) := by
  obtain ⟨fuel, rfl⟩ : ∃ k, fuel = k + 1 := ⟨fuel - 1, by omega⟩
  cases h with
  | @last _ args ts h =>
      have hangle : Avoids [.mark '<'] rest := hrest.mono (by decide)
      have hargs : readArguments fuel (ts ++ rest) = some (args, rest) := h.read_eq (by omega) hangle
      rw [readSegments_succ, hargs, Option.bind_some, readBehind]
      · rintro next r rfl
        exact hrest _ rfl (by decide)
      · rintro r rfl
        exact hrest _ rfl (by decide)
  | @cons _ next args more ts ts' h hmore =>
      simp only [List.length_append, List.length_cons] at hfuel
      have hargs : readArguments fuel (ts ++ .mark '.' :: .word next :: (ts' ++ rest)) =
          some (args, .mark '.' :: .word next :: (ts' ++ rest)) :=
        h.read_eq (by omega) (.cons (by decide) _)
      have hnext : readSegments fuel next (ts' ++ rest) = some (more, rest) :=
        hmore.read_eq (by omega) hrest
      rw [List.append_assoc, List.cons_append, List.cons_append, readSegments_succ, hargs,
        Option.bind_some, readBehind, hnext]
      rfl
termination_by 2 * fuel

theorem SpellsArguments.read_eq {args : List WrittenType} {ts rest : List Token} {fuel : Nat}
    (h : SpellsArguments Annotated args ts) (hfuel : 4 * ts.length + 1 ≤ fuel)
    (hrest : Avoids [.mark '<'] rest) : readArguments fuel (ts ++ rest) = some (args, rest) := by
  cases h with
  | none =>
      refine readArguments_none ?_
      rintro r rfl
      exact hrest _ rfl (by decide)
  | @some _ ts h =>
      simp only [List.length_cons] at hfuel
      exact h.read_eq (by omega)
termination_by 2 * fuel + 1

theorem SpellsList.read_eq {args : List WrittenType} {ts rest : List Token} {fuel : Nat}
    (h : SpellsList Annotated args ts) (hfuel : 4 * ts.length + 2 ≤ fuel) :
    readArgs fuel (ts ++ rest) = some (args, rest) := by
  obtain ⟨fuel, rfl⟩ : ∃ k, fuel = k + 1 := ⟨fuel - 1, by omega⟩
  cases h with
  | @last t ts h =>
      simp only [List.length_append, List.length_singleton] at hfuel
      have hread : read fuel (ts ++ .mark '>' :: rest) = some (t, .mark '>' :: rest) :=
        h.read_eq (by omega) (.cons (by decide) _)
      rw [List.append_assoc, List.singleton_append, readArgs, hread]
      rfl
  | @cons t more ts ts' h hmore =>
      simp only [List.length_append, List.length_cons] at hfuel
      have hread : read fuel (ts ++ .mark ',' :: (ts' ++ rest)) = some (t, .mark ',' :: (ts' ++ rest)) :=
        h.read_eq (by omega) (.cons (by decide) _)
      have hargs : readArgs fuel (ts' ++ rest) = some (more, rest) := hmore.read_eq (by omega)
      rw [List.append_assoc, List.cons_append, readArgs, hread]
      simp [hargs]
termination_by 2 * fuel

theorem SpellsElements.read_eq {elements : List WrittenType} {ts rest : List Token} {fuel : Nat}
    (h : SpellsElements Annotated elements ts) (hfuel : 4 * ts.length + 2 ≤ fuel) :
    readElements fuel (ts ++ rest) = some (elements, rest) := by
  obtain ⟨fuel, rfl⟩ : ∃ k, fuel = k + 1 := ⟨fuel - 1, by omega⟩
  cases h with
  | @last t ts name h =>
      simp only [List.length_append, List.length_singleton] at hfuel
      have hread : read fuel (ts ++ (name.toList.map .word ++ .mark ')' :: rest)) =
          some (t, name.toList.map .word ++ .mark ')' :: rest) :=
        h.read_eq (by omega) (avoids_name name (by simp [continuing, marking]) (by decide) rest)
      rw [List.append_assoc, List.append_assoc, List.singleton_append, readElements, hread]
      simp [dropName_name]
  | @cons t more ts ts' name h hmore =>
      simp only [List.length_append, List.length_cons] at hfuel
      have hread : read fuel (ts ++ (name.toList.map .word ++ .mark ',' :: (ts' ++ rest))) =
          some (t, name.toList.map .word ++ .mark ',' :: (ts' ++ rest)) :=
        h.read_eq (by omega) (avoids_name name (by simp [continuing, marking]) (by decide) _)
      have hmore : readElements fuel (ts' ++ rest) = some (more, rest) := hmore.read_eq (by omega)
      rw [List.append_assoc, List.append_assoc, List.cons_append, readElements, hread]
      simp [dropName_name, hmore]
termination_by 2 * fuel

end

end

/-- The tree of a spelled type is found, however its tokens are written. -/
theorem parse?_eq_some {Annotated : WrittenType → Prop} {t : WrittenType} {ts : List Token}
    {text : String} (h : Spells Annotated t ts) (hlex : Lexes ts text.toList) : parse? text = some t := by
  have hread : read (4 * ts.length + 4) (ts ++ []) = some (t, []) :=
    h.read_eq (by omega) (.nil _)
  rw [List.append_nil] at hread
  rw [parse?, hlex.tokens_eq, hread]

end CodeGraph.CSharp.WrittenType
