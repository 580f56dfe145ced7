import CodeGraph.CSharp.Module
import CodeGraph.Proofs.CSharp.Steps

namespace CodeGraph.CSharp

open CodeGraph.Text

/-!
# Parameters that are passed by reference

A word in front of a type passes a parameter by reference, and one mark behind the type shows this. The word
is found among the tokens of a text that is a type, and between the blanks of a text that is none; in front
of a text without such a word it makes the same difference on both ways.
-/

namespace WrittenType

/-- The first words of a type pass it by reference. -/
def BeginsByRef (ts : List Token) : Prop :=
  ∃ words w rest, words ⊆ plainWord ∧ w ∈ refWord ∧ ts = words.map .word ++ .word w :: rest

/-! ## Types -/

theorem refWords_refWord {w : String} (hw : w ∈ refWord) (ts : List Token) :
    refWords (.word w :: ts) = (true, (refWords ts).2) := by
  rw [refWords, if_pos (by simpa [refWord] using hw)]

theorem beginsByRef_iff {ts : List Token} : BeginsByRef ts ↔ (refWords ts).1 = true := by
  constructor
  · rintro ⟨words, w, rest, hwords, hw, rfl⟩
    rw [refWords_words (List.Subset.trans hwords (List.subset_append_right _ _)), refWords_refWord hw,
      Bool.or_true]
  · intro h
    fun_induction refWords ts with
    | case1 w rest href _ => exact ⟨[], w, rest, List.nil_subset _, by simpa [refWord] using href, rfl⟩
    | case2 w rest _ hplain ih =>
        obtain ⟨words, v, behind, hwords, hv, rfl⟩ := ih h
        have hw : w ∈ plainWord := by simpa [plainWord] using hplain
        exact ⟨w :: words, v, behind, List.cons_subset.mpr ⟨hw, hwords⟩, hv, rfl⟩
    | case3 => cases h
    | case4 => cases h

instance (ts : List Token) : Decidable (BeginsByRef ts) :=
  decidable_of_iff _ beginsByRef_iff.symm

/-- A word of a reference goes around the type that is read behind it. -/
theorem read_refWord {w : String} (hw : w ∈ refWord) {ts : List Token} (hts : ¬ BeginsByRef ts)
    (fuel : Nat) :
    read fuel (.word w :: ts) = (read fuel ts).map fun r => (.byRef r.1, r.2) := by
  have hplain : (refWords ts).1 = false := by simpa [beginsByRef_iff] using hts
  cases fuel with
  | zero => simp [read]
  | succ fuel =>
      rw [read, read, refWords_refWord hw]
      cases hwords : refWords ts with
      | mk isRef behind =>
          obtain rfl : isRef = false := by rw [hwords] at hplain; exact hplain
          cases hprimary : readPrimary fuel behind with
          | none => simp [hprimary]
          | some r => cases hmarks : marks r.1 r.2 <;> simp [hprimary, hmarks]

theorem tokens_blanks {b : Chars} (hb : ∀ c ∈ b, isBlank c = true) (s : Chars) :
    tokens (b ++ s) = tokens s := by
  induction b with
  | nil => rfl
  | cons c b ih =>
      obtain ⟨hc, hb⟩ := List.forall_mem_cons.mp hb
      rw [List.cons_append, (Lexes.blank hc (lexes_tokens (b ++ s))).tokens_eq, ih hb]

theorem tokens_word {w : String} (hw : IsWord w) {c : Char} (hc : isBlank c = true) (s : Chars) :
    tokens (w.toList ++ c :: s) = .word w :: tokens s := by
  have hend : ∀ d, (c :: s).head? = some d → isWordChar d = false := by
    intro d hd
    obtain rfl := Option.some.inj hd
    by_contra hword
    rw [isBlank_of_isWordChar (by simpa using hword)] at hc
    cases hc
  have hlex := (Lexes.word hw.1 hw.2 hend (.blank hc (lexes_tokens s))).tokens_eq
  rwa [String.ofList_toList] at hlex

theorem isWord_of_mem {w : String} (hw : w ∈ refWord ++ plainWord) : IsWord w := by
  have hall : ∀ v ∈ refWord ++ plainWord, v.toList ≠ [] ∧ v.toList.all isWordChar = true := by decide
  exact ⟨(hall w hw).1, List.all_eq_true.mp (hall w hw).2⟩

theorem parse?_byRef {w t : String} (hw : w ∈ refWord) (ht : ¬ BeginsByRef (tokens t.toList)) :
    parse? (w ++ " " ++ t) = (parse? t).map .byRef := by
  have hword := isWord_of_mem (List.mem_append_left _ hw)
  have htokens : tokens (w ++ " " ++ t).toList = .word w :: tokens t.toList := by
    have hchars : (w ++ " " ++ t).toList = w.toList ++ ' ' :: t.toList := by simp
    rw [hchars, tokens_word hword (by decide)]
  have henough : read (4 * (tokens t.toList).length + 8) (tokens t.toList) =
      read (4 * (tokens t.toList).length + 4) (tokens t.toList) :=
    read_enough (by omega) (by omega)
  rw [parse?, parse?, htokens, List.length_cons, Nat.mul_add, Nat.add_assoc, read_refWord hw ht, henough]
  cases read (4 * (tokens t.toList).length + 4) (tokens t.toList) with
  | none => rfl
  | some r =>
      obtain ⟨u, rest⟩ := r
      cases rest <;> rfl

/-! ## Texts that are no types -/

/-- A text begins with one of the words, or none is dropped from it. -/
theorem dropModifiers_cases (s : Chars) :
    (∃ w ∈ refWord ++ plainWord, ∃ d rest, isBlank d = true ∧ s = w.toList ++ d :: rest) ∨
      ∀ fuel isRef, dropModifiers fuel isRef s = (isRef, s) := by
  cases hcut : Chars.cut? isBlank s with
  | none =>
      refine Or.inr fun fuel isRef => ?_
      cases fuel with
      | zero => rfl
      | succ fuel => rw [dropModifiers, hcut]
  | some cut =>
      obtain ⟨word, d, rest⟩ := cut
      by_cases hword : String.ofList word ∈ refWord ++ plainWord
      · obtain ⟨rfl, hd, -⟩ := Chars.cut?_eq_some hcut
        exact Or.inl ⟨_, hword, d, rest, hd, by rw [String.toList_ofList]⟩
      · obtain ⟨href, hplain⟩ := not_or.mp fun h => hword (List.mem_append.mpr h)
        refine Or.inr fun fuel isRef => ?_
        cases fuel with
        | zero => rfl
        | succ fuel =>
            rw [dropModifiers, hcut]
            dsimp only
            rw [if_neg (by simpa [refWord] using href), if_neg (by simpa [plainWord] using hplain)]

theorem dropModifiers_word {w : String} (hw : w ∈ refWord ++ plainWord) {d : Char}
    (hd : isBlank d = true) (fuel : Nat) (isRef : Bool) (rest : Chars) :
    dropModifiers (fuel + 1) isRef (w.toList ++ d :: rest) =
      dropModifiers fuel (isRef || decide (w ∈ refWord)) (Chars.trimStart rest) := by
  have hcut : Chars.cut? isBlank (w.toList ++ d :: rest) = some (w.toList, d, rest) :=
    Chars.cut?_append (fun c hc => isBlank_of_isWordChar ((isWord_of_mem hw).2 c hc)) hd rest
  rw [dropModifiers, hcut]
  dsimp only
  rw [String.ofList_toList]
  by_cases href : w ∈ refWord
  · rw [if_pos (by simpa [refWord] using href), decide_eq_true href, Bool.or_true]
  · have hplain := (List.mem_append.mp hw).resolve_left href
    rw [if_neg (by simpa [refWord] using href), if_pos (by simpa [plainWord] using hplain),
      decide_eq_false href, Bool.or_false]

/-- What is dropped from a text, with as many steps as it has characters. -/
def modifiers (s : Chars) : Bool × Chars :=
  dropModifiers s.length false s

/-- More steps than characters change nothing, and what was found before only adds to what is found. -/
theorem dropModifiers_enough {fuel : Nat} {s : Chars} (h : s.length ≤ fuel) (isRef : Bool) :
    dropModifiers fuel isRef s = (isRef || (modifiers s).1, (modifiers s).2) := by
  induction hlength : s.length using Nat.strongRecOn generalizing s fuel isRef with
  | _ length ih =>
      rcases dropModifiers_cases s with ⟨w, hw, d, rest, hd, rfl⟩ | hnone
      · have hshorter : (Chars.trimStart rest).length ≤ rest.length :=
          (List.dropWhile_suffix isBlank).length_le
        rw [List.length_append, List.length_cons] at h hlength
        obtain ⟨fuel, rfl⟩ : ∃ k, fuel = k + 1 := ⟨fuel - 1, by omega⟩
        have hrest : ∀ k isRef, rest.length ≤ k → dropModifiers k isRef (Chars.trimStart rest) =
            (isRef || (modifiers (Chars.trimStart rest)).1, (modifiers (Chars.trimStart rest)).2) :=
          fun k isRef hk => ih _ (by omega) (Nat.le_trans hshorter hk) isRef rfl
        rw [modifiers, List.length_append, List.length_cons, ← Nat.add_assoc, dropModifiers_word hw hd,
          dropModifiers_word hw hd, hrest _ _ (by omega), hrest _ _ (by omega), Bool.false_or, Bool.or_assoc]
      · rw [modifiers, hnone, hnone, Bool.or_false]

theorem modifiers_word {w : String} (hw : w ∈ refWord ++ plainWord) {d : Char} (hd : isBlank d = true)
    (rest : Chars) :
    modifiers (w.toList ++ d :: rest) =
      (decide (w ∈ refWord) || (modifiers (Chars.trimStart rest)).1,
        (modifiers (Chars.trimStart rest)).2) := by
  have hshorter : (Chars.trimStart rest).length ≤ w.toList.length + rest.length :=
    Nat.le_trans (List.dropWhile_suffix isBlank).length_le (Nat.le_add_left _ _)
  rw [modifiers, List.length_append, List.length_cons, ← Nat.add_assoc, dropModifiers_word hw hd,
    dropModifiers_enough hshorter, Bool.false_or]

theorem tokens_trimStart (s e : Chars) : tokens (Chars.trimStart s ++ e) = tokens (s ++ e) := by
  obtain ⟨b, hs, hblanks⟩ := Chars.trimStart_append s
  conv_rhs => rw [hs, List.append_assoc]
  exact (tokens_blanks hblanks _).symm

/-- The words that are found between blanks are found among the tokens. -/
theorem beginsByRef_of_modifiers {s : Chars} (h : (modifiers s).1 = true) (e : Chars) :
    BeginsByRef (tokens (s ++ e)) := by
  induction hlength : s.length using Nat.strongRecOn generalizing s with
  | _ length ih =>
      rcases dropModifiers_cases s with ⟨w, hw, d, rest, hd, rfl⟩ | hnone
      · rw [List.append_assoc, List.cons_append, tokens_word (isWord_of_mem hw) hd]
        by_cases href : w ∈ refWord
        · exact ⟨[], w, _, List.nil_subset _, href, rfl⟩
        · rw [modifiers_word hw hd, decide_eq_false href, Bool.false_or] at h
          have hshorter : (Chars.trimStart rest).length ≤ rest.length :=
            (List.dropWhile_suffix isBlank).length_le
          rw [List.length_append, List.length_cons] at hlength
          have hrest := ih _ (by omega) h rfl
          rw [tokens_trimStart] at hrest
          obtain ⟨words, v, behind, hwords, hv, heq⟩ := hrest
          have hplain := (List.mem_append.mp hw).resolve_left href
          exact ⟨w :: words, v, behind, List.cons_subset.mpr ⟨hplain, hwords⟩, hv, by rw [heq]; rfl⟩
      · rw [modifiers, hnone] at h
        cases h

end WrittenType

open WrittenType

/-! ## What is shown -/

/-- The text of a type without a word that would pass it by reference. -/
structure IsByValue (text : String) : Prop where
  nonblank : ∃ c ∈ text.toList, isBlank c = false
  plain : ¬ BeginsByRef (WrittenType.tokens text.toList)

instance (text : String) : Decidable (IsByValue text) :=
  decidable_of_iff
    (text.toList.any (! isBlank ·) = true ∧ ¬ BeginsByRef (WrittenType.tokens text.toList))
    ⟨fun h => ⟨by simpa using h.1, h.2⟩, fun h => ⟨by simpa using h.nonblank, h.plain⟩⟩

theorem IsByValue.modifiers_eq {text : String} (h : IsByValue text) :
    (modifiers (Chars.trim text.toList)).1 = false := by
  by_contra hmodifiers
  obtain ⟨e, he, -⟩ := Chars.trimEnd_append (Chars.trimStart text.toList)
  have hbegins := beginsByRef_of_modifiers (by simpa using hmodifiers) e
  rw [Chars.trim, ← he, ← List.append_nil (Chars.trimStart text.toList), tokens_trimStart,
    List.append_nil] at hbegins
  exact h.plain hbegins

theorem displayText_of_parse?_eq_none {text : String} (h : parse? text = none) :
    displayText text =
      if (modifiers (Chars.trim text.toList)).1 then
        Name.simplifyType (.ofList (modifiers (Chars.trim text.toList)).2) ++ "&"
      else Name.simplifyType (.ofList (modifiers (Chars.trim text.toList)).2) := by
  rw [displayText, h]
  rfl

theorem displayText_refWord {w t : String} (hw : w ∈ refWord) (ht : IsByValue t) :
    displayText (w ++ " " ++ t) = displayText t ++ "&" := by
  cases hparse : parse? t with
  | some s =>
      have hbyRef : parse? (w ++ " " ++ t) = some (.byRef s) := by
        rw [parse?_byRef hw ht.plain, hparse, Option.map_some]
      rw [displayText, hbyRef, displayText, hparse]
      rfl
  | none =>
      have hbyRef : parse? (w ++ " " ++ t) = none := by
        rw [parse?_byRef hw ht.plain, hparse, Option.map_none]
      have hword := List.mem_append_left plainWord hw
      have htrim : Chars.trim (w ++ " " ++ t).toList = w.toList ++ ' ' :: Chars.trimEnd t.toList := by
        have hchars : (w ++ " " ++ t).toList = (w.toList ++ [' ']) ++ t.toList := by simp
        have hstart : ∀ c, (w.toList ++ [' ']).head? = some c → isBlank c = false := by
          intro c hc
          rw [List.head?_append_of_ne_nil _ (isWord_of_mem hword).1] at hc
          exact isBlank_of_isWordChar ((isWord_of_mem hword).2 c (List.mem_of_head? hc))
        rw [hchars, Chars.trim_append_left (by simp) hstart ht.nonblank]
        simp
      rw [displayText_of_parse?_eq_none hbyRef, displayText_of_parse?_eq_none hparse, htrim,
        modifiers_word hword (by decide), Chars.trimStart_trimEnd ht.nonblank, ht.modifiers_eq]
      simp [hw]

/-- A word of a reference is shown as one mark, whether the text behind it is a type or not, and so is one
among the modifiers of a parameter. -/
theorem displayText_byRef :
    (∀ w ∈ refWord, ∀ t, IsByValue t → displayText (w ++ " " ++ t) = displayText t ++ "&") ∧
      ∀ (m : DeclaredMember) (p : Parameters), m.params = paramTexts p →
        (∀ q ∈ p.ordinary, ∀ t ∈ q.type, IsByValue t) →
          SourceModule.signature m = p.ordinary.filterMap fun q => q.type.map fun t =>
            if ∃ w ∈ q.modifiers, w ∈ refWord then displayText t ++ "&" else displayText t := by
  refine ⟨fun w hw t ht => displayText_refWord hw ht, fun m p hparams hp => ?_⟩
  rw [SourceModule.signature, hparams, paramTexts, List.map_filterMap]
  refine List.filterMap_congr fun q hq => ?_
  rw [Option.map_map]
  refine Option.map_congr fun t ht => ?_
  have hword : (q.modifiers.any fun m => m == "ref" || m == "out" || m == "in") = true ↔
      ∃ w ∈ q.modifiers, w ∈ refWord := by
    simp [refWord, or_assoc]
  rw [Function.comp_apply]
  by_cases href : ∃ w ∈ q.modifiers, w ∈ refWord
  · rw [if_pos (hword.mpr href), if_pos href]
    exact displayText_refWord (w := "ref") (by decide) (hp q hq t ht)
  · rw [if_neg (hword.not.mpr href), if_neg href]

def twoParameters : Parameters :=
  ⟨[⟨"a", some "int?", ["in"], 0⟩, ⟨"b", some "params N.List<int", [], 0⟩], none⟩

/-- The text of one parameter is no type, since a bracket is open at its end. -/
theorem displayText_byRef_unclosed :
    "out" ∈ refWord ∧ IsByValue "params N.List<int" ∧ (parse? "params N.List<int").isNone ∧
      displayText ("out" ++ " " ++ "params N.List<int") = displayText "params N.List<int" ++ "&" ∧
      (∀ q ∈ twoParameters.ordinary, ∀ t ∈ q.type, IsByValue t) ∧
      SourceModule.signature
          { DeclaredMember.plain "M" .method (.outermost "App") 0 with params := paramTexts twoParameters } =
        [displayText "int?" ++ "&", displayText "params N.List<int"] := by
  have hword : "out" ∈ refWord := by decide
  have hunclosed : IsByValue "params N.List<int" := by decide +kernel
  have hparse : (parse? "params N.List<int").isNone := by decide +kernel
  have hparameters : ∀ q ∈ twoParameters.ordinary, ∀ t ∈ q.type, IsByValue t := by
    have hint : IsByValue "int?" := by decide +kernel
    simp [twoParameters, hint, hunclosed]
  exact ⟨hword, hunclosed, hparse, displayText_byRef.1 "out" hword _ hunclosed, hparameters,
    displayText_byRef.2 _ twoParameters rfl hparameters⟩

end CodeGraph.CSharp
