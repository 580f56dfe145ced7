import CodeGraph.CSharp.WrittenType
import CodeGraph.Proofs.Text.Cuts

namespace CodeGraph.CSharp.WrittenType

open CodeGraph.Text

/-!
# How types are spelled

The grammar of written types, as relations between a tree and its tokens and between tokens and a text.
A tree has many spellings: blanks, ranks of arrays, names of tuple elements, words before a type and the
qualifier before `::` may be chosen freely.
-/

/-! ## Texts -/

/-- A character that is a token of its own. -/
structure IsMark (c : Char) : Prop where
  blank : isBlank c = false
  word : isWordChar c = false
  verbatim : c ≠ '@'

/-- Tokens and a text that consists of them. A word ends where no character of a word follows. -/
inductive Lexes : List Token → Chars → Prop
  | nil : Lexes [] []
  | blank {c : Char} {ts : List Token} {s : Chars} (hc : isBlank c = true) (h : Lexes ts s) :
      Lexes ts (c :: s)
  | word {w : Chars} {ts : List Token} {s : Chars} (hne : w ≠ []) (hw : ∀ c ∈ w, isWordChar c = true)
      (hend : ∀ c, s.head? = some c → isWordChar c = false) (h : Lexes ts s) :
      Lexes (.word (.ofList w) :: ts) (w ++ s)
  | verbatim {w : Chars} {ts : List Token} {s : Chars} (hw : ∀ c ∈ w, isWordChar c = true)
      (hend : ∀ c, s.head? = some c → isWordChar c = false) (h : Lexes ts s) :
      Lexes (.word (.ofList w) :: ts) ('@' :: (w ++ s))
  | mark {c : Char} {ts : List Token} {s : Chars} (hc : IsMark c)
      (hcolon : ¬ (c = ':' ∧ s.head? = some ':')) (h : Lexes ts s) : Lexes (.mark c :: ts) (c :: s)
  | doubleColon {ts : List Token} {s : Chars} (h : Lexes ts s) :
      Lexes (.doubleColon :: ts) (':' :: ':' :: s)

theorem isBlank_of_isWordChar {c : Char} (h : isWordChar c = true) : isBlank c = false := by
  rw [isWordChar, Bool.or_eq_true, beq_iff_eq] at h
  rcases h with h | rfl
  · exact Chars.isBlank_of_isAlphanumeric h
  · decide

theorem tokens_cons {c : Char} {s : Chars} (hc : ¬ (c = ':' ∧ s.head? = some ':')) :
    tokens (c :: s) =
      if isBlank c then tokens s
      else if isWordChar c ∨ c = '@' then
        .word (.ofList ((if c = '@' then [] else [c]) ++ s.takeWhile isWordChar)) ::
          tokens (s.dropWhile isWordChar)
      else .mark c :: tokens s := by
  rw [tokens]
  rintro r rfl rfl
  exact hc ⟨rfl, rfl⟩

theorem takeWhile_word {w s : Chars} (hw : ∀ c ∈ w, isWordChar c = true)
    (hend : ∀ c, s.head? = some c → isWordChar c = false) :
    (w ++ s).takeWhile isWordChar = w ∧ (w ++ s).dropWhile isWordChar = s := by
  rw [List.takeWhile_append_of_pos hw, List.dropWhile_append_of_pos hw, Chars.dropWhile_eq_self hend]
  refine ⟨?_, rfl⟩
  cases s with
  | nil => simp
  | cons c s => simp [hend c rfl]

/-- The tokens of a text are found, however they are written. -/
theorem Lexes.tokens_eq {ts : List Token} {s : Chars} (h : Lexes ts s) : tokens s = ts := by
  induction h with
  | nil => rw [tokens]
  | @blank c ts s hc _ ih =>
      have hcolon : c ≠ ':' := by
        rintro rfl
        exact absurd hc (by decide)
      rw [tokens_cons fun h => hcolon h.1, if_pos hc, ih]
  | @word w ts s hne hw hend _ ih =>
      obtain ⟨c, w, rfl⟩ := List.exists_cons_of_ne_nil hne
      have hc := hw c List.mem_cons_self
      have hcolon : c ≠ ':' := by
        rintro rfl
        exact absurd hc (by decide)
      have hat : c ≠ '@' := by
        rintro rfl
        exact absurd hc (by decide)
      obtain ⟨htake, hdrop⟩ := takeWhile_word (fun d hd => hw d (List.mem_cons_of_mem c hd)) hend
      rw [List.cons_append, tokens_cons fun h => hcolon h.1, isBlank_of_isWordChar hc, htake, hdrop, ih]
      simp [hc, hat]
  | @verbatim w ts s hw hend _ ih =>
      obtain ⟨htake, hdrop⟩ := takeWhile_word hw hend
      have hat : isBlank '@' = false := by decide
      rw [tokens_cons (by simp), hat, htake, hdrop, ih]
      simp
  | @mark c ts s hc hcolon _ ih =>
      rw [tokens_cons hcolon, hc.blank, hc.word, ih]
      simp [hc.verbatim]
  | doubleColon _ ih => rw [tokens, ih]

/-- A word goes as far as the characters of words do. -/
theorem Lexes.longest {c : Char} {s : Chars} {ts : List Token} (hstart : isWordChar c = true ∨ c = '@')
    (hrest : Lexes ts (s.dropWhile isWordChar)) :
    Lexes (.word (.ofList ((if c = '@' then [] else [c]) ++ s.takeWhile isWordChar)) :: ts) (c :: s) := by
  have hword : ∀ d ∈ s.takeWhile isWordChar, isWordChar d = true :=
    fun d hd => List.mem_takeWhile_imp hd
  have hend : ∀ d, (s.dropWhile isWordChar).head? = some d → isWordChar d = false :=
    fun d hd => Chars.head?_dropWhile hd
  by_cases hat : c = '@'
  · subst hat
    have hverbatim := Lexes.verbatim hword hend hrest
    rw [List.takeWhile_append_dropWhile] at hverbatim
    simpa using hverbatim
  · have hwords : ∀ d ∈ c :: s.takeWhile isWordChar, isWordChar d = true := by
      intro d hd
      rcases List.mem_cons.mp hd with rfl | hd
      · exact hstart.resolve_right hat
      · exact hword d hd
    have hlex := Lexes.word (List.cons_ne_nil _ _) hwords hend hrest
    rw [List.cons_append, List.takeWhile_append_dropWhile] at hlex
    simpa [hat] using hlex

/-- Every text consists of its tokens. -/
theorem lexes_tokens (s : Chars) : Lexes (tokens s) s := by
  induction hlength : s.length using Nat.strongRecOn generalizing s with
  | _ length ih =>
      cases s with
      | nil =>
          rw [tokens]
          exact .nil
      | cons c s =>
          have hshorter : ∀ r : Chars, r.length ≤ s.length → Lexes (tokens r) r := by
            intro r hr
            refine ih r.length ?_ r rfl
            rw [List.length_cons] at hlength
            omega
          by_cases hcolon : c = ':' ∧ s.head? = some ':'
          · obtain ⟨rfl, hs⟩ := hcolon
            obtain ⟨r, rfl⟩ : ∃ r, s = ':' :: r := by
              cases s with
              | nil => cases hs
              | cons d r => exact ⟨r, by rw [Option.some.inj hs]⟩
            rw [tokens]
            exact .doubleColon (hshorter r (by simp))
          · rw [tokens_cons hcolon]
            split
            · next hblank => exact .blank hblank (hshorter s (Nat.le_refl _))
            · next hblank =>
                split
                · next hstart =>
                    exact .longest hstart (hshorter _ (List.dropWhile_suffix isWordChar).length_le)
                · next hstart =>
                    obtain ⟨hword, hat⟩ := not_or.mp hstart
                    exact .mark ⟨by simpa using hblank, by simpa using hword, hat⟩ hcolon
                      (hshorter s (Nat.le_refl _))

/-! ## Trees -/

/-- The words that pass a parameter by reference. -/
def refWord : List String :=
  ["ref", "out", "in"]

/-- The other words that may stand before a type. -/
def plainWord : List String :=
  ["readonly", "scoped", "params", "this"]

/-- A word with which a name may begin. -/
structure IsName (w : String) : Prop where
  keyword : keywordTypes.lookup w = none
  modifier : w ∉ refWord ++ plainWord
  special : w ≠ "var" ∧ w ≠ "delegate"

/-- The tokens of an array's rank, one less than which is the number of commas. -/
def rankTokens (commas : Nat) : List Token :=
  .mark '[' :: (List.replicate commas (.mark ',') ++ [.mark ']'])

section

-- The types behind which `?` may stand.
variable (Annotated : WrittenType → Prop)

/-- A type, another one around it, and the marks that lead from the one to the other. -/
inductive SpellsMarks : WrittenType → WrittenType → List Token → Prop
  | nil {t : WrittenType} : SpellsMarks t t []
  | array {t u : WrittenType} {ts : List Token} (commas : Nat) (h : SpellsMarks (.array t) u ts) :
      SpellsMarks t u (rankTokens commas ++ ts)
  | pointer {t u : WrittenType} {ts : List Token} (h : SpellsMarks (.pointer t) u ts) :
      SpellsMarks t u (.mark '*' :: ts)
  | annotated {t u : WrittenType} {ts : List Token} (ht : Annotated t) (h : SpellsMarks t u ts) :
      SpellsMarks t u (.mark '?' :: ts)

mutual

/-- A type with the words before it and the marks behind it. -/
inductive Spells : WrittenType → List Token → Prop
  | plain {words : List String} {t u : WrittenType} {ts ms : List Token} (hwords : words ⊆ plainWord)
      (h : SpellsPrimary t ts) (hmarks : SpellsMarks Annotated t u ms) :
      Spells u (words.map .word ++ (ts ++ ms))
  | byRef {words : List String} {t u : WrittenType} {ts ms : List Token}
      (hwords : words ⊆ refWord ++ plainWord) (href : ∃ w ∈ words, w ∈ refWord)
      (h : SpellsPrimary t ts) (hmarks : SpellsMarks Annotated t u ms) :
      Spells (.byRef u) (words.map .word ++ (ts ++ ms))

/-- A type without words and marks. -/
inductive SpellsPrimary : WrittenType → List Token → Prop
  | keyword {w name : String} (h : keywordTypes.lookup w = some name) :
      SpellsPrimary (.keyword name) [.word w]
  | named {first : String} {segments : List (Segment WrittenType)} {ts : List Token}
      (hfirst : IsName first) (h : SpellsSegments first segments ts) :
      SpellsPrimary (.named segments) (.word first :: ts)
  | qualified {qualifier first : String} {segments : List (Segment WrittenType)} {ts : List Token}
      (hqualifier : IsName qualifier) (h : SpellsSegments first segments ts) :
      SpellsPrimary (.named segments) (.word qualifier :: .doubleColon :: .word first :: ts)
  | tuple {elements : List WrittenType} {ts : List Token} (h : SpellsElements elements ts) :
      SpellsPrimary (.tuple elements) (.mark '(' :: ts)

/-- A dotted name, behind its first word. -/
inductive SpellsSegments : String → List (Segment WrittenType) → List Token → Prop
  | last {name : String} {args : List WrittenType} {ts : List Token} (h : SpellsArguments args ts) :
      SpellsSegments name [⟨name, args⟩] ts
  | cons {name next : String} {args : List WrittenType} {more : List (Segment WrittenType)}
      {ts ts' : List Token} (h : SpellsArguments args ts) (hmore : SpellsSegments next more ts') :
      SpellsSegments name (⟨name, args⟩ :: more) (ts ++ .mark '.' :: .word next :: ts')

/-- The arguments of a name; without any there are no brackets either. -/
inductive SpellsArguments : List WrittenType → List Token → Prop
  | none : SpellsArguments [] []
  | some {args : List WrittenType} {ts : List Token} (h : SpellsList args ts) :
      SpellsArguments args (.mark '<' :: ts)

/-- Arguments up to the closing bracket. -/
inductive SpellsList : List WrittenType → List Token → Prop
  | last {t : WrittenType} {ts : List Token} (h : Spells t ts) : SpellsList [t] (ts ++ [.mark '>'])
  | cons {t : WrittenType} {more : List WrittenType} {ts ts' : List Token} (h : Spells t ts)
      (hmore : SpellsList more ts') : SpellsList (t :: more) (ts ++ .mark ',' :: ts')

/-- The elements of a tuple up to the closing bracket. Each may have a name. -/
inductive SpellsElements : List WrittenType → List Token → Prop
  | last {t : WrittenType} {ts : List Token} (name : Option String) (h : Spells t ts) :
      SpellsElements [t] (ts ++ (name.toList.map .word ++ [.mark ')']))
  | cons {t : WrittenType} {more : List WrittenType} {ts ts' : List Token} (name : Option String)
      (h : Spells t ts) (hmore : SpellsElements more ts') :
      SpellsElements (t :: more) (ts ++ (name.toList.map .word ++ .mark ',' :: ts'))

end

end

end CodeGraph.CSharp.WrittenType
