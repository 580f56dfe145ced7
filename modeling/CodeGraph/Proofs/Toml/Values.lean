import CodeGraph.Proofs.Text.Utf8
import CodeGraph.Proofs.Toml.Quoted
import CodeGraph.Toml.Lines
import CodeGraph.Toml.Value
import Mathlib.Algebra.Group.Nat.Defs
import Mathlib.Data.Bool.AllAny
import Mathlib.Data.List.TakeWhile

namespace CodeGraph.Toml

open CodeGraph.Text

/-!
# Values that are read back

What is written for a boolean, a number, a text or a list of texts is read as this value, and what stands
behind it is left.
-/

namespace Reader

section Bind

variable {α β : Type} {r : Reader α} {s rest : Chars}

theorem bind_eq {a : α} (h : r s = some (a, rest)) (f : α → Reader β) : (r >>= f) s = f a rest := by
  change (r s).bind (fun p => f p.1 p.2) = f a rest
  rw [h, Option.bind_some]

theorem get_eq (s : Chars) : (get : Reader Chars) s = some (s, s) :=
  rfl

end Bind

/-! ## Single characters and blanks -/

variable {c : Char} {s rest blanks : Chars}

theorem eat_cons (c : Char) (s : Chars) : eat c (c :: s) = some (true, s) :=
  if_pos rfl

theorem eat_of_head? (h : s.head? ≠ some c) : eat c s = some (false, s) := by
  cases s with
  | nil => rfl
  | cons a s => exact if_neg fun heq => h (congrArg some heq)

theorem expect_cons (c : Char) (s : Chars) : expect c (c :: s) = some ((), s) := by
  rw [expect, bind_eq (eat_cons c s)]
  rfl

/-- What is taken from the front up to where it ends. -/
theorem takeWhile_append {p : Char → Bool} {w : Chars} (hw : ∀ c ∈ w, p c = true)
    (hrest : ∀ c ∈ rest.head?, p c = false) : takeWhile p (w ++ rest) = some (w, rest) := by
  have htake : rest.takeWhile p = [] := by
    cases rest with
    | nil => rfl
    | cons c rest => exact List.takeWhile_cons_of_neg (by simp [hrest c rfl])
  have hdrop : rest.dropWhile p = rest := by
    cases rest with
    | nil => rfl
    | cons c rest => exact List.dropWhile_cons_of_neg (by simp [hrest c rfl])
  rw [takeWhile, List.takeWhile_append_of_pos hw, List.dropWhile_append_of_pos hw, htake, hdrop,
    List.append_nil]

theorem skipSpaces_append (hblanks : ∀ c ∈ blanks, isSpace c = true) (h : ∀ c ∈ s.head?, isSpace c = false) :
    skipSpaces (blanks ++ s) = some ((), s) :=
  bind_eq (takeWhile_append hblanks h) _

theorem skipSpaces_eq (h : ∀ c ∈ s.head?, isSpace c = false) : skipSpaces s = some ((), s) :=
  skipSpaces_append (List.forall_mem_nil _) h

theorem skipSpaces_blank (h : ∀ c ∈ s.head?, isSpace c = false) : skipSpaces (' ' :: s) = some ((), s) :=
  skipSpaces_append (List.forall_mem_singleton.mpr rfl) h

/-- Blanks, line breaks and comments are skipped between what counts. -/
def isSkipped (c : Char) : Bool :=
  isSpace c || c == '\n' || c == '#'

theorem isSpace_of_not_isSkipped (h : isSkipped c = false) : isSpace c = false := by
  rw [isSkipped, Bool.or_assoc, Bool.or_eq_false_iff] at h
  exact h.1

theorem skipLinesUpTo_append (hblanks : ∀ c ∈ blanks, isSpace c = true)
    (h : ∀ c ∈ s.head?, isSkipped c = false) (bound : Nat) :
    skipLinesUpTo (bound + 1) (blanks ++ s) = some ((), s) := by
  have hne : ∀ d, isSkipped d = true → s.head? ≠ some d := by
    intro d hd heq
    rw [h d heq] at hd
    cases hd
  have hspaces := skipSpaces_append hblanks fun c hc => isSpace_of_not_isSkipped (h c hc)
  have hline : eat '\n' s = some (false, s) := eat_of_head? (hne '\n' (by decide))
  have hcomment : eatComment s = some (false, s) := bind_eq (eat_of_head? (hne '#' (by decide))) _
  rw [skipLinesUpTo, bind_eq hspaces, bind_eq hline]
  exact bind_eq hcomment _

theorem skipLines_eq (h : ∀ c ∈ s.head?, isSkipped c = false) : skipLines s = some ((), s) := by
  rw [skipLines, bind_eq (get_eq s)]
  exact skipLinesUpTo_append (List.forall_mem_nil _) h s.length

/-- A line break is skipped with the blanks behind it. -/
theorem skipLines_break (hblanks : ∀ c ∈ blanks, isSpace c = true) (h : ∀ c ∈ s.head?, isSkipped c = false) :
    skipLines ('\n' :: (blanks ++ s)) = some ((), s) := by
  have hspaces : skipSpaces ('\n' :: (blanks ++ s)) = some ((), '\n' :: (blanks ++ s)) :=
    skipSpaces_eq (by rintro c ⟨⟩; rfl)
  rw [skipLines, bind_eq (get_eq _), skipLinesUpTo, bind_eq hspaces, bind_eq (eat_cons _ _)]
  exact skipLinesUpTo_append hblanks h _

/-! ## Words -/

/-- The characters of a word that stands without quotes. -/
structure IsBareWord (w : Chars) : Prop where
  ne_nil : w ≠ []
  bare : ∀ c ∈ w, isBare c = true

theorem IsBareWord.word_append {w : Chars} (hw : IsBareWord w) (hrest : ∀ c ∈ rest.head?, isBare c = false) :
    word (w ++ rest) = some (w, rest) := by
  have hempty : ¬ w.isEmpty = true := by simpa using hw.ne_nil
  rw [word, bind_eq (takeWhile_append hw.bare hrest), if_neg hempty]
  rfl

/-! ## Values that begin with a word -/

/-- The text is read as the value in a context of this depth and deeper ones, where an entry or an element
ends. -/
def Written (depth : Nat) (text : String) (v : Value) : Prop :=
  ∀ more, ∀ c ∈ ['\n', ',', ']'], ∀ rest,
    valueUpTo (depth + more) (text.toList ++ c :: rest) = some (v, c :: rest)

theorem valueUpTo_word {w : Chars} (hw : IsBareWord w) (depth : Nat)
    (hrest : ∀ c ∈ rest.head?, isBare c = false) :
    valueUpTo (depth + 1) (w ++ rest) = wordValue w rest := by
  obtain ⟨c, more, rfl⟩ := List.exists_cons_of_ne_nil hw.ne_nil
  have hc : isBare c = true := hw.bare c List.mem_cons_self
  have hpeek : peek? (c :: more ++ rest) = some (some c, c :: more ++ rest) := rfl
  rw [valueUpTo, bind_eq hpeek]
  generalize hfirst : some c = first
  split
  case h_6 => exact bind_eq (hw.word_append hrest) _
  all_goals
    cases hfirst
    exact absurd hc (by decide)

/-- A word is read as the value that it means. -/
theorem written_of_wordValue {text : String} {v : Value} (hw : IsBareWord text.toList)
    (h : ∀ c ∈ ['\n', ',', ']'], ∀ rest, wordValue text.toList (c :: rest) = some (v, c :: rest)) :
    Written 1 text v := by
  intro more c hc rest
  have hends : ∀ d ∈ (c :: rest).head?, isBare d = false := by
    rintro d ⟨⟩
    have hall : ∀ c ∈ ['\n', ',', ']'], isBare c = false := List.all_iff_forall_prop.mp (by decide)
    exact hall c hc
  rw [Nat.add_comm, valueUpTo_word hw more hends, h c hc rest]

theorem written_booleanText (b : Bool) : Written 1 (booleanText b) (.boolean b) := by
  cases b with
  | true => exact written_of_wordValue ⟨by decide, List.all_iff_forall_prop.mp (by decide)⟩ fun _ _ _ => rfl
  | false => exact written_of_wordValue ⟨by decide, List.all_iff_forall_prop.mp (by decide)⟩ fun _ _ _ => rfl

/-! ## Numbers -/

theorem isBare_of_isDigit (h : c.isDigit = true) : isBare c = true := by
  simp [isBare, Char.isAlphanum, h]

theorem hexValue?_of_isDigit (h : c.isDigit = true) : hexValue? c = some (c.toNat - '0'.toNat) := by
  have hbounds : '0' ≤ c ∧ c ≤ '9' := by simpa [Char.isDigit, Char.le_def] using h
  rw [hexValue?, if_pos hbounds]

theorem foldl_hexValue? {digits : Chars} (h : ∀ c ∈ digits, c.isDigit = true) (n : Nat) :
    digits.foldl (fun n c => n * 10 + (hexValue? c).getD 0) n = Nat.ofDigitChars 10 digits n := by
  induction digits generalizing n with
  | nil => rw [List.foldl_nil, Nat.ofDigitChars_nil]
  | cons c digits ih =>
      obtain ⟨hc, hdigits⟩ := List.forall_mem_cons.mp h
      rw [List.foldl_cons, ih hdigits, Nat.ofDigitChars_cons, hexValue?_of_isDigit hc, Option.getD_some,
        Nat.mul_comm]

theorem isDigitOf_of_isDigit (h : c.isDigit = true) : isDigitOf 10 c = true := by
  have hbounds := Char.isDigit_iff_toNat.mp h
  have hnine : '9'.toNat = '0'.toNat + 9 := rfl
  rw [isDigitOf, hexValue?_of_isDigit h, Option.any_some, decide_eq_true_iff]
  omega

/-- Digits with no zero before others. -/
structure IsNumeral (s : Chars) : Prop where
  ne_nil : s ≠ []
  digit : ∀ c ∈ s, c.isDigit = true
  zero : s.head? = some '0' → s = ['0']

/-- Only the number zero is written with a zero in front. -/
theorem eq_zero_of_toDigits {n : Nat} {digits : Chars} (h : Nat.toDigits 10 n = '0' :: digits) : n = 0 := by
  induction n using Nat.strongRecOn generalizing digits with
  | ind n ih =>
      by_cases hn : n < 10
      · rw [Nat.toDigits_of_lt_base hn] at h
        have hdigit : ∀ d < 10, d.digitChar = '0' → d = 0 := by decide
        exact hdigit n hn (List.cons.inj h).1
      · obtain ⟨d, more, hmore⟩ := List.exists_cons_of_ne_nil (Nat.toDigits_ne_nil (n := n / 10) (b := 10))
        rw [Nat.toDigits_of_base_le (by decide) (by omega), hmore, List.cons_append] at h
        obtain ⟨rfl, -⟩ := List.cons.inj h
        have hzero := ih (n / 10) (by omega) hmore
        omega

theorem isNumeral_toDigits (n : Nat) : IsNumeral (Nat.toDigits 10 n) where
  ne_nil := Nat.toDigits_ne_nil
  digit _ hc := Nat.isDigit_of_mem_toDigits (by decide) (by decide) hc
  zero h := by
    obtain ⟨digits, hcons⟩ := List.head?_eq_some_iff.mp h
    rw [eq_zero_of_toDigits hcons]
    rfl

theorem containsText_of_notMem (h : c ∉ s) (pat : Chars) : Chars.containsText (c :: pat) s = false := by
  induction s with
  | nil => rfl
  | cons d s ih =>
      obtain ⟨hne, hs⟩ := List.ne_and_not_mem_of_not_mem_cons h
      rw [containsText_cons, ih hs, Chars.dropPrefix?, if_neg hne]
      rfl

namespace IsNumeral

variable (hs : IsNumeral s)

include hs

theorem notMem (hc : c.isDigit = false) : c ∉ s := by
  intro hmem
  rw [hs.digit c hmem] at hc
  cases hc

theorem isBareWord : IsBareWord s :=
  ⟨hs.ne_nil, fun c hc => isBare_of_isDigit (hs.digit c hc)⟩

theorem digitRun?_eq : digitRun? 10 false s = some (s, []) := by
  have hunder : '_' ∉ s := hs.notMem (by decide)
  have hrun : s.takeWhile (fun c => isDigitOf 10 c || c == '_') = s :=
    List.takeWhile_eq_self_iff.mpr fun c hc => by rw [isDigitOf_of_isDigit (hs.digit c hc), Bool.true_or]
  have hdigits : s.filter (· != '_') = s :=
    List.filter_eq_self.mpr fun c hc => bne_iff_ne.mpr fun heq => hunder (heq ▸ hc)
  have hfirst : s.head? ≠ some '_' := fun heq => hunder (List.mem_of_head? heq)
  have hlast : s.getLast? ≠ some '_' := fun heq => hunder (List.mem_of_getLast? heq)
  have hdouble : Chars.containsText ['_', '_'] s = false := containsText_of_notMem hunder _
  have hzero : s.head? = some '0' → ¬ 1 < s.length := fun heq => by rw [hs.zero heq]; decide
  rw [digitRun?, hrun, hdigits]
  rw [if_neg (by simp [hs.ne_nil, hfirst, hlast, hdouble]), if_neg (by simpa using hzero), List.drop_length]

theorem integer?_eq (h : valueOf 10 s < 2 ^ 63) : integer? 10 true s = some (valueOf 10 s : Int) := by
  have hsign : sign s = (false, s) := by
    rw [sign]
    · rintro r rfl
      exact hs.notMem (c := '-') (by decide) List.mem_cons_self
    · rintro r rfl
      exact hs.notMem (c := '+') (by decide) List.mem_cons_self
  have hbound : valueOf 10 s < Nat.pow 2 63 := h
  rw [integer?]
  simp [hsign, hs.digitRun?_eq, hbound]

/-- A word with a letter is no numeral. -/
theorem ne_of_mem {w : Chars} (hw : c ∈ w) (hc : c.isDigit = false) : s ≠ w := by
  rintro rfl
  exact hs.notMem hc hw

theorem number_eq (h : valueOf 10 s < 2 ^ 63) (hrest : rest.head? ≠ some '.') :
    number s rest = some (.integer (valueOf 10 s), rest) := by
  have hexponent : ¬ (s.contains 'e' || s.contains 'E') = true := by
    simp [hs.notMem (c := 'e') (by decide), hs.notMem (c := 'E') (by decide)]
  have hword : ¬ wordsForNone.contains s = true := by
    rw [List.contains_iff_mem]
    have hletter : ∀ w ∈ wordsForNone, 'n' ∈ w := by decide
    exact fun hmem => hs.notMem (by decide) (hletter s hmem)
  rw [number]
  · rw [if_neg hexponent, bind_eq (eat_of_head? hrest), if_neg Bool.false_ne_true, if_neg hword,
      hs.integer?_eq h]
    rfl
  · exact fun r => hs.ne_of_mem (c := 'x') (by simp) (by decide)
  · exact fun r => hs.ne_of_mem (c := 'o') (by simp) (by decide)
  · exact fun r => hs.ne_of_mem (c := 'b') (by simp) (by decide)

theorem plain_eq (h : valueOf 10 s < 2 ^ 63) (hpoint : rest.head? ≠ some '.')
    (hcolon : rest.head? ≠ some ':') :
    plain s rest = some (.integer (valueOf 10 s), rest) := by
  have hstart : s.head?.any (fun c => c == '-' || c.isDigit) = true := by
    obtain ⟨d, more, rfl⟩ := List.exists_cons_of_ne_nil hs.ne_nil
    rw [List.head?_cons, Option.any_some, hs.digit d List.mem_cons_self, Bool.or_true]
  have hdate : ¬ isDate s = true := by
    have hdash : '-' ∉ s.tail := fun hmem => hs.notMem (by decide) (List.mem_of_mem_tail hmem)
    simp [isDate, hs.notMem (c := 'T') (by decide), hs.notMem (c := 't') (by decide), hdash]
  have hread : numberOrDate s rest = some (.integer (valueOf 10 s), rest) := by
    rw [numberOrDate, if_neg hdate, bind_eq (eat_of_head? hcolon)]
    exact hs.number_eq h hpoint
  rw [plain, hstart]
  exact hread

theorem wordValue_eq (h : valueOf 10 s < 2 ^ 63) (hpoint : rest.head? ≠ some '.')
    (hcolon : rest.head? ≠ some ':') :
    wordValue s rest = some (.plain (.integer (valueOf 10 s)), rest) := by
  have htrue : ¬ (s == "true".toList) = true := by
    rw [beq_iff_eq]
    exact hs.ne_of_mem (c := 't') (by decide) (by decide)
  have hfalse : ¬ (s == "false".toList) = true := by
    rw [beq_iff_eq]
    exact hs.ne_of_mem (c := 'f') (by decide) (by decide)
  rw [wordValue, if_neg htrue, if_neg hfalse, bind_eq (hs.plain_eq h hpoint hcolon)]
  rfl

end IsNumeral

theorem valueOf_toDigits (n : Nat) : valueOf 10 (Nat.toDigits 10 n) = n := by
  rw [valueOf, foldl_hexValue? (isNumeral_toDigits n).digit, Nat.ofDigitChars_ten_toDigits]

theorem written_integer {n : Nat} (h : n < 2 ^ 63) : Written 1 (toString n) (.plain (.integer n)) := by
  have hdigits : (toString n).toList = Nat.toDigits 10 n := Nat.toList_repr
  have hn := isNumeral_toDigits n
  have hvalue := valueOf_toDigits n
  refine written_of_wordValue (hdigits ▸ hn.isBareWord) fun c hc rest => ?_
  have hends : ∀ d ∈ ['.', ':'], (c :: rest).head? ≠ some d := by
    rintro d hd ⟨⟩
    have hapart : ∀ c ∈ ['\n', ',', ']'], c ∉ ['.', ':'] := List.all_iff_forall_prop.mp (by decide)
    exact hapart c hc hd
  rw [hdigits, hn.wordValue_eq (hvalue.symm ▸ h) (hends '.' (by decide)) (hends ':' (by decide)), hvalue]

theorem notMem_toString (n : Nat) (hc : c.isDigit = false) : c ∉ (toString n).toList := by
  have hdigits : (toString n).toList = Nat.toDigits 10 n := Nat.toList_repr
  rw [hdigits]
  exact (isNumeral_toDigits n).notMem hc

/-! ## Texts and lists of texts -/

theorem endsQuoted_of_mem (hc : c ∈ ['\n', ',', ']']) (rest : Chars) : EndsQuoted (c :: rest) := by
  have hapart : ∀ c ∈ ['\n', ',', ']'], c ≠ '\'' ∧ c ≠ '"' := List.all_iff_forall_prop.mp (by decide)
  obtain ⟨hsingle, hdouble⟩ := hapart c hc
  exact ⟨fun heq => hsingle (Option.some.inj heq), fun heq => hdouble (Option.some.inj heq)⟩

theorem quoted?_eq_none (h : EndsQuoted s) : quoted? s = none := by
  rw [quoted?]
  all_goals rintro r rfl
  · exact h.single rfl
  · exact h.single rfl
  · exact h.double rfl
  · exact h.double rfl

/-- What is read as a quoted text begins with a quote. -/
theorem eq_cons_of_quoted? {found : Bool × String × Chars} (h : quoted? s = some found) :
    ∃ q ∈ ['\'', '"'], ∃ more, s = q :: more := by
  by_contra hnone
  have hends : EndsQuoted s := by
    constructor
    all_goals
      intro hhead
      obtain ⟨more, rfl⟩ := List.head?_eq_some_iff.mp hhead
      exact hnone ⟨_, by decide, more, rfl⟩
  rw [quoted?_eq_none hends] at h
  cases h

theorem valueUpTo_of_quoted? {isLong : Bool} {text : String} (h : quoted? s = some (isLong, text, rest))
    (depth : Nat) : valueUpTo (depth + 1) s = some (.text text, rest) := by
  have hread : quotedValue s = some (.text text, rest) := by
    rw [quotedValue, h]
    rfl
  obtain ⟨q, hq, more, rfl⟩ := eq_cons_of_quoted? h
  have hpeek : peek? (q :: more) = some (some q, q :: more) := rfl
  rw [valueUpTo, bind_eq hpeek]
  simp only [List.mem_cons, List.not_mem_nil, or_false] at hq
  rcases hq with rfl | rfl <;> exact hread

theorem written_quote (text : String) : Written 1 (quote text) (.text text) := by
  intro more c hc rest
  obtain ⟨isLong, hread⟩ := quoted?_quote text (endsQuoted_of_mem hc rest)
  rw [Nat.add_comm, valueUpTo_of_quoted? hread more]

theorem head?_quote (text : String) (hrest : EndsQuoted rest) :
    ∃ q ∈ ['\'', '"'], ((quote text).toList ++ rest).head? = some q := by
  obtain ⟨isLong, hread⟩ := quoted?_quote text hrest
  obtain ⟨q, hq, more, heq⟩ := eq_cons_of_quoted? hread
  exact ⟨q, hq, by rw [heq, List.head?_cons]⟩

section Elements

variable {text : String} {depth bound : Nat}

theorem eat_close_quote (hc : c ∈ ['\n', ',', ']']) :
    eat ']' ((quote text).toList ++ c :: rest) = some (false, (quote text).toList ++ c :: rest) := by
  obtain ⟨q, hq, hhead⟩ := head?_quote text (endsQuoted_of_mem hc rest)
  have hapart : ∀ q ∈ ['\'', '"'], q ≠ ']' := List.all_iff_forall_prop.mp (by decide)
  refine eat_of_head? fun heq => hapart q hq ?_
  rw [hhead] at heq
  exact Option.some.inj heq

theorem elements_last (hskip : skipLines s = some ((), (quote text).toList ++ ']' :: rest)) :
    elements (valueUpTo (depth + 1)) (bound + 1) s = some ([.text text], rest) := by
  obtain ⟨isLong, hread⟩ := quoted?_quote text (endsQuoted_of_mem (c := ']') (by decide) rest)
  have hbehind : skipLines (']' :: rest) = some ((), ']' :: rest) := skipLines_eq (by rintro c ⟨⟩; rfl)
  have hcomma : eat ',' (']' :: rest) = some (false, ']' :: rest) := eat_of_head? (by simp)
  rw [elements, bind_eq hskip, bind_eq (eat_close_quote (by decide)), if_neg Bool.false_ne_true,
    bind_eq (valueUpTo_of_quoted? hread depth), bind_eq hbehind, bind_eq hcomma, if_neg Bool.false_ne_true,
    bind_eq (expect_cons ']' rest)]
  rfl

theorem elements_cons {l : List Value} {behind : Chars}
    (hskip : skipLines s = some ((), (quote text).toList ++ ',' :: rest))
    (hmore : elements (valueUpTo (depth + 1)) bound rest = some (l, behind)) :
    elements (valueUpTo (depth + 1)) (bound + 1) s = some (.text text :: l, behind) := by
  obtain ⟨isLong, hread⟩ := quoted?_quote text (endsQuoted_of_mem (c := ',') (by decide) rest)
  have hbehind : skipLines (',' :: rest) = some ((), ',' :: rest) := skipLines_eq (by rintro c ⟨⟩; rfl)
  rw [elements, bind_eq hskip, bind_eq (eat_close_quote (by decide)), if_neg Bool.false_ne_true,
    bind_eq (valueUpTo_of_quoted? hread depth), bind_eq hbehind, bind_eq (eat_cons ',' rest), if_pos rfl,
    bind_eq hmore]
  rfl

end Elements

theorem not_isSkipped_quote (text : String) (hc : c ∈ ['\n', ',', ']']) (rest : Chars) :
    ∀ d ∈ ((quote text).toList ++ c :: rest).head?, isSkipped d = false := by
  obtain ⟨q, hq, hhead⟩ := head?_quote text (endsQuoted_of_mem hc rest)
  have hall : ∀ q ∈ ['\'', '"'], isSkipped q = false := List.all_iff_forall_prop.mp (by decide)
  intro d hd
  rw [hhead] at hd
  exact Option.some.inj hd ▸ hall q hq

/-- The lines of several texts in an array, each without the line break at its end. -/
def elementLines (texts : List String) : Chars :=
  texts.flatMap fun text => '\n' :: ("    ".toList ++ ((quote text).toList ++ [',']))

theorem elements_elementLines (texts : List String) (depth : Nat) {bound : Nat}
    (hbound : texts.length < bound) (rest : Chars) :
    elements (valueUpTo (depth + 1)) bound (elementLines texts ++ '\n' :: ']' :: rest) =
      some (texts.map .text, rest) := by
  induction texts generalizing bound with
  | nil =>
      obtain ⟨bound, rfl⟩ := Nat.exists_eq_add_of_lt hbound
      have hskip : skipLines ('\n' :: ([] ++ ']' :: rest)) = some ((), ']' :: rest) :=
        skipLines_break (List.forall_mem_nil _) (by rintro c ⟨⟩; rfl)
      rw [elements]
      exact bind_eq hskip _
  | cons text texts ih =>
      obtain ⟨bound, rfl⟩ := Nat.exists_eq_add_one_of_ne_zero (Nat.ne_zero_of_lt hbound)
      have hmore := ih (Nat.lt_of_succ_lt_succ hbound)
      have hlines : elementLines (text :: texts) ++ '\n' :: ']' :: rest = '\n' :: ("    ".toList ++
          ((quote text).toList ++ ',' :: (elementLines texts ++ '\n' :: ']' :: rest))) := by
        simp [elementLines]
      rw [hlines]
      have hblanks : ∀ c ∈ "    ".toList, isSpace c = true := List.all_iff_forall_prop.mp (by decide)
      exact elements_cons (skipLines_break hblanks (not_isSkipped_quote text (by decide) _)) hmore

theorem valueUpTo_array {l : List Value} {depth : Nat}
    (h : elements (valueUpTo depth) (s.length + 1) s = some (l, rest)) :
    valueUpTo (depth + 1) ('[' :: s) = some (.array l, rest) := by
  have hpeek : peek? ('[' :: s) = some (some '[', '[' :: s) := rfl
  have hread : (do
      expect '['
      return .array (← elements (valueUpTo depth) ((← get).length + 1)) : Reader Value) ('[' :: s) =
      some (.array l, rest) := by
    rw [bind_eq (expect_cons '[' s), bind_eq (get_eq s), bind_eq h]
    rfl
  rw [valueUpTo, bind_eq hpeek]
  exact hread

/-- Each line break is taken with the line behind it instead of the one before it. -/
theorem toList_elementLines (texts : List String) :
    '\n' :: (String.join (texts.map fun text => "    " ++ quote text ++ ",\n")).toList =
      elementLines texts ++ ['\n'] := by
  induction texts with
  | nil => rfl
  | cons text texts ih =>
      have hlines : elementLines (text :: texts) =
          '\n' :: ("    ".toList ++ ((quote text).toList ++ [','])) ++ elementLines texts := rfl
      rw [hlines, List.append_assoc, ← ih]
      simp

theorem toList_textsIn_of_lines (first second : String) (texts : List String) :
    (textsIn (first :: second :: texts)).toList =
      '[' :: (elementLines (first :: second :: texts) ++ ['\n', ']']) := by
  have htexts : textsIn (first :: second :: texts) = "[\n" ++
      String.join ((first :: second :: texts).map fun text => "    " ++ quote text ++ ",\n") ++ "]" := rfl
  have hlines := toList_elementLines (first :: second :: texts)
  rw [htexts, String.toList_append, String.toList_append]
  calc "[\n".toList ++ _ ++ "]".toList
      = '[' :: ('\n' :: (String.join _).toList ++ [']']) := rfl
    _ = _ := by rw [hlines, List.append_assoc]; rfl

theorem written_textsIn (texts : List String) : Written 2 (textsIn texts) (.array (texts.map .text)) := by
  intro more c hc rest
  have hdepth : 2 + more = (more + 1) + 1 := by omega
  rw [hdepth]
  cases texts with
  | nil => exact valueUpTo_array rfl
  | cons first texts =>
      cases texts with
      | nil =>
          have htext : (textsIn [first]).toList ++ c :: rest =
              '[' :: ((quote first).toList ++ ']' :: c :: rest) := by
            simp [textsIn]
          rw [htext]
          exact valueUpTo_array (elements_last (skipLines_eq (not_isSkipped_quote first (by decide) _)))
      | cons second texts =>
          have htext : (textsIn (first :: second :: texts)).toList ++ c :: rest =
              '[' :: (elementLines (first :: second :: texts) ++ '\n' :: ']' :: c :: rest) := by
            rw [toList_textsIn_of_lines, List.cons_append, List.append_assoc]
            rfl
          have hlength :
              (first :: second :: texts).length ≤ (elementLines (first :: second :: texts)).length :=
            length_le_length_flatMap fun text _ => List.cons_ne_nil _ _
          rw [htext]
          exact valueUpTo_array (elements_elementLines _ _ (by rw [List.length_append]; omega) _)

theorem notMem_textsIn (texts : List String) : '\r' ∉ (textsIn texts).toList := by
  unfold textsIn
  split
  · decide
  · simp [notMem_quote]
  · simp [notMem_quote]

end Reader

end CodeGraph.Toml
