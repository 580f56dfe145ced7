import CodeGraph.Toml.Quoted
import Mathlib.Tactic.SplitIfs

namespace CodeGraph.Toml

open CodeGraph.Text

/-!
# Quoted texts that are read back

A text is read back from its quotes whatever it holds, as long as no quote stands behind them.
-/

/-! ## Closing quotes -/

theorem closing?_append {q : Char} {rest : Chars} (h : rest.head? ≠ some q) :
    closing? q (q :: q :: q :: rest) = some ([], rest) := by
  have hdrop : Chars.dropPrefix? [q, q, q] (q :: q :: q :: rest) = some rest :=
    Chars.dropPrefix?_eq_some_iff.mpr rfl
  have hmore : (rest.take 2).takeWhile (· == q) = [] := by
    cases rest with
    | nil => rfl
    | cons c rest =>
        have hne : (c == q) = false := by simpa using h
        rw [List.take_succ_cons, List.takeWhile_cons_of_neg (by simp [hne])]
  rw [closing?, hdrop, Option.map_some, hmore]
  rfl

theorem closing?_eq_none_iff {q : Char} {s : Chars} :
    closing? q s = none ↔ ∀ rest, s ≠ q :: q :: q :: rest := by
  rw [closing?, Option.map_eq_none_iff, Option.eq_none_iff_forall_ne_some]
  exact forall_congr' fun rest => not_congr Chars.dropPrefix?_eq_some_iff

/-! ## Texts as they are -/

theorem literalLine_append {s : Chars} (hplain : ∀ c ∈ s, isPlain c = true) (hquote : '\'' ∉ s)
    (rest : Chars) : literalLine (s ++ '\'' :: rest) = some (s, rest) := by
  induction s with
  | nil => simp [literalLine]
  | cons c s ih =>
      obtain ⟨hc, hs⟩ := List.forall_mem_cons.mp hplain
      obtain ⟨hne, hmore⟩ := List.ne_and_not_mem_of_not_mem_cons hquote
      rw [List.cons_append, literalLine, if_neg (Ne.symm hne), if_pos hc, ih hs hmore, Option.map_some]

/-- A text that may stand between three quotes: they do not stand inside, and no quote is at the end. -/
structure FitsThree (s : Chars) : Prop where
  lines : ∀ c ∈ s, c = '\n' ∨ isPlain c = true
  inner : ∀ before rest, s ≠ before ++ '\'' :: '\'' :: '\'' :: rest
  last : s.getLast? ≠ some '\''

theorem FitsThree.tail {c : Char} {s : Chars} (h : FitsThree (c :: s)) : FitsThree s where
  lines d hd := h.lines d (List.mem_cons_of_mem c hd)
  inner before rest heq := h.inner (c :: before) rest (congrArg (List.cons c) heq)
  last hlast := h.last (by rw [List.getLast?_cons, hlast]; rfl)

/-- Quotes inside are not taken for the closing ones, not even together with these. -/
theorem FitsThree.closing?_eq_none {c : Char} {s : Chars} (h : FitsThree (c :: s)) (rest : Chars) :
    closing? '\'' (c :: (s ++ '\'' :: '\'' :: '\'' :: rest)) = none := by
  refine closing?_eq_none_iff.mpr fun behind heq => ?_
  obtain ⟨rfl, hs⟩ := List.cons.inj heq
  cases s with
  | nil => exact h.last rfl
  | cons d s =>
      obtain ⟨rfl, hmore⟩ := List.cons.inj hs
      cases s with
      | nil => exact h.last rfl
      | cons e s =>
          obtain ⟨rfl, -⟩ := List.cons.inj hmore
          exact h.inner [] s rfl

theorem FitsThree.literalLines_append {s rest : Chars} (h : FitsThree s) (hrest : rest.head? ≠ some '\'') :
    literalLines (s ++ '\'' :: '\'' :: '\'' :: rest) = some (s, rest) := by
  induction s with
  | nil => rw [List.nil_append, literalLines, closing?_append hrest]
  | cons c s ih =>
      have hc : c = '\n' ∨ isPlain c = true := h.lines c List.mem_cons_self
      rw [List.cons_append, literalLines, h.closing?_eq_none rest]
      simp only [if_pos hc, ih h.tail, Option.map_some]

theorem containsText_cons (pat : Chars) (c : Char) (s : Chars) :
    Chars.containsText pat (c :: s) =
      ((Chars.dropPrefix? pat (c :: s)).isSome || Chars.containsText pat s) := by
  rw [Chars.containsText, Chars.cutAt?]
  cases Chars.dropPrefix? pat (c :: s) with
  | some rest => rfl
  | none => simp [Chars.containsText]

theorem containsText_append {pat : Chars} (hpat : pat ≠ []) (before rest : Chars) :
    Chars.containsText pat (before ++ (pat ++ rest)) = true := by
  induction before with
  | nil =>
      obtain ⟨c, s, hs⟩ := List.exists_cons_of_ne_nil hpat
      have hdrop : Chars.dropPrefix? pat (pat ++ rest) = some rest := Chars.dropPrefix?_eq_some_iff.mpr rfl
      rw [List.nil_append]
      rw [hs, List.cons_append] at hdrop ⊢
      rw [containsText_cons, hdrop]
      rfl
  | cons c before ih => rw [List.cons_append, containsText_cons, ih, Bool.or_true]

theorem fitsThree_of_isLiteral {s : Chars} (h : isLiteral s = true) : FitsThree s := by
  simp only [isLiteral, Bool.and_eq_true, List.all_eq_true, Bool.or_eq_true, Bool.not_eq_true', bne_iff_ne,
    beq_iff_eq] at h
  obtain ⟨⟨hlines, hinner⟩, hlast⟩ := h
  refine ⟨fun c hc => (hlines c hc).symm, fun before rest heq => ?_, hlast⟩
  have hcontains := containsText_append (List.cons_ne_nil '\'' ['\'', '\'']) before rest
  rw [heq] at hinner
  exact absurd (hinner.symm.trans hcontains) (by decide)

/-! ## Texts with escapes -/

theorem hexValue?_hexUpper : ∀ d < 16, hexValue? (hexUpper d) = some d := by
  decide

/-- A control character is read back from its two digits. -/
theorem codePoint?_written {c : Char} (h : c.toNat < 0x80) :
    codePoint? ['0', '0', hexUpper (c.toNat / 16), hexUpper (c.toNat % 16)] = some c := by
  have hdigits : ['0', '0', hexUpper (c.toNat / 16), hexUpper (c.toNat % 16)].mapM hexValue? =
      some [0, 0, c.toNat / 16, c.toNat % 16] := by
    have hzero : hexValue? '0' = some 0 := by decide
    have hhigh := hexValue?_hexUpper (c.toNat / 16) (by omega)
    have hlow := hexValue?_hexUpper (c.toNat % 16) (by omega)
    simp [List.mapM_cons, hzero, hhigh, hlow]
  have hvalue : [0, 0, c.toNat / 16, c.toNat % 16].foldl (fun n d => n * 16 + d) 0 = c.toNat := by
    simp only [List.foldl_cons, List.foldl_nil]
    omega
  rw [codePoint?, hdigits]
  simp only [Option.bind_eq_bind, Option.bind_some, hvalue]
  rw [if_pos (Or.inl (by omega)), Char.ofNat_toNat]
  rfl

theorem lt_of_isPlain_eq_false {c : Char} (h : isPlain c = false) : c.toNat < 0x80 := by
  simp only [isPlain, Bool.or_eq_false_iff, Bool.and_eq_false_iff, decide_eq_false_iff_not,
    bne_eq_false_iff_eq] at h
  omega

/-- Reading a text in double quotes whose next character is known. -/
def withFirst (c : Char) (read : Option (Chars × Chars)) : Option (Chars × Chars) :=
  read.map fun p => (c :: p.1, p.2)

variable {isLong : Bool} {c : Char}

theorem basic_escaped {e : Char} (he : (e, c) ∈ escapes) (s : Chars) :
    basic isLong .nothing ('\\' :: e :: s) = withFirst c (basic isLong .nothing s) := by
  simp only [escapes, List.mem_cons, Prod.mk.injEq, List.not_mem_nil, or_false] at he
  rcases he with ⟨rfl, rfl⟩ | ⟨rfl, rfl⟩ | ⟨rfl, rfl⟩ | ⟨rfl, rfl⟩ | ⟨rfl, rfl⟩ | ⟨rfl, rfl⟩ | ⟨rfl, rfl⟩ <;>
    rfl

theorem basic_codePoint (h : c.toNat < 0x80) (s : Chars) :
    basic isLong .nothing
        ('\\' :: 'u' :: '0' :: '0' :: hexUpper (c.toNat / 16) :: hexUpper (c.toNat % 16) :: s) =
      withFirst c (basic isLong .nothing s) := by
  have hread : basic isLong .nothing
      ('\\' :: 'u' :: '0' :: '0' :: hexUpper (c.toNat / 16) :: hexUpper (c.toNat % 16) :: s) =
      (codePoint? ['0', '0', hexUpper (c.toNat / 16), hexUpper (c.toNat % 16)]).bind
        (withFirst · (basic isLong .nothing s)) := rfl
  rw [hread, codePoint?_written h, Option.bind_some]

theorem basic_plain (hplain : (isLong = true ∧ c = '\n') ∨ isPlain c = true) (hquote : c ≠ '"')
    (hslash : c ≠ '\\') (s : Chars) :
    basic isLong .nothing (c :: s) = withFirst c (basic isLong .nothing s) := by
  have hopen : closing? '"' (c :: s) = none :=
    closing?_eq_none_iff.mpr fun rest heq => hquote (List.cons.inj heq).1
  rw [basic.eq_def]
  cases isLong with
  | false =>
      have hc : isPlain c = true := by simpa using hplain
      simp [hslash, hquote, hc, withFirst]
  | true =>
      have hc : c = '\n' ∨ isPlain c = true := by simpa using hplain
      simp [hslash, hopen, hc, withFirst]

/-- What is written for a character is read as this character. -/
theorem basic_escape (c : Char) (s : Chars) :
    basic isLong .nothing (escape isLong c ++ s) = withFirst c (basic isLong .nothing s) := by
  unfold escape
  split_ifs with hline hlong hb ht hf hr hquote hslash hplain
  · have hnext := basic_plain (.inl ⟨hlong, hline⟩) (by rw [hline]; decide) (by rw [hline]; decide) s
    rw [hline] at hnext ⊢
    exact hnext
  · exact basic_escaped (by rw [hline]; decide) s
  · exact basic_escaped (by rw [hb]; decide) s
  · exact basic_escaped (by rw [ht]; decide) s
  · exact basic_escaped (by rw [hf]; decide) s
  · exact basic_escaped (by rw [hr]; decide) s
  · exact basic_escaped (by rw [hquote]; decide) s
  · exact basic_escaped (by rw [hslash]; decide) s
  · exact basic_plain (.inr hplain) hquote hslash s
  · exact basic_codePoint (lt_of_isPlain_eq_false (by simpa using hplain)) s

theorem basic_flatMap_escape {behind rest : Chars}
    (hend : basic isLong .nothing behind = some ([], rest)) (s : Chars) :
    basic isLong .nothing (s.flatMap (escape isLong) ++ behind) = some (s, rest) := by
  induction s with
  | nil => exact hend
  | cons c s ih => rw [List.flatMap_cons, List.append_assoc, basic_escape, ih, withFirst, Option.map_some]

theorem basic_quote (rest : Chars) : basic false .nothing ('"' :: rest) = some ([], rest) := by
  rw [basic.eq_def]
  rfl

theorem basic_threeQuotes {rest : Chars} (hrest : rest.head? ≠ some '"') :
    basic true .nothing ('"' :: '"' :: '"' :: rest) = some ([], rest) := by
  rw [basic.eq_def]
  simp [closing?_append hrest]

/-! ## The quotes in front -/

theorem dropLineBreak_append {s : Chars} (hs : s ≠ []) (hline : '\n' ∉ s) (more : Chars) :
    dropLineBreak (s ++ more) = s ++ more := by
  obtain ⟨c, s, rfl⟩ := List.exists_cons_of_ne_nil hs
  rw [List.cons_append, dropLineBreak]
  intro r heq
  exact hline (List.mem_cons.mpr (.inl (List.cons.inj heq).1.symm))

theorem quoted?_single {s : Chars} (h : ∀ rest, s ≠ '\'' :: '\'' :: rest) :
    quoted? ('\'' :: s) = (literalLine s).map fun p => (false, .ofList p.1, p.2) := by
  rw [quoted?]
  exact h

theorem quoted?_double {s : Chars} (h : ∀ rest, s ≠ '"' :: '"' :: rest) :
    quoted? ('"' :: s) = (basic false .nothing s).map fun p => (false, .ofList p.1, p.2) := by
  rw [quoted?]
  exact h

theorem quoted?_threeSingle (s : Chars) :
    quoted? ('\'' :: '\'' :: '\'' :: s) =
      (literalLines (dropLineBreak s)).map fun p => (true, .ofList p.1, p.2) :=
  rfl

theorem quoted?_threeDouble (s : Chars) :
    quoted? ('"' :: '"' :: '"' :: s) =
      (basic true .nothing (dropLineBreak s)).map fun p => (true, .ofList p.1, p.2) :=
  rfl

theorem escape_eq_cons (isLong : Bool) (c : Char) : ∃ d more, d ≠ '"' ∧ escape isLong c = d :: more := by
  unfold escape
  split_ifs with hline hlong hb ht hf hr hquote hslash hplain
  -- only here the character stands for itself
  rotate_left 8
  · exact ⟨c, [], hquote, rfl⟩
  all_goals exact ⟨_, _, by decide, rfl⟩

/-- Quotes of a text are written behind backslashes. -/
theorem head?_flatMap_escape (isLong : Bool) (s : Chars) : (s.flatMap (escape isLong)).head? ≠ some '"' := by
  cases s with
  | nil => simp
  | cons c s =>
      obtain ⟨d, more, hd, hescape⟩ := escape_eq_cons isLong c
      rw [List.flatMap_cons, hescape]
      simpa using hd

/-- Nothing that could lengthen a quoted text stands behind it. -/
structure EndsQuoted (rest : Chars) : Prop where
  single : rest.head? ≠ some '\''
  double : rest.head? ≠ some '"'

/-- A single quote behind a text is not taken for one of three. -/
theorem ne_twoQuotes {q : Char} {s rest : Chars} (hs : s.head? ≠ some q) (hrest : rest.head? ≠ some q)
    (behind : Chars) : s ++ q :: rest ≠ q :: q :: behind := by
  cases s with
  | nil =>
      rintro heq
      exact hrest (by rw [(List.cons.inj heq).2]; rfl)
  | cons c s =>
      rintro heq
      exact hs (by rw [(List.cons.inj heq).1]; rfl)

/-- A text is read back with what stands behind it. -/
theorem quoted?_quote (text : String) {rest : Chars} (hrest : EndsQuoted rest) :
    ∃ isLong, quoted? ((quote text).toList ++ rest) = some (isLong, text, rest) := by
  by_cases hliteral : isLiteral text.toList = true
  · have hfits := fitsThree_of_isLiteral hliteral
    have hlines := hfits.literalLines_append hrest.single
    by_cases hlong : '\n' ∈ text.toList
    · exact ⟨true, by simp [quote, hliteral, hlong, quoted?_threeSingle, dropLineBreak, hlines]⟩
    · by_cases hquote : '\'' ∈ text.toList
      · have hdrop := dropLineBreak_append (List.ne_nil_of_mem hquote) hlong
        exact ⟨true, by simp [quote, hliteral, hlong, hquote, quoted?_threeSingle, hdrop, hlines]⟩
      · have hplain : ∀ c ∈ text.toList, isPlain c = true := fun c hc =>
          (hfits.lines c hc).resolve_left fun heq => hlong (heq ▸ hc)
        have hread := literalLine_append hplain hquote rest
        have hne := ne_twoQuotes (fun hhead => hquote (List.mem_of_head? hhead)) hrest.single
        exact ⟨false, by simp [quote, hliteral, hlong, hquote, quoted?_single hne, hread]⟩
  · by_cases hlong : '\n' ∈ text.toList
    · have hread := basic_flatMap_escape (basic_threeQuotes hrest.double) text.toList
      exact ⟨true, by simp [quote, hliteral, hlong, quoted?_threeDouble, dropLineBreak, hread]⟩
    · have hread := basic_flatMap_escape (basic_quote rest) text.toList
      have hne := ne_twoQuotes (head?_flatMap_escape false text.toList) hrest.double
      exact ⟨false, by simp [quote, hliteral, hlong, quoted?_double hne, hread]⟩

/-! ## Line breaks -/

theorem isPlain_carriageReturn : isPlain '\r' = false := by
  decide

theorem notMem_escape (isLong : Bool) (c : Char) : '\r' ∉ escape isLong c := by
  have hdigit : ∀ d < 16, '\r' ≠ hexUpper d := by decide
  unfold escape
  split_ifs with hline hlong hb ht hf hr hquote hslash hplain
  rotate_left 8
  · simpa using Ne.symm hr
  · have hsmall := lt_of_isPlain_eq_false (Bool.not_eq_true _ ▸ hplain)
    simp [hdigit (c.toNat / 16) (by omega), hdigit (c.toNat % 16) (by omega)]
  all_goals decide

/-- No carriage return is written, not even for a text that has some. -/
theorem notMem_quote (text : String) : '\r' ∉ (quote text).toList := by
  by_cases hliteral : isLiteral text.toList = true
  · have htext : '\r' ∉ text.toList := by
      intro hmem
      rcases (fitsThree_of_isLiteral hliteral).lines _ hmem with hline | hplain
      · cases hline
      · rw [isPlain_carriageReturn] at hplain
        cases hplain
    simp only [quote, if_pos hliteral]
    split_ifs <;> simp [htext]
  · have hescaped : ∀ isLong, '\r' ∉ text.toList.flatMap (escape isLong) := by
      intro isLong hmem
      obtain ⟨c, -, hc⟩ := List.mem_flatMap.mp hmem
      exact notMem_escape isLong c hc
    simp only [quote, if_neg hliteral]
    split_ifs <;> simp [hescaped]

end CodeGraph.Toml
