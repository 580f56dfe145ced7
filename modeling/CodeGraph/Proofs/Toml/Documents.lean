import CodeGraph.Proofs.Toml.Values
import CodeGraph.Toml.Document

namespace CodeGraph.Toml

open CodeGraph.Text

/-!
# Documents that are read back

A document of entries, each on the line that is written for it, is read as these entries in their order.
-/

namespace Reader

variable {c : Char} {s rest : Chars}

theorem Written.mono {depth deeper : Nat} {text : String} {v : Value} (h : Written depth text v)
    (hle : depth ≤ deeper) : Written deeper text v := by
  intro more c hc rest
  have hmore : deeper + more = depth + (deeper - depth + more) := by omega
  rw [hmore, h _ c hc rest]

theorem not_isBare_of_isSkipped (h : isSkipped c = true) : isBare c = false := by
  simp only [isSkipped, isSpace, Bool.or_eq_true, beq_iff_eq] at h
  rcases h with ((rfl | rfl) | rfl) | rfl <;> decide

/-- No value is read behind a blank. -/
theorem Written.not_isSpace {depth : Nat} {text : String} {v : Value} (h : Written depth text v) :
    ∀ c ∈ text.toList.head?, isSpace c = false := by
  intro c hc
  obtain ⟨more, hmore⟩ := List.head?_eq_some_iff.mp hc
  by_contra hspace
  rw [Bool.not_eq_false] at hspace
  have hbare : isBare c = false := not_isBare_of_isSkipped (by rw [isSkipped, hspace]; rfl)
  have htake : takeWhile isBare (c :: (more ++ ['\n'])) = some ([], c :: (more ++ ['\n'])) := by
    refine takeWhile_append (w := []) (List.forall_mem_nil _) ?_
    rintro d ⟨⟩
    exact hbare
  have hword : (word >>= wordValue) (c :: (more ++ ['\n'])) = none := by
    change ((takeWhile isBare >>= _) >>= wordValue) _ = none
    rw [bind_assoc, bind_eq htake]
    rfl
  have hread := h 1 '\n' (by decide) []
  have hpeek : peek? (c :: (more ++ ['\n'])) = some (some c, c :: (more ++ ['\n'])) := rfl
  rw [hmore, List.cons_append, valueUpTo, bind_eq hpeek] at hread
  generalize hfirst : some c = first at hread
  split at hread
  case h_6 => cases hword.symm.trans hread
  all_goals
    cases hfirst
    exact absurd hspace (by decide)

/-! ## Keys -/

theorem key_eq {k : String} (hk : IsBareWord k.toList) (hrest : ∀ c ∈ rest.head?, isBare c = false) :
    key (k.toList ++ rest) = some (k, rest) := by
  have hquoted : quoted? (k.toList ++ rest) = none := by
    obtain ⟨c, more, hcons⟩ := List.exists_cons_of_ne_nil hk.ne_nil
    have hc : isBare c = true := hk.bare c (hcons ▸ List.mem_cons_self)
    rw [hcons]
    refine quoted?_eq_none ⟨?_, ?_⟩
    all_goals
      rintro ⟨⟩
      exact absurd hc (by decide)
  rw [key, hquoted, hk.word_append hrest]
  exact congrArg (fun k => some (k, rest)) String.ofList_toList

theorem dottedKey_eq {k : String} (hk : IsBareWord k.toList) (rest : Chars) :
    dottedKey (k.toList ++ ' ' :: '=' :: rest) = some ([k], '=' :: rest) := by
  have hspaces : skipSpaces (' ' :: '=' :: rest) = some ((), '=' :: rest) :=
    skipSpaces_blank (by rintro c ⟨⟩; rfl)
  have hpoint : eat '.' ('=' :: rest) = some (false, '=' :: rest) := eat_of_head? (by simp)
  have hkeys : keysBehindPoints (' ' :: '=' :: rest).length (' ' :: '=' :: rest) = some ([], '=' :: rest) := by
    rw [List.length_cons, keysBehindPoints, bind_eq hspaces, bind_eq hpoint]
    rfl
  rw [dottedKey, bind_eq (key_eq hk (by rintro c ⟨⟩; rfl)), bind_eq (get_eq _), bind_eq hkeys]
  rfl

end Reader

/-! ## Lines -/

/-- A key with a value, and the text that is written for the value. -/
structure Line where
  key : String
  text : String
  value : Value

/-- The key needs no quotes, and the text is read as the value. -/
structure Line.Valid (l : Line) : Prop where
  key : Reader.IsBareWord l.key.toList
  written : Reader.Written 2 l.text l.value
  unbroken : '\r' ∉ l.text.toList

def Line.chars (l : Line) : Chars :=
  (entryLine l.key l.text).toList

theorem Line.chars_eq (l : Line) : l.chars = l.key.toList ++ " = ".toList ++ l.text.toList ++ ['\n'] := by
  rw [chars, entryLine, String.toList_append, String.toList_append, String.toList_append]
  rfl

namespace Line.Valid

variable {l : Line} (hl : l.Valid)

include hl

theorem exists_cons_chars : ∃ c more, Reader.isBare c = true ∧ l.chars = c :: more := by
  obtain ⟨c, more, hcons⟩ := List.exists_cons_of_ne_nil hl.key.ne_nil
  refine ⟨c, more ++ " = ".toList ++ l.text.toList ++ ['\n'], hl.key.bare c (hcons ▸ List.mem_cons_self), ?_⟩
  rw [l.chars_eq, hcons]
  rfl

theorem notMem_chars : '\r' ∉ l.chars := by
  have hkey : '\r' ∉ l.key.toList := fun hmem => absurd (hl.key.bare _ hmem) (by decide)
  have hequals : '\r' ∉ " = ".toList := by decide
  simp [l.chars_eq, hkey, hl.unbroken]

end Line.Valid

namespace Reader

variable {l : Line} (hl : l.Valid)

include hl

theorem keyValue_line (rest : Chars) :
    keyValue value (l.chars ++ rest) = some (([l.key], l.value), '\n' :: rest) := by
  have hline : l.chars ++ rest = l.key.toList ++ ' ' :: '=' :: ' ' :: (l.text.toList ++ '\n' :: rest) := by
    simp [Line.chars, entryLine]
  have hstart : ∀ c ∈ (l.text.toList ++ '\n' :: rest).head?, isSpace c = false := by
    intro c hc
    rw [List.head?_append, List.head?_cons, Option.mem_def, Option.or_eq_some_iff] at hc
    rcases hc with hc | ⟨-, hc⟩
    · exact hl.written.not_isSpace c hc
    · obtain rfl := Option.some.inj hc
      rfl
  have hequals : skipSpaces ('=' :: ' ' :: (l.text.toList ++ '\n' :: rest)) =
      some ((), '=' :: ' ' :: (l.text.toList ++ '\n' :: rest)) :=
    skipSpaces_eq (by rintro c ⟨⟩; rfl)
  have hvalue : value (l.text.toList ++ '\n' :: rest) = some (l.value, '\n' :: rest) := by
    obtain ⟨more, hmore⟩ : ∃ more, (l.text.toList ++ '\n' :: rest).length + 1 = 2 + more :=
      ⟨l.text.toList.length + rest.length, by simp; omega⟩
    rw [value, bind_eq (get_eq _), hmore]
    exact hl.written more '\n' (by decide) rest
  rw [hline, keyValue, bind_eq (dottedKey_eq hl.key _), bind_eq hequals, bind_eq (expect_cons '=' _),
    bind_eq (skipSpaces_blank hstart), bind_eq hvalue]
  rfl

theorem documentLines_line {d : Document} (hd : d.tables = []) (bound : Nat) (rest : Chars) :
    documentLines (bound + 1) d (l.chars ++ rest) =
      documentLines bound { d with entries := d.entries ++ [(l.key, l.value)] } rest := by
  obtain ⟨c, more, hc, hchars⟩ := hl.exists_cons_chars
  have hfirst : (l.chars ++ rest).head? = some c := by rw [hchars]; rfl
  have hskip : skipLines (l.chars ++ rest) = some ((), l.chars ++ rest) := by
    refine skipLines_eq fun d hd => ?_
    obtain rfl := Option.some.inj (hfirst.symm.trans hd)
    by_contra hskipped
    rw [Bool.not_eq_false] at hskipped
    exact Bool.false_ne_true ((not_isBare_of_isSkipped hskipped).symm.trans hc)
  have hpeek : peek? (l.chars ++ rest) = some (some c, l.chars ++ rest) := by rw [peek?, hfirst]
  have hrest : lineRest ('\n' :: rest) = some ((), rest) := by
    have hspaces : skipSpaces ('\n' :: rest) = some ((), '\n' :: rest) := skipSpaces_eq (by rintro c ⟨⟩; rfl)
    have hcomment : eatComment ('\n' :: rest) = some (false, '\n' :: rest) :=
      bind_eq (eat_of_head? (by simp)) _
    rw [lineRest, bind_eq hspaces, bind_eq hcomment]
    rfl
  have hput : d.put? [l.key] l.value = some { d with entries := d.entries ++ [(l.key, l.value)] } := by
    rw [Document.put?, hd]
    rfl
  rw [documentLines, bind_eq hskip, bind_eq hpeek]
  generalize hopen : some c = first
  split
  · cases hopen
  · cases hopen
    exact absurd hc (by decide)
  · rw [bind_eq (keyValue_line hl rest)]
    refine (bind_eq hrest _).trans ?_
    rw [hput]
    rfl

omit hl in
/-- A document has the entries of its lines. -/
theorem documentLines_lines {lines : List Line} (hlines : ∀ l ∈ lines, l.Valid) {bound : Nat}
    (hbound : lines.length < bound) {d : Document} (hd : d.tables = []) :
    documentLines bound d (lines.flatMap Line.chars) =
      some ({ d with entries := d.entries ++ lines.map fun l => (l.key, l.value) }, []) := by
  induction lines generalizing bound d with
  | nil =>
      obtain ⟨bound, rfl⟩ := Nat.exists_eq_add_of_lt hbound
      have hskip : skipLines [] = some ((), []) := skipLines_eq (by simp)
      have hpeek : peek? [] = some (none, []) := rfl
      rw [List.flatMap_nil, documentLines, bind_eq hskip, bind_eq hpeek, List.map_nil, List.append_nil]
      rfl
  | cons l lines ih =>
      obtain ⟨hl, hmore⟩ := List.forall_mem_cons.mp hlines
      obtain ⟨bound, rfl⟩ := Nat.exists_eq_add_one_of_ne_zero (Nat.ne_zero_of_lt hbound)
      have hless : lines.length < bound := Nat.lt_of_succ_lt_succ hbound
      have hrest := ih hmore hless (d := { d with entries := d.entries ++ [(l.key, l.value)] }) hd
      rw [List.flatMap_cons, documentLines_line hl hd, hrest, List.map_cons, List.append_assoc]
      rfl

end Reader

theorem unifyLineBreaks_eq {s : Chars} (h : '\r' ∉ s) : unifyLineBreaks s = s := by
  induction s with
  | nil => rfl
  | cons c s ih =>
      obtain ⟨hc, hs⟩ := List.ne_and_not_mem_of_not_mem_cons h
      rw [unifyLineBreaks, ih hs]
      rintro r rfl
      exact absurd rfl hc

theorem dropMark_eq {s : Chars} (h : s.head? ≠ some '\uFEFF') : dropMark s = s := by
  rw [dropMark]
  rintro r rfl
  exact h rfl

/-- Lines without line breaks of their own are read as a document without tables. -/
theorem Document.parse?_lines {lines : List Line} (hlines : ∀ l ∈ lines, l.Valid) {text : String}
    (htext : text.toList = lines.flatMap Line.chars) :
    Document.parse? text = some ⟨lines.map fun l => (l.key, l.value), []⟩ := by
  have hbreaks : unifyLineBreaks text.toList = text.toList := by
    refine unifyLineBreaks_eq fun hmem => ?_
    rw [htext] at hmem
    obtain ⟨l, hl, hchar⟩ := List.mem_flatMap.mp hmem
    exact (hlines l hl).notMem_chars hchar
  have hmark : dropMark text.toList = text.toList := by
    refine dropMark_eq fun hhead => ?_
    rw [htext] at hhead
    cases lines with
    | nil => cases hhead
    | cons l lines =>
        obtain ⟨c, more, hc, hchars⟩ := (hlines l List.mem_cons_self).exists_cons_chars
        rw [List.flatMap_cons, hchars] at hhead
        obtain rfl := Option.some.inj hhead
        exact absurd hc (by decide)
  have hlength : lines.length ≤ text.toList.length := by
    rw [htext]
    refine length_le_length_flatMap fun l hl => ?_
    obtain ⟨c, more, -, hchars⟩ := (hlines l hl).exists_cons_chars
    rw [hchars]
    exact List.cons_ne_nil c more
  have hread := Reader.documentLines_lines hlines (Nat.lt_succ_of_le hlength) (d := .empty) rfl
  rw [← htext] at hread
  rw [parse?, hbreaks, hmark, hread]
  rfl

end CodeGraph.Toml
