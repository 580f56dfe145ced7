import CodeGraph.Proofs.Text.Cuts

namespace CodeGraph.Text

/-!
# Fields and lines

What was put together with separators between it is taken apart at them, when no part holds one.
-/

namespace Chars

variable {s : Chars} {p : Char → Bool}

theorem splitBy_ne_nil (p : Char → Bool) (s : Chars) : splitBy p s ≠ [] := by
  cases s with
  | nil => simp [splitBy]
  | cons c s =>
      rw [splitBy]
      split
      · exact List.cons_ne_nil _ _
      · split <;> exact List.cons_ne_nil _ _

theorem splitBy_cons {c : Char} (hc : p c = false) {part : Chars} {parts : List Chars}
    (h : splitBy p s = part :: parts) : splitBy p (c :: s) = (c :: part) :: parts := by
  rw [splitBy, if_neg (by simp [hc]), h]

/-- A text is taken apart on both sides of a separator. -/
theorem splitBy_cut {d : Char} (hd : p d = true) (a b : Chars) :
    splitBy p (a ++ d :: b) = splitBy p a ++ splitBy p b := by
  induction a with
  | nil => simp [splitBy, hd]
  | cons c a ih =>
      by_cases hc : p c = true
      · rw [List.cons_append, splitBy, if_pos hc, ih, splitBy, if_pos hc, List.cons_append]
      · obtain ⟨part, parts, hparts⟩ := List.exists_cons_of_ne_nil (splitBy_ne_nil p a)
        rw [hparts, List.cons_append] at ih
        rw [List.cons_append, splitBy_cons (by simpa using hc) ih, splitBy_cons (by simpa using hc) hparts,
          List.cons_append]

theorem splitBy_eq_self (h : ∀ c ∈ s, p c = false) : splitBy p s = [s] := by
  induction s with
  | nil => rfl
  | cons c s ih =>
      obtain ⟨hc, hs⟩ := List.forall_mem_cons.mp h
      rw [splitBy, if_neg (by simp [hc]), ih hs]

theorem splitBy_append {d : Char} (h : ∀ c ∈ s, p c = false) (hd : p d = true) (r : Chars) :
    splitBy p (s ++ d :: r) = s :: splitBy p r := by
  rw [splitBy_cut hd, splitBy_eq_self h, List.singleton_append]

theorem notMem_of_mem_splitBy {d : Char} (hd : p d = true) {part : Chars} (h : part ∈ splitBy p s) :
    d ∉ part := by
  induction s generalizing part with
  | nil =>
      obtain rfl := List.mem_singleton.mp h
      exact List.not_mem_nil
  | cons c s ih =>
      by_cases hc : p c = true
      · rw [splitBy, if_pos hc] at h
        rcases List.mem_cons.mp h with rfl | h
        · exact List.not_mem_nil
        · exact ih h
      · obtain ⟨first, parts, hparts⟩ := List.exists_cons_of_ne_nil (splitBy_ne_nil p s)
        rw [splitBy_cons (by simpa using hc) hparts] at h
        rw [hparts] at ih
        rcases List.mem_cons.mp h with rfl | h
        · rintro (_ | ⟨_, hmem⟩)
          · exact hc hd
          · exact ih List.mem_cons_self hmem
        · exact ih (List.mem_cons_of_mem first h)

theorem splitBy_joinWith {d : Char} (hd : p d = true) {parts : List Chars} (hne : parts ≠ [])
    (h : ∀ part ∈ parts, ∀ c ∈ part, p c = false) : splitBy p (joinWith [d] parts) = parts := by
  induction parts with
  | nil => exact absurd rfl hne
  | cons part parts ih =>
      obtain ⟨hpart, hparts⟩ := List.forall_mem_cons.mp h
      cases parts with
      | nil => exact splitBy_eq_self hpart
      | cons next more =>
          rw [joinWith, List.append_assoc, List.singleton_append, splitBy_append hpart hd,
            ih (List.cons_ne_nil next more) hparts]

/-- With one separator only, the parts tell the text. -/
theorem joinWith_splitBy {d : Char} (h : ∀ c, p c = true → c = d) (s : Chars) :
    joinWith [d] (splitBy p s) = s := by
  induction s with
  | nil => rfl
  | cons c s ih =>
      obtain ⟨part, parts, hparts⟩ := List.exists_cons_of_ne_nil (splitBy_ne_nil p s)
      rw [hparts] at ih
      by_cases hc : p c = true
      · obtain rfl := h c hc
        rw [splitBy, if_pos hc, hparts, joinWith, ih]
        rfl
      · rw [splitBy_cons (by simpa using hc) hparts, ← ih]
        cases parts <;> rfl

/-- Every piece ends with a separator, and an empty rest comes behind the last. -/
theorem splitBy_flatMap {d : Char} {pieces : List Chars} (h : ∀ s ∈ pieces, ∀ c ∈ s, p c = false)
    (hd : p d = true) : splitBy p (pieces.flatMap (· ++ [d])) = pieces ++ [[]] := by
  induction pieces with
  | nil => rfl
  | cons s pieces ih =>
      obtain ⟨hs, hmore⟩ := List.forall_mem_cons.mp h
      rw [List.flatMap_cons, List.append_assoc, List.singleton_append, splitBy_append hs hd, ih hmore]
      rfl

theorem trim_cons {c : Char} (hc : isBlank c = true) (s : Chars) : trim (c :: s) = trim s := by
  rw [trim, trimStart, List.dropWhile_cons, if_pos hc]
  rfl

theorem trim_concat {c : Char} (hc : isBlank c = true) (h : IsTrimmed s) : trim (s ++ [c]) = s := by
  cases s with
  | nil => simp [trim, trimStart, trimEnd, hc]
  | cons d s =>
      have hstart : trimStart (d :: s ++ [c]) = d :: s ++ [c] :=
        dropWhile_eq_self fun e he => h.1 e he
      rw [trim, hstart, trimEnd, List.reverse_append, List.reverse_singleton, List.singleton_append,
        List.dropWhile_cons, if_pos hc, dropWhile_eq_self, List.reverse_reverse]
      intro e he
      rw [List.head?_reverse] at he
      exact h.2 e he

/-- Only the ends of a text tell whether it is trimmed. -/
theorem isTrimmed_enclosed {a b : Char} (ha : isBlank a = false) (hb : isBlank b = false) (s : Chars) :
    IsTrimmed (a :: (s ++ [b])) := by
  constructor
  · intro c hc
    obtain rfl := Option.some.inj hc
    exact ha
  · intro c hc
    rw [← List.cons_append, List.getLast?_concat] at hc
    obtain rfl := Option.some.inj hc
    exact hb

end Chars

/-- Marks around a text without such marks are taken off. -/
theorem trimMatches_enclosed {p : Char → Bool} {a b : Char} (ha : p a = true) (hb : p b = true) {s : Chars}
    (h : ∀ c ∈ s, p c = false) : trimMatches p (.ofList (a :: (s ++ [b]))) = .ofList s := by
  have hfirst : (a :: (s ++ [b])).dropWhile p = (s ++ [b]).dropWhile p := by
    rw [List.dropWhile_cons, if_pos ha]
  have hlast : ((s ++ [b]).dropWhile p).reverse.dropWhile p = s.reverse := by
    cases s with
    | nil => simp [hb]
    | cons c s =>
        have hc : p c = false := h c List.mem_cons_self
        rw [List.cons_append, List.dropWhile_cons, if_neg (by simp [hc]), ← List.cons_append,
          List.reverse_append, List.reverse_singleton, List.singleton_append, List.dropWhile_cons, if_pos hb]
        apply Chars.dropWhile_eq_self
        intro d hd
        exact h d (List.mem_reverse.mp (List.mem_of_head? hd))
  rw [trimMatches, String.toList_ofList, hfirst, hlast, List.reverse_reverse]

theorem startsWith_eq_false (start : String) {s : String} {a b : Char} (ha : start.toList.head? = some a)
    (hb : s.toList.head? = some b) (hne : a ≠ b) : startsWith start s = false := by
  obtain ⟨x, hx⟩ := List.head?_eq_some_iff.mp ha
  obtain ⟨y, hy⟩ := List.head?_eq_some_iff.mp hb
  rw [startsWith, hx, hy, Chars.dropPrefix?, if_neg hne]
  rfl

/-! ## Lines -/

/-- A text of lines, each with a line break behind it. -/
def unlines (lineBreak : String) (lines : List String) : String :=
  String.join (lines.map (· ++ lineBreak))

theorem endsWith_return (s : String) : endsWith "\r" s = true ↔ s.toList.getLast? = some '\r' := by
  have hreversed : "\r".toList.reverse = ['\r'] := rfl
  rw [endsWith, Option.isSome_iff_exists, hreversed]
  simp only [Chars.dropPrefix?_eq_some_iff, List.singleton_append, ← List.head?_reverse]
  cases s.toList.reverse with
  | nil => simp
  | cons c r => simp

/-- A line with what is left of its line break. -/
theorem toList_unlines {lineBreak : String} {kept : Chars} (hbreak : lineBreak.toList = kept ++ ['\n'])
    (ls : List String) :
    (unlines lineBreak ls).toList = (ls.map (·.toList ++ kept)).flatMap (· ++ ['\n']) := by
  rw [unlines, String.toList_join, List.flatMap_map, List.flatMap_map]
  apply List.flatMap_congr
  intro l _
  rw [String.toList_append, hbreak, List.append_assoc]

theorem lines_unlines {lineBreak : String} (hbreak : lineBreak = "\n" ∨ lineBreak = "\r\n")
    {ls : List String} (h : ∀ l ∈ ls, '\n' ∉ l.toList ∧ l.toList.getLast? ≠ some '\r') :
    lines (unlines lineBreak ls) = ls := by
  obtain ⟨kept, hkept, hcases⟩ : ∃ kept, lineBreak.toList = kept ++ ['\n'] ∧
      (kept = [] ∨ kept = ['\r']) := by
    rcases hbreak with rfl | rfl
    · exact ⟨[], rfl, .inl rfl⟩
    · exact ⟨['\r'], rfl, .inr rfl⟩
  have hpieces : ∀ s ∈ ls.map (·.toList ++ kept), ∀ c ∈ s, (c == '\n') = false := by
    intro s hs c hc
    obtain ⟨l, hl, rfl⟩ := List.mem_map.mp hs
    rw [beq_eq_false_iff_ne]
    rintro rfl
    rcases List.mem_append.mp hc with hc | hc
    · exact (h l hl).1 hc
    · rcases hcases with rfl | rfl <;> simp at hc
  have hparts : splitBy (· == '\n') (unlines lineBreak ls) =
      ls.map (fun l => String.ofList (l.toList ++ kept)) ++ [""] := by
    rw [splitBy, toList_unlines hkept, Chars.splitBy_flatMap hpieces (by decide), List.map_append,
      List.map_map]
    rfl
  have hline : ∀ l ∈ ls,
      (if endsWith "\r" (.ofList (l.toList ++ kept)) then
        String.ofList (String.ofList (l.toList ++ kept)).toList.dropLast
      else .ofList (l.toList ++ kept)) = l := by
    intro l hl
    rcases hcases with rfl | rfl
    · rw [List.append_nil, String.ofList_toList, if_neg]
      rw [endsWith_return]
      exact (h l hl).2
    · rw [if_pos]
      · rw [String.toList_ofList, List.dropLast_concat, String.ofList_toList]
      · rw [endsWith_return, String.toList_ofList, List.getLast?_concat]
  rw [lines, hparts, List.getLast?_concat]
  rw [if_pos (by decide), List.dropLast_concat, List.map_map]
  calc ls.map _ = ls.map id := List.map_congr_left hline
    _ = ls := List.map_id ls

end CodeGraph.Text
