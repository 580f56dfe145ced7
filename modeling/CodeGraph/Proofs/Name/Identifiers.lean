import CodeGraph.Proofs.Name.MemberNames

namespace CodeGraph.Name

open CodeGraph.Text

/-!
# Identifiers

An identifier has none of the characters that names are cut at or rewritten for: no bracket, separator,
comma, mark of a type, tick of an arity or blank. All runs of letters, digits and underscores are
identifiers.
-/

/-- The characters other than brackets and blanks that no identifier has. -/
def nameMarks : Chars :=
  separators ++ [tick, ',', '&', '*', '?']

def IsNameChar (c : Char) : Prop :=
  IsPlain c ∧ isBlank c = false ∧ c ∉ nameMarks

instance (c : Char) : Decidable (IsNameChar c) :=
  inferInstanceAs (Decidable (_ ∧ _))

structure IsIdentifier (s : String) : Prop where
  ne_empty : s ≠ ""
  chars : ∀ c ∈ s.toList, IsNameChar c

instance (s : String) : Decidable (IsIdentifier s) :=
  decidable_of_iff (s ≠ "" ∧ s.toList.all (fun c => decide (IsNameChar c)) = true)
    ⟨fun h => ⟨h.1, fun c hc => of_decide_eq_true (List.all_eq_true.mp h.2 c hc)⟩,
      fun h => ⟨h.ne_empty, List.all_eq_true.mpr fun c hc => decide_eq_true (h.chars c hc)⟩⟩

theorem isNameChar_of_isAlphanumeric {c : Char} (h : isAlphanumeric c = true) : IsNameChar c := by
  refine ⟨isPlain_of (by decide) h, Chars.isBlank_of_isAlphanumeric h, ?_⟩
  intro hmem
  have hmarks : nameMarks.all (! isAlphanumeric ·) = true := by decide
  have hnot := List.all_eq_true.mp hmarks c hmem
  rw [h] at hnot
  cases hnot

theorem isNameChar_of_isDigit {c : Char} (h : c.isDigit = true) : IsNameChar c := by
  have hascii : c.toNat < 128 := by
    simp only [Char.isDigit, Bool.and_eq_true, decide_eq_true_eq] at h
    exact Nat.lt_of_le_of_lt h.2 (by decide)
  exact isNameChar_of_isAlphanumeric (by simp [isAlphanumeric, isNumeric, hascii, h])

theorem IsNameChar.ne {c d : Char} (hc : IsNameChar c) (hd : ¬ IsNameChar d) : c ≠ d :=
  fun h => hd (h ▸ hc)

theorem IsNameChar.quiet {c : Char} (hc : IsNameChar c) : IsPlain c ∧ isBlank c = false ∧ c ∉ separators :=
  ⟨hc.1, hc.2.1, fun hforeign => hc.2.2 (List.mem_append_left _ hforeign)⟩

theorem IsNameChar.isMark_eq_false {c : Char} (hc : IsNameChar c) : isMark c = false := by
  have hne : ∀ d, ¬ IsNameChar d → (c == d) = false := by
    intro d hd
    rw [beq_eq_false_iff_ne]
    exact hc.ne hd
  simp [isMark, hne '[' (by decide), hne '&' (by decide), hne '*' (by decide), hne '?' (by decide)]
namespace IsIdentifier

/-- Letters, digits and underscores make an identifier. -/
theorem of_word {s : String} (hne : s ≠ "")
    (h : s.toList.all (fun c => isAlphanumeric c || c == '_') = true) : IsIdentifier s := by
  refine ⟨hne, fun c hc => ?_⟩
  have hword := List.all_eq_true.mp h c hc
  rw [Bool.or_eq_true, beq_iff_eq] at hword
  rcases hword with hword | rfl
  · exact isNameChar_of_isAlphanumeric hword
  · decide

variable {s : String} (h : IsIdentifier s)

include h

theorem toList_ne_nil : s.toList ≠ [] :=
  Name.toList_ne_nil h.ne_empty

theorem notMem {d : Char} (hd : ¬ IsNameChar d) : d ∉ s.toList :=
  fun hmem => hd (h.chars d hmem)

theorem quiet : IsQuiet s.toList :=
  .of_forall fun c hc => (h.chars c hc).quiet

/-- Only a name that begins with the verb of an accessor stands for a property. -/
theorem accessorProperty_eq_none (hget : startsWith "get_" s = false)
    (hset : startsWith "set_" s = false) : accessorProperty s.toList = none := by
  have htail : (s.toList.reverse.takeWhile (· != '*')).reverse = s.toList :=
    Chars.behindLast_of_notMem (h.notMem (by decide))
  have hnot : ∀ verb, startsWith verb s = false → Chars.dropPrefix? verb.toList s.toList = none :=
    fun verb hverb => Option.isNone_iff_eq_none.mp (Option.isSome_eq_false_iff.mp hverb)
  have hgetTail : Chars.dropPrefix? ['g', 'e', 't', '_'] s.toList = none := hnot "get_" hget
  have hsetTail : Chars.dropPrefix? ['s', 'e', 't', '_'] s.toList = none := hnot "set_" hset
  simp only [accessorProperty, htail, hgetTail, hsetTail, Option.or_none]

end IsIdentifier

end CodeGraph.Name
