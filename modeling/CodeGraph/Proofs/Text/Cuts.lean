import CodeGraph.Text.Basic
import Mathlib.Data.List.Basic
import Mathlib.Data.List.TakeWhile

namespace CodeGraph.Text.Chars

/-!
# Cuts

A text is the pieces that a cut made of it, and cutting again at the same place changes nothing.
-/

variable {s t : Chars}

/-! ## Blanks -/

/-- The code points of the blanks. -/
def blanks : List Nat :=
  [9, 10, 11, 12, 13, 0x20, 0x85, 0xA0, 0x1680, 0x2000, 0x2001, 0x2002, 0x2003, 0x2004, 0x2005, 0x2006,
    0x2007, 0x2008, 0x2009, 0x200A, 0x2028, 0x2029, 0x202F, 0x205F, 0x3000]

/-- What holds of every one of the blanks. -/
theorem of_isBlank {P : Char → Prop} (h : ∀ n ∈ blanks, P (Char.ofNat n)) {c : Char}
    (hc : isBlank c = true) : P c := by
  have hmem : c.toNat ∈ blanks := by
    simp only [isBlank, Bool.or_eq_true, Bool.and_eq_true, decide_eq_true_eq, beq_iff_eq] at hc
    simp only [blanks, List.mem_cons, List.not_mem_nil, or_false]
    omega
  have hP := h _ hmem
  rwa [Char.ofNat_toNat] at hP

/-- The list form of a table, since a loop over the array is slow to evaluate. -/
theorem inRanges_eq (table : Array (Nat × Nat)) (n : Nat) :
    inRanges table n = table.toList.any fun r => decide (r.1 ≤ n) && decide (n ≤ r.2) := by
  rw [inRanges, Array.any_toList]

theorem isBlank_of_isAlphanumeric {c : Char} (h : isAlphanumeric c = true) : isBlank c = false := by
  have hblank : isBlank c = true → isAlphanumeric c = false := by
    simp only [isAlphanumeric, isAlphabetic, isNumeric, inRanges_eq]
    refine of_isBlank (P := fun c => (
      (if c.toNat < 128 then c.isAlpha
        else alphabeticRanges.toList.any fun r => decide (r.1 ≤ c.toNat) && decide (c.toNat ≤ r.2)) ||
      (if c.toNat < 128 then c.isDigit
        else numericRanges.toList.any fun r => decide (r.1 ≤ c.toNat) && decide (c.toNat ≤ r.2))) =
      false) ?_
    decide +kernel
  by_contra hc
  rw [hblank (by simpa using hc)] at h
  cases h

/-! ## Trimming -/

/-- No blank stands at either end. -/
def IsTrimmed (s : Chars) : Prop :=
  (∀ c, s.head? = some c → isBlank c = false) ∧ ∀ c, s.getLast? = some c → isBlank c = false

theorem dropWhile_eq_self {p : Char → Bool} (h : ∀ c, s.head? = some c → p c = false) :
    s.dropWhile p = s := by
  cases s with
  | nil => rfl
  | cons c s => simp [h c rfl]

theorem head?_dropWhile {p : Char → Bool} {c : Char} (h : (s.dropWhile p).head? = some c) :
    p c = false := by
  induction s with
  | nil => simp at h
  | cons d s ih =>
      rw [List.dropWhile_cons] at h
      split at h
      · exact ih h
      · next hd =>
          obtain rfl := Option.some.inj h
          simpa using hd

theorem trim_eq_self (h : IsTrimmed s) : trim s = s := by
  have hstart : trimStart s = s := dropWhile_eq_self h.1
  have hend : s.reverse.dropWhile isBlank = s.reverse :=
    dropWhile_eq_self fun c hc => h.2 c (by simpa using hc)
  rw [trim, hstart, trimEnd, hend, List.reverse_reverse]

theorem trimStart_append (s : Chars) :
    ∃ b, s = b ++ trimStart s ∧ ∀ c ∈ b, isBlank c = true :=
  ⟨s.takeWhile isBlank, List.takeWhile_append_dropWhile.symm, fun _ hc => List.mem_takeWhile_imp hc⟩

theorem trimEnd_append (s : Chars) : ∃ e, s = trimEnd s ++ e ∧ ∀ c ∈ e, isBlank c = true := by
  refine ⟨(s.reverse.takeWhile isBlank).reverse, ?_, ?_⟩
  · rw [trimEnd, ← List.reverse_append, List.takeWhile_append_dropWhile, List.reverse_reverse]
  · intro c hc
    exact List.mem_takeWhile_imp (List.mem_reverse.mp hc)

/-- Trimming takes blanks from both ends. -/
theorem trim_append (s : Chars) : ∃ b e, s = b ++ (trim s ++ e) ∧
    (∀ c ∈ b, isBlank c = true) ∧ ∀ c ∈ e, isBlank c = true := by
  obtain ⟨b, hb, hblank⟩ := trimStart_append s
  obtain ⟨e, he, heblank⟩ := trimEnd_append (trimStart s)
  exact ⟨b, e, by rw [trim, ← he, ← hb], hblank, heblank⟩

theorem isTrimmed_trim (s : Chars) : IsTrimmed (trim s) := by
  have hlast : ∀ c, (trim s).getLast? = some c → isBlank c = false := by
    intro c hc
    rw [trim, trimEnd, List.getLast?_reverse] at hc
    exact head?_dropWhile hc
  refine ⟨?_, hlast⟩
  intro c hc
  obtain ⟨e, he, -⟩ := trimEnd_append (trimStart s)
  have hhead : (trimStart s).head? = some c := by
    rw [he, List.head?_append]
    exact (congrArg (Option.or · e.head?) hc).trans (by simp)
  exact head?_dropWhile hhead

/-- Only the ends count. -/
theorem IsTrimmed.replace {a b m m' : Chars} {o c : Char}
    (h : IsTrimmed (a ++ o :: (m ++ c :: b))) : IsTrimmed (a ++ o :: (m' ++ c :: b)) := by
  refine ⟨?_, ?_⟩
  · intro d hd
    refine h.1 d ?_
    cases a <;> simpa using hd
  · intro d hd
    refine h.2 d ?_
    simpa [List.getLast?_append, List.getLast?_cons] using hd

/-- Whatever stands before a text with other characters than blanks, only its own end is trimmed. -/
theorem trimEnd_append_left (a : Chars) (h : ∃ c ∈ s, isBlank c = false) :
    trimEnd (a ++ s) = a ++ trimEnd s := by
  obtain ⟨c, hc, hblank⟩ := h
  have hne : s.reverse.dropWhile isBlank ≠ [] := by
    intro hnil
    have hall := List.dropWhile_eq_nil_iff.mp hnil c (List.mem_reverse.mpr hc)
    rw [hblank] at hall
    cases hall
  rw [trimEnd, trimEnd, List.reverse_append, List.dropWhile_append, if_neg (by simpa using hne),
    List.reverse_append, List.reverse_reverse]

theorem trim_append_left {a : Chars} (hne : a ≠ []) (ha : ∀ c, a.head? = some c → isBlank c = false)
    (h : ∃ c ∈ s, isBlank c = false) : trim (a ++ s) = a ++ trimEnd s := by
  have hstart : trimStart (a ++ s) = a ++ s := by
    refine dropWhile_eq_self fun c hc => ha c ?_
    rwa [List.head?_append_of_ne_nil _ hne] at hc
  rw [trim, hstart, trimEnd_append_left a h]

theorem trimStart_trimEnd (h : ∃ c ∈ s, isBlank c = false) : trimStart (trimEnd s) = trim s := by
  obtain ⟨b, hs, hblanks⟩ := trimStart_append s
  have hrest : ∃ c ∈ trimStart s, isBlank c = false := by
    obtain ⟨c, hc, hblank⟩ := h
    rw [hs] at hc
    refine ⟨c, (List.mem_append.mp hc).resolve_left fun hb => ?_, hblank⟩
    rw [hblanks c hb] at hblank
    cases hblank
  have hend : trimEnd s = b ++ trim s := by
    conv_lhs => rw [hs]
    exact trimEnd_append_left b hrest
  rw [hend, trimStart, List.dropWhile_append_of_pos hblanks, dropWhile_eq_self (isTrimmed_trim s).1]

theorem length_trim_le (s : Chars) : (trim s).length ≤ s.length := by
  obtain ⟨b, e, hs, -⟩ := trim_append s
  have hlength := congrArg List.length hs
  simp only [List.length_append] at hlength
  omega

/-! ## First and last occurrences -/

theorem cut?_eq_none {p : Char → Bool} (h : ∀ c ∈ s, p c = false) : cut? p s = none := by
  induction s with
  | nil => rfl
  | cons c s ih =>
      simp [cut?, h c List.mem_cons_self, ih fun d hd => h d (List.mem_cons_of_mem c hd)]

theorem cut?_append {p : Char → Bool} {d : Char} (h : ∀ c ∈ s, p c = false) (hd : p d = true)
    (r : Chars) : cut? p (s ++ d :: r) = some (s, d, r) := by
  induction s with
  | nil => simp [cut?, hd]
  | cons c s ih =>
      simp [cut?, h c List.mem_cons_self, ih fun d hd => h d (List.mem_cons_of_mem c hd)]

theorem cut?_eq_some {p : Char → Bool} {a b : Chars} {d : Char} (h : cut? p s = some (a, d, b)) :
    s = a ++ d :: b ∧ p d = true ∧ ∀ c ∈ a, p c = false := by
  induction s generalizing a with
  | nil => simp [cut?] at h
  | cons c s ih =>
      rw [cut?] at h
      split at h
      · next hc =>
          obtain ⟨rfl, rfl, rfl⟩ : a = [] ∧ d = c ∧ b = s := by simpa [eq_comm] using h
          exact ⟨rfl, hc, by simp⟩
      · next hc =>
          obtain ⟨⟨x, e, y⟩, hsome, heq⟩ := Option.map_eq_some_iff.mp h
          obtain ⟨rfl, rfl, rfl⟩ : c :: x = a ∧ e = d ∧ y = b := by simpa using heq
          obtain ⟨rfl, hd, hx⟩ := ih hsome
          refine ⟨rfl, hd, ?_⟩
          intro k hk
          rcases List.mem_cons.mp hk with rfl | hk
          · simpa using hc
          · exact hx k hk

/-- What stands before the first of some characters, found again. -/
theorem before_append {p : Char → Bool} {a b : String} (ha : ∀ c ∈ a.toList, p c = false)
    (hb : ∀ c, b.toList.head? = some c → p c = true) : before p (a ++ b) = a := by
  have hnone : b.toList.takeWhile (! p ·) = [] := by
    cases hchars : b.toList with
    | nil => rfl
    | cons c r => simp [hb c (by simp [hchars])]
  have htake : (a ++ b).toList.takeWhile (! p ·) = a.toList := by
    rw [String.toList_append, List.takeWhile_append_of_pos fun c hc => by simp [ha c hc], hnone,
      List.append_nil]
  rw [before, htake, String.ofList_toList]

/-- The text behind the last occurrence of a character, and the text up to it. -/
def behindLast (d : Char) (s : Chars) : Chars :=
  (s.reverse.takeWhile (· != d)).reverse

def upToLast (d : Char) (s : Chars) : Chars :=
  (s.reverse.dropWhile (· != d)).reverse

theorem upToLast_append_behindLast (d : Char) (s : Chars) : upToLast d s ++ behindLast d s = s := by
  rw [upToLast, behindLast, ← List.reverse_append, List.takeWhile_append_dropWhile,
    List.reverse_reverse]

theorem notMem_behindLast (d : Char) (s : Chars) : d ∉ behindLast d s := by
  intro h
  have hne := List.mem_takeWhile_imp (List.mem_reverse.mp h)
  simp at hne

theorem upToLast_cases (d : Char) (s : Chars) : upToLast d s = [] ∨ ∃ x, upToLast d s = x ++ [d] := by
  unfold upToLast
  cases h : s.reverse.dropWhile (· != d) with
  | nil => exact Or.inl rfl
  | cons c r =>
      have hc : (c != d) = false := head?_dropWhile (p := (· != d)) (s := s.reverse) (by rw [h]; rfl)
      obtain rfl : c = d := by simpa using hc
      exact Or.inr ⟨r.reverse, by simp⟩

theorem behindLast_of_notMem {d : Char} (h : d ∉ s) : behindLast d s = s := by
  have htake : s.reverse.takeWhile (· != d) = s.reverse := by
    refine List.takeWhile_eq_self_iff.mpr fun c hc => ?_
    have hne : c ≠ d := fun heq => h (heq ▸ List.mem_reverse.mp hc)
    simpa using hne
  rw [behindLast, htake, List.reverse_reverse]

/-- What stands before a separator does not matter. -/
theorem behindLast_append_cons (d : Char) (a b : Chars) : behindLast d (a ++ d :: b) = behindLast d b := by
  rw [behindLast, behindLast, List.reverse_append, List.reverse_cons, List.append_assoc,
    List.takeWhile_append]
  split
  · next hlength =>
      have hall : b.reverse.takeWhile (· != d) = b.reverse :=
        (List.takeWhile_prefix _).eq_of_length hlength
      simp [hall]
  · rfl

/-! ## Replacement -/

theorem replaceFrom_skip (pat new : Chars) (a b : Chars) :
    replaceFrom pat new a.length (a ++ b) = replaceFrom pat new 0 b := by
  induction a with
  | nil => rfl
  | cons c a ih => exact ih

theorem replace_append (a : Char) (pat new r : Chars) :
    replace (a :: pat) new (a :: pat ++ r) = new ++ replace (a :: pat) new r := by
  have hfound : dropPrefix? (a :: pat) (a :: pat ++ r) = some r := dropPrefix?_eq_some_iff.mpr rfl
  rw [replace, List.cons_append, replaceFrom, ← List.cons_append, hfound]
  simp only [Option.isSome_some, if_true]
  rw [replaceFrom_skip, replace]

theorem replace_cons {a c : Char} {pat r : Chars} (new : Chars)
    (h : dropPrefix? (a :: pat) (c :: r) = none) :
    replace (a :: pat) new (c :: r) = c :: replace (a :: pat) new r := by
  simp [replace, replaceFrom, h]

/-- Occurrences are replaced from left to right. -/
theorem replace_induction {a : Char} {pat new : Chars} {P : Chars → Chars → Prop} (nil : P [] [])
    (found : ∀ r, P r (replace (a :: pat) new r) →
      P (a :: pat ++ r) (new ++ replace (a :: pat) new r))
    (other : ∀ c r, dropPrefix? (a :: pat) (c :: r) = none → P r (replace (a :: pat) new r) →
      P (c :: r) (c :: replace (a :: pat) new r)) (s : Chars) : P s (replace (a :: pat) new s) := by
  induction hlength : s.length using Nat.strongRecOn generalizing s with
  | _ length ih =>
      cases s with
      | nil => exact nil
      | cons c s =>
          rw [List.length_cons] at hlength
          cases hdrop : dropPrefix? (a :: pat) (c :: s) with
          | none =>
              rw [replace_cons new hdrop]
              exact other c s hdrop (ih _ (by omega) s rfl)
          | some r =>
              have hs := dropPrefix?_eq_some_iff.mp hdrop
              have hshorter := congrArg List.length hs
              simp only [List.length_append, List.length_cons] at hshorter
              rw [hs, replace_append]
              exact found r (ih _ (by omega) r rfl)

theorem mem_replace {a c : Char} {pat new s : Chars} (h : c ∈ replace (a :: pat) new s) :
    c ∈ new ∨ c ∈ s := by
  revert h
  refine replace_induction (P := fun s r => c ∈ r → c ∈ new ∨ c ∈ s) (by simp) ?_ ?_ s
  · intro r ih h
    rcases List.mem_append.mp h with h | h
    · exact Or.inl h
    · exact (ih h).imp_right (List.mem_append_right _)
  · intro d r _ ih h
    rcases List.mem_cons.mp h with rfl | h
    · exact Or.inr List.mem_cons_self
    · exact (ih h).imp_right (List.mem_cons_of_mem d)

/-- The ends of a text are replaced, or they stay. -/
theorem replace_ends {a : Char} {pat new : Chars} (hnew : new ≠ []) (s : Chars) :
    (∀ c, (replace (a :: pat) new s).head? = some c → c ∈ new ∨ s.head? = some c) ∧
      (∀ c, (replace (a :: pat) new s).getLast? = some c → c ∈ new ∨ s.getLast? = some c) ∧
      (replace (a :: pat) new s = [] → s = []) := by
  refine replace_induction (P := fun s r => (∀ c, r.head? = some c → c ∈ new ∨ s.head? = some c) ∧
    (∀ c, r.getLast? = some c → c ∈ new ∨ s.getLast? = some c) ∧ (r = [] → s = [])) ?_ ?_ ?_ s
  · simp
  · rintro r ⟨-, hlast, -⟩
    refine ⟨?_, ?_, fun h => absurd (List.append_eq_nil_iff.mp h).1 hnew⟩
    · intro c hc
      rw [List.head?_append_of_ne_nil _ hnew] at hc
      exact Or.inl (List.mem_of_head? hc)
    · intro c hc
      rw [List.getLast?_append, Option.or_eq_some_iff] at hc
      rcases hc with hc | ⟨-, hc⟩
      · exact (hlast c hc).imp_right fun h => by rw [List.getLast?_append, h]; rfl
      · exact Or.inl (List.mem_of_getLast? hc)
  · rintro d r - ⟨-, hlast, hnil⟩
    refine ⟨fun c hc => Or.inr hc, ?_, by simp⟩
    intro c hc
    rw [List.getLast?_cons] at hc ⊢
    cases hout : (replace (a :: pat) new r).getLast? with
    | none =>
        have hr := hnil (List.getLast?_eq_none_iff.mp hout)
        rw [hout] at hc
        rw [hr]
        exact Or.inr hc
    | some e =>
        rw [hout] at hc
        obtain rfl : e = c := by simpa using hc
        exact (hlast e hout).imp_right fun h => by rw [h]; rfl

/-- A text in which the pattern does not occur stays. -/
theorem replace_eq_self {pat : Chars} (new : Chars) (h : ¬ pat <:+: s) : replace pat new s = s := by
  unfold replace
  induction s with
  | nil => rfl
  | cons c s ih =>
      have hmore : replaceFrom pat new 0 s = s := ih fun hin => h (List.infix_cons hin)
      cases pat with
      | nil => exact absurd List.nil_infix h
      | cons a pat =>
          have hnot : dropPrefix? (a :: pat) (c :: s) = none := by
            cases hdrop : dropPrefix? (a :: pat) (c :: s) with
            | none => rfl
            | some r =>
                exact absurd ⟨[], r, by simp [dropPrefix?_eq_some_iff.mp hdrop]⟩ h
          simp [replaceFrom, hnot, hmore]

/-- A text that is found in front of a character which it does not have ends before that character. -/
theorem dropPrefix?_cut {pat x : Chars} {d : Char} (hd : d ∉ pat) (h : dropPrefix? pat x = none)
    (y : Chars) : dropPrefix? pat (x ++ d :: y) = none := by
  rw [Option.eq_none_iff_forall_ne_some] at h ⊢
  intro r hr
  rcases List.append_eq_append_iff.mp (dropPrefix?_eq_some_iff.mp hr) with ⟨z, rfl, hz⟩ | ⟨z, rfl, -⟩
  · rcases List.cons_eq_append_iff.mp hz with ⟨rfl, -⟩ | ⟨z, rfl, -⟩
    · exact h [] (dropPrefix?_eq_some_iff.mpr (by simp))
    · exact hd (by simp)
  · exact h z (dropPrefix?_eq_some_iff.mpr rfl)

/-- No occurrence reaches over a character that is not in the pattern. -/
theorem replace_cut {a d : Char} {pat : Chars} (hd : d ∉ a :: pat) (new x y : Chars) :
    replace (a :: pat) new (x ++ d :: y) = replace (a :: pat) new x ++ d :: replace (a :: pat) new y := by
  refine replace_induction (P := fun x out =>
    replace (a :: pat) new (x ++ d :: y) = out ++ d :: replace (a :: pat) new y) ?_ ?_ ?_ x
  · exact replace_cons new (dropPrefix?_cut (x := []) hd rfl y)
  · intro r ih
    rw [List.append_assoc, replace_append, ih, List.append_assoc]
  · intro c r hdrop ih
    have hmore : dropPrefix? (a :: pat) (c :: (r ++ d :: y)) = none := dropPrefix?_cut hd hdrop y
    rw [List.cons_append, replace_cons new hmore, ih, List.cons_append]

/-! ## Parts -/

theorem infix_joinWith {sep part : Chars} {parts : List Chars} (h : part ∈ parts) :
    part <:+: joinWith sep parts := by
  induction parts with
  | nil => simp at h
  | cons first parts ih =>
      cases parts with
      | nil =>
          obtain rfl := List.mem_singleton.mp h
          exact List.infix_rfl
      | cons next parts =>
          rw [joinWith, List.append_assoc]
          rcases List.mem_cons.mp h with rfl | h
          · exact (List.prefix_append _ _).isInfix
          · exact (ih h).trans (List.append_assoc first sep _ ▸ (List.suffix_append _ _).isInfix)

theorem mem_joinWith {sep : Chars} {parts : List Chars} {c : Char} (h : c ∈ joinWith sep parts) :
    c ∈ sep ∨ ∃ part ∈ parts, c ∈ part := by
  induction parts with
  | nil => simp [joinWith] at h
  | cons part parts ih =>
      cases parts with
      | nil => exact Or.inr ⟨part, List.mem_cons_self, h⟩
      | cons next parts =>
          rw [joinWith, List.append_assoc] at h
          rcases List.mem_append.mp h with h | h
          · exact Or.inr ⟨part, List.mem_cons_self, h⟩
          · rcases List.mem_append.mp h with h | h
            · exact Or.inl h
            · rcases ih h with h | ⟨p, hp, hc⟩
              · exact Or.inl h
              · exact Or.inr ⟨p, List.mem_cons_of_mem part hp, hc⟩

theorem toList_joinWith (sep : String) (parts : List String) :
    (Text.joinWith sep parts).toList = joinWith sep.toList (parts.map String.toList) := by
  rw [Text.joinWith, String.toList_intercalate]
  generalize parts.map String.toList = parts
  induction parts with
  | nil => rfl
  | cons part parts ih =>
      cases parts with
      | nil => simp [List.intercalate, joinWith]
      | cons next parts =>
          rw [joinWith, ← ih]
          simp [List.intercalate]

theorem behindLast_joinWith {d : Char} {parts : List Chars} {last : Chars}
    (h : parts.getLast? = some last) : behindLast d (joinWith [d] parts) = behindLast d last := by
  induction parts with
  | nil => cases h
  | cons part parts ih =>
      cases parts with
      | nil =>
          obtain rfl := Option.some.inj h
          rfl
      | cons next parts =>
          rw [joinWith, List.append_assoc, List.singleton_append, behindLast_append_cons]
          exact ih h

end CodeGraph.Text.Chars
