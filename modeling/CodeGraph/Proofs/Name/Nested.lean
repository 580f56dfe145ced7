import CodeGraph.Proofs.Name.Segments

namespace CodeGraph.Name

open CodeGraph.Text

/-!
# Nested brackets

In the texts of types angle brackets nest, square brackets hold only the commas of an array's rank, and
round brackets do not occur. Such a text never closes more than it opened, so that separators inside of
its brackets cut nothing, and each bracket is found again from either side.
-/

def IsPlain (c : Char) : Prop :=
  isOpening c = false ∧ isClosing c = false

instance (c : Char) : Decidable (IsPlain c) :=
  inferInstanceAs (Decidable (_ ∧ _))

def bracketChars : Chars :=
  ['<', '(', '[', '>', ')', ']']

/-- A class of characters without brackets has plain characters only. -/
theorem isPlain_of {p : Char → Bool} (hp : bracketChars.all (! p ·) = true) {c : Char} (h : p c = true) :
    IsPlain c := by
  have hne : ∀ d ∈ bracketChars, (c == d) = false := by
    intro d hd
    rw [beq_eq_false_iff_ne]
    rintro rfl
    simpa [h] using List.all_eq_true.mp hp c hd
  simp only [bracketChars, List.forall_mem_cons] at hne
  simp [IsPlain, isOpening, isClosing, hne]

/-- A pair of brackets, with what may stand between them. -/
inductive Brackets : Char → Chars → Char → Prop
  | angle (a : Chars) : Brackets '<' a '>'
  | rank (k : Nat) : Brackets '[' (List.replicate k ',') ']'

inductive Nested : Chars → Prop
  | nil : Nested []
  | plain {c : Char} {r : Chars} (hc : IsPlain c) (hr : Nested r) : Nested (c :: r)
  | group {o c : Char} {a r : Chars} (hb : Brackets o a c) (ha : Nested a) (hr : Nested r) :
      Nested (o :: (a ++ c :: r))

theorem isClosing_of_isOpening {c : Char} (h : isOpening c = true) : isClosing c = false := by
  simp only [isOpening, Bool.or_eq_true, beq_iff_eq] at h
  rcases h with (rfl | rfl) | rfl <;> decide

theorem IsPlain.ne {c d : Char} (hc : IsPlain c) (hd : ¬ IsPlain d) : c ≠ d :=
  fun h => hd (h ▸ hc)

theorem IsPlain.depthAfter {c : Char} (hc : IsPlain c) : depthAfter 0 c = 0 := by
  simp [Name.depthAfter, hc.1, hc.2]

theorem net_plain_cons {c : Char} (hc : IsPlain c) (s : Chars) : net (c :: s) = net s := by
  rw [net_cons, hc.depthAfter, Int.zero_add]

namespace Brackets

variable {o c : Char} {a : Chars}

theorem depths (h : Brackets o a c) : depthAfter 0 o = 1 ∧ depthAfter 0 c = -1 := by
  cases h <;> decide

theorem net_cons_opening (h : Brackets o a c) (s : Chars) : net (o :: s) = 1 + net s := by
  rw [net_cons, h.depths.1]

theorem net_cons_closing (h : Brackets o a c) (s : Chars) : net (c :: s) = net s - 1 := by
  rw [net_cons, h.depths.2]
  omega

/-- A cut through a group is at its beginning, inside of its brackets, or behind it. -/
theorem cut_cases {r x y : Chars} (h : o :: (a ++ c :: r) = x ++ y) :
    x = [] ∨ (∃ x' z, x = o :: x' ∧ a = x' ++ z) ∨ ∃ z, x = o :: (a ++ c :: z) ∧ r = z ++ y := by
  rcases List.cons_eq_append_iff.mp h with ⟨rfl, -⟩ | ⟨x', rfl, hrest⟩
  · exact Or.inl rfl
  · rcases List.append_eq_append_iff.mp hrest with ⟨z, rfl, hz⟩ | ⟨z, ha, -⟩
    · rcases List.cons_eq_append_iff.mp hz with ⟨rfl, -⟩ | ⟨z, rfl, hr⟩
      · exact Or.inr (Or.inl ⟨a, [], by simp, by simp⟩)
      · exact Or.inr (Or.inr ⟨z, rfl, hr⟩)
    · exact Or.inr (Or.inl ⟨x', z, rfl, ha⟩)

end Brackets

namespace Nested

variable {a b s : Chars}

theorem of_plain (h : ∀ c ∈ s, IsPlain c) : Nested s := by
  induction s with
  | nil => exact .nil
  | cons c s ih =>
      exact .plain (h c List.mem_cons_self) (ih fun d hd => h d (List.mem_cons_of_mem c hd))

theorem of_all (h : s.all (fun c => decide (IsPlain c)) = true) : Nested s :=
  of_plain fun c hc => of_decide_eq_true (List.all_eq_true.mp h c hc)

theorem angle (ha : Nested a) (hb : Nested b) : Nested ('<' :: (a ++ '>' :: b)) :=
  .group (.angle a) ha hb

theorem rank (k : Nat) (hb : Nested b) : Nested ('[' :: (List.replicate k ',' ++ ']' :: b)) :=
  .group (.rank k) (.of_plain fun c hc => List.eq_of_mem_replicate hc ▸ by decide) hb

theorem append (ha : Nested a) (hb : Nested b) : Nested (a ++ b) := by
  induction ha with
  | nil => exact hb
  | plain hc _ ih => exact .plain hc ih
  | group hp ha _ _ ih => simpa using Nested.group hp ha ih

theorem net_eq_zero (h : Nested s) : net s = 0 := by
  induction h with
  | nil => rfl
  | plain hc _ ih => rw [net_plain_cons hc, ih]
  | group hp _ _ iha ihr =>
      rw [hp.net_cons_opening, net_append, iha, hp.net_cons_closing, ihr]
      rfl

/-- Nothing is closed that was not opened. -/
theorem net_prefix_nonneg (h : Nested s) : ∀ x y, s = x ++ y → 0 ≤ net x := by
  induction h with
  | nil =>
      intro x y hxy
      obtain ⟨rfl, -⟩ := List.append_eq_nil_iff.mp hxy.symm
      exact Int.le_refl _
  | plain hc _ ih =>
      intro x y hxy
      rcases List.cons_eq_append_iff.mp hxy with ⟨rfl, -⟩ | ⟨x, rfl, hr⟩
      · exact Int.le_refl _
      · rw [net_plain_cons hc]
        exact ih x y hr
  | group hp ha _ iha ihr =>
      intro x y hxy
      rcases Brackets.cut_cases hxy with rfl | ⟨x, z, rfl, hz⟩ | ⟨z, rfl, hz⟩
      · exact Int.le_refl _
      · have hx := iha x z hz
        rw [hp.net_cons_opening]
        omega
      · have hz := ihr z y hz
        rw [hp.net_cons_opening, net_append, ha.net_eq_zero, hp.net_cons_closing]
        omega

/-- A cut at which no bracket is open leaves two such texts. -/
theorem split (h : Nested s) : ∀ x y, s = x ++ y → net x = 0 → Nested x ∧ Nested y := by
  induction h with
  | nil =>
      intro x y hxy _
      obtain ⟨rfl, rfl⟩ := List.append_eq_nil_iff.mp hxy.symm
      exact ⟨.nil, .nil⟩
  | plain hc hr ih =>
      intro x y hxy hnet
      rcases List.cons_eq_append_iff.mp hxy with ⟨rfl, rfl⟩ | ⟨x, rfl, hcut⟩
      · exact ⟨.nil, .plain hc hr⟩
      · rw [net_plain_cons hc] at hnet
        obtain ⟨hx, hy⟩ := ih x y hcut hnet
        exact ⟨.plain hc hx, hy⟩
  | group hp ha hr _ ihr =>
      intro x y hxy hnet
      rcases Brackets.cut_cases hxy with rfl | ⟨x, z, rfl, hz⟩ | ⟨z, rfl, hz⟩
      · rw [List.nil_append] at hxy
        exact ⟨.nil, hxy ▸ .group hp ha hr⟩
      · have hx := ha.net_prefix_nonneg x z hz
        rw [hp.net_cons_opening] at hnet
        omega
      · rw [hp.net_cons_opening, net_append, ha.net_eq_zero, hp.net_cons_closing] at hnet
        obtain ⟨hx, hy⟩ := ihr z y hz (by omega)
        exact ⟨.group hp ha hx, hy⟩

end Nested

/-! ## Texts that close their brackets -/

/-- Behind so many open brackets the text closes no more than are open, and all of them in the end. -/
def Closes : Int → Chars → Prop
  | depth, [] => depth = 0
  | depth, c :: s => 0 ≤ depth ∧ Closes (depthAfter depth c) s

instance decidableCloses : (depth : Int) → (s : Chars) → Decidable (Closes depth s)
  | depth, [] => inferInstanceAs (Decidable (depth = 0))
  | depth, c :: s =>
    have := decidableCloses (depthAfter depth c) s
    inferInstanceAs (Decidable (_ ∧ _))

namespace Closes

variable {depth : Int} {a b s : Chars}

theorem nonneg (h : Closes depth s) : 0 ≤ depth := by
  cases s with
  | nil => exact Int.le_of_eq (Eq.symm h)
  | cons c s => exact h.1

theorem append (ha : Closes depth a) (hb : Closes 0 b) : Closes depth (a ++ b) := by
  induction a generalizing depth with
  | nil => exact Eq.symm (show depth = 0 from ha) ▸ hb
  | cons c a ih => exact ⟨ha.1, ih ha.2⟩

end Closes

/-- The brackets of the text do not matter to what stands behind it. -/
def Neutral (a : Chars) : Prop :=
  ∀ depth s, Closes depth (a ++ s) ↔ Closes depth s

namespace Neutral

variable {a b : Chars}

theorem nil : Neutral [] :=
  fun _ _ => Iff.rfl

theorem append (ha : Neutral a) (hb : Neutral b) : Neutral (a ++ b) := by
  intro depth s
  rw [List.append_assoc, ha, hb]

theorem plain {c : Char} (hc : IsPlain c) (ha : Neutral a) : Neutral (c :: a) := by
  intro depth s
  have hdepth : depthAfter depth c = depth := by
    rw [depthAfter_eq_add, hc.depthAfter, Int.add_zero]
  rw [List.cons_append, Closes, hdepth, ha]
  exact ⟨And.right, fun h => ⟨h.nonneg, h⟩⟩

theorem bracketed {o c : Char} (hdepths : depthAfter 0 o = 1 ∧ depthAfter 0 c = -1) (ha : Neutral a) :
    Neutral (o :: (a ++ [c])) := by
  intro depth s
  have hopen : depthAfter depth o = depth + 1 := by rw [depthAfter_eq_add, hdepths.1]
  have hclose : depthAfter (depth + 1) c = depth := by
    rw [depthAfter_eq_add, hdepths.2]
    omega
  have hsplit : o :: (a ++ [c]) ++ s = o :: (a ++ c :: s) := by simp
  rw [hsplit, Closes, hopen, ha, Closes, hclose]
  constructor
  · exact fun h => h.2.2
  · intro h
    have hdepth := h.nonneg
    exact ⟨hdepth, by omega, h⟩

theorem closes (h : Neutral a) : Closes 0 a := by
  have hend := (h 0 []).mpr rfl
  rwa [List.append_nil] at hend

end Neutral

theorem Nested.neutral {s : Chars} (h : Nested s) : Neutral s := by
  induction h with
  | nil => exact .nil
  | plain hc _ ih => exact .plain hc ih
  | group hp _ _ iha ihr => simpa using (Neutral.bracketed hp.depths iha).append ihr

theorem Nested.closes {s : Chars} (h : Nested s) : Closes 0 s :=
  h.neutral.closes

/-! ## Separators -/

/-- No separator stands outside brackets. -/
def Uncut (sep : Char) (s : Chars) : Prop :=
  ∀ x y, s = x ++ sep :: y → net x ≠ 0

theorem splitTop_of_uncut {sep : Char} {depth : Int} {s : Chars}
    (h : ∀ x y, s = x ++ sep :: y → depth + net x ≠ 0) (rest : Chars) :
    splitTop sep depth (s ++ rest) =
      match splitTop sep (depth + net s) rest with
      | [] => [s]
      | part :: parts => (s ++ part) :: parts := by
  induction s generalizing depth with
  | nil =>
      have hne : splitTop sep depth rest ≠ [] := by
        cases rest with
        | nil => simp [splitTop]
        | cons c r =>
            rw [splitTop]
            split
            · simp
            · split <;> simp
      obtain ⟨part, parts, heq⟩ := List.exists_cons_of_ne_nil hne
      simp [heq]
  | cons c s ih =>
      have hhead : ¬ (c = sep ∧ depth = 0) := by
        rintro ⟨rfl, rfl⟩
        exact h [] s rfl (by simp)
      have hmore : ∀ x y, s = x ++ sep :: y → depthAfter depth c + net x ≠ 0 := by
        intro x y hxy
        have hne := h (c :: x) y (by rw [hxy]; rfl)
        rw [net_cons] at hne
        rw [depthAfter_eq_add]
        omega
      have hdepth : depthAfter depth c + net s = depth + net (c :: s) := by
        rw [net_cons, depthAfter_eq_add]
        omega
      rw [List.cons_append, splitTop, if_neg hhead, ih hmore, hdepth]
      cases splitTop sep (depth + net (c :: s)) rest <;> rfl

theorem Uncut.splitTop_eq {sep : Char} {s : Chars} (h : Uncut sep s) : splitTop sep 0 s = [s] := by
  have hzero : ∀ x y, s = x ++ sep :: y → 0 + net x ≠ 0 := fun x y hxy => by simpa using h x y hxy
  have hsplit := splitTop_of_uncut hzero []
  simpa [splitTop] using hsplit

theorem Uncut.splitTop_append {sep : Char} {s : Chars} (h : Uncut sep s) (hs : net s = 0)
    (rest : Chars) : splitTop sep 0 (s ++ sep :: rest) = s :: splitTop sep 0 rest := by
  rw [splitTop_of_uncut (fun x y hxy => by simpa using h x y hxy), hs]
  simp [splitTop]

/-- Parts without separators, put together with separators, are found again. -/
theorem splitTop_joinWith {sep : Char} {parts : List Chars} (hne : parts ≠ [])
    (h : ∀ part ∈ parts, Uncut sep part ∧ net part = 0) :
    splitTop sep 0 (Chars.joinWith [sep] parts) = parts := by
  induction parts with
  | nil => exact absurd rfl hne
  | cons part parts ih =>
      obtain ⟨huncut, hnet⟩ := h part List.mem_cons_self
      cases parts with
      | nil => exact huncut.splitTop_eq
      | cons next parts =>
          have hmore := ih (List.cons_ne_nil _ _) fun p hp => h p (List.mem_cons_of_mem part hp)
          rw [Chars.joinWith, List.append_assoc, List.singleton_append, huncut.splitTop_append hnet,
            hmore]

theorem Uncut.append {sep : Char} {a b : Chars} (ha : Uncut sep a) (hnet : net a = 0)
    (hb : Uncut sep b) : Uncut sep (a ++ b) := by
  intro x y hxy
  rcases List.append_eq_append_iff.mp hxy with ⟨z, rfl, hz⟩ | ⟨z, rfl, hz⟩
  · rw [net_append, hnet, Int.zero_add]
    exact hb z y hz
  · rcases List.cons_eq_append_iff.mp hz with ⟨rfl, hb'⟩ | ⟨w, rfl, -⟩
    · exact absurd net_nil (hb [] y (by simpa using hb'))
    · exact ha x w rfl

theorem Uncut.left {sep : Char} {a b : Chars} (h : Uncut sep (a ++ b)) : Uncut sep a :=
  fun x y hxy => h x (y ++ b) (by simp [hxy])

theorem Uncut.right {sep : Char} {a b : Chars} (h : Uncut sep (a ++ b)) (ha : net a = 0) :
    Uncut sep b := by
  intro x y hxy
  have hne := h (a ++ x) y (by simp [hxy])
  rwa [net_append, ha, Int.zero_add] at hne

theorem Uncut.of_notMem {sep : Char} {s : Chars} (h : sep ∉ s) : Uncut sep s :=
  fun x y hxy => absurd (by simp [hxy]) h

/-- Inside of brackets nothing is cut. -/
theorem Brackets.uncut {o c sep : Char} {a : Chars} (hp : Brackets o a c) (ha : Nested a)
    (hsep : IsPlain sep) : Uncut sep (o :: (a ++ [c])) := by
  intro x y hxy
  have hclosing : sep ≠ c := hsep.ne (by cases hp <;> decide)
  have hopening : sep ≠ o := hsep.ne (by cases hp <;> decide)
  rcases Brackets.cut_cases hxy with rfl | ⟨x, z, rfl, hz⟩ | ⟨z, -, hz⟩
  · exact absurd (List.cons.inj hxy).1.symm hopening
  · have hx := ha.net_prefix_nonneg x z hz
    rw [hp.net_cons_opening]
    omega
  · simp at hz

/-- A nested text is made of nested parts without commas outside brackets. -/
theorem Nested.exists_parts {s : Chars} (h : Nested s) :
    ∃ parts, parts ≠ [] ∧ Chars.joinWith [','] parts = s ∧
      ∀ part ∈ parts, Nested part ∧ Uncut ',' part := by
  have hcomma : IsPlain ',' := by decide
  -- what stands before the first part goes to it
  have prepend : ∀ {q r : Chars}, Nested q → Uncut ',' q →
      (∃ parts, parts ≠ [] ∧ Chars.joinWith [','] parts = r ∧
        ∀ part ∈ parts, Nested part ∧ Uncut ',' part) →
      ∃ parts, parts ≠ [] ∧ Chars.joinWith [','] parts = q ++ r ∧
        ∀ part ∈ parts, Nested part ∧ Uncut ',' part := by
    rintro q r hq huncut ⟨parts, hne, rfl, hparts⟩
    obtain ⟨part, parts, rfl⟩ := List.exists_cons_of_ne_nil hne
    obtain ⟨hfirst, hfirstUncut⟩ := hparts part List.mem_cons_self
    refine ⟨(q ++ part) :: parts, List.cons_ne_nil _ _, ?_, ?_⟩
    · cases parts <;> simp [Chars.joinWith]
    · intro p hp
      rcases List.mem_cons.mp hp with rfl | hp
      · exact ⟨hq.append hfirst, huncut.append hq.net_eq_zero hfirstUncut⟩
      · exact hparts p (List.mem_cons_of_mem part hp)
  induction h with
  | nil => exact ⟨[[]], by simp, rfl, by simpa using ⟨Nested.nil, Uncut.of_notMem (by simp)⟩⟩
  | @plain c r hc _ ih =>
      by_cases h : c = ','
      · subst h
        obtain ⟨parts, hne, rfl, hparts⟩ := ih
        obtain ⟨part, parts, rfl⟩ := List.exists_cons_of_ne_nil hne
        refine ⟨[] :: part :: parts, List.cons_ne_nil _ _, rfl, ?_⟩
        intro p hp
        rcases List.mem_cons.mp hp with rfl | hp
        · exact ⟨.nil, Uncut.of_notMem (by simp)⟩
        · exact hparts p hp
      · exact prepend (q := [c]) (.plain hc .nil) (Uncut.of_notMem (by simp [Ne.symm h])) ih
  | @group o c a r hp ha _ _ ih =>
      have hgroup := prepend (.group hp ha .nil) (hp.uncut ha hcomma) ih
      simpa using hgroup

/-- The parts between the commas nest, and put together they are the text. -/
theorem Nested.splitTop {s : Chars} (h : Nested s) :
    Chars.joinWith [','] (splitTop ',' 0 s) = s ∧
      ∀ part ∈ splitTop ',' 0 s, Nested part ∧ Uncut ',' part := by
  obtain ⟨parts, hne, rfl, hparts⟩ := h.exists_parts
  rw [splitTop_joinWith hne fun p hp => ⟨(hparts p hp).2, (hparts p hp).1.net_eq_zero⟩]
  exact ⟨rfl, hparts⟩

theorem Nested.joinWith {parts : List Chars} (h : ∀ part ∈ parts, Nested part) :
    Nested (Chars.joinWith [','] parts) := by
  induction parts with
  | nil => exact .nil
  | cons part parts ih =>
      have hmore := ih fun p hp => h p (List.mem_cons_of_mem part hp)
      cases parts with
      | nil => exact h part List.mem_cons_self
      | cons next parts =>
          rw [Chars.joinWith, List.append_assoc]
          exact (h part List.mem_cons_self).append (.plain (by decide) hmore)

/-! ## Brackets found again -/

theorem closeAngle_cons {c : Char} (ho : c ≠ '<') (hc : c ≠ '>') (depth : Nat) (r : Chars) :
    closeAngle depth (c :: r) = (closeAngle depth r).map fun (x, y) => (c :: x, y) := by
  rw [closeAngle.eq_def]
  simp [ho, hc]

theorem closeAngle_opening (depth : Nat) (r : Chars) :
    closeAngle depth ('<' :: r) = (closeAngle (depth + 1) r).map fun (x, y) => ('<' :: x, y) := by
  rw [closeAngle.eq_def]
  simp

theorem closeAngle_closing (depth : Nat) (r : Chars) :
    closeAngle (depth + 1) ('>' :: r) = (closeAngle depth r).map fun (x, y) => ('>' :: x, y) := by
  rw [closeAngle.eq_def]
  simp

theorem closeAngle_end (r : Chars) : closeAngle 0 ('>' :: r) = some ([], r) := by
  rw [closeAngle.eq_def]
  simp

theorem closeAngle_append_of_notMem {a : Chars} (ho : '<' ∉ a) (hc : '>' ∉ a) (depth : Nat)
    (rest : Chars) :
    closeAngle depth (a ++ rest) = (closeAngle depth rest).map fun (x, y) => (a ++ x, y) := by
  induction a with
  | nil => simp
  | cons d a ih =>
      obtain ⟨hdo, ho⟩ := not_or.mp (fun h => ho (List.mem_cons.mpr h))
      obtain ⟨hdc, hc⟩ := not_or.mp (fun h => hc (List.mem_cons.mpr h))
      rw [List.cons_append, closeAngle_cons (Ne.symm hdo) (Ne.symm hdc), ih ho hc]
      cases closeAngle depth rest <;> rfl

/-- The search for a closing angle bracket passes over a nested text. -/
theorem Nested.closeAngle_append {a : Chars} (h : Nested a) (depth : Nat) (rest : Chars) :
    closeAngle depth (a ++ rest) = (closeAngle depth rest).map fun (x, y) => (a ++ x, y) := by
  induction h generalizing depth rest with
  | nil => simp
  | @plain c r hc _ ih =>
      have ho : c ≠ '<' := hc.ne (by decide)
      have hcl : c ≠ '>' := hc.ne (by decide)
      rw [List.cons_append, closeAngle_cons ho hcl, ih]
      cases closeAngle depth rest <;> rfl
  | @group o c a r hp ha _ iha ihr =>
      cases hp with
      | angle =>
          rw [List.cons_append, List.append_assoc, List.cons_append, closeAngle_opening, iha,
            closeAngle_closing, ihr]
          cases closeAngle depth rest <;> simp
      | rank k =>
          have hgroup : '[' :: (List.replicate k ',' ++ ']' :: r) ++ rest =
              ('[' :: (List.replicate k ',' ++ [']'])) ++ (r ++ rest) := by simp
          rw [hgroup, closeAngle_append_of_notMem (by simp) (by simp), ihr]
          cases closeAngle depth rest <;> simp

theorem Nested.closeAngle_eq {a : Chars} (h : Nested a) (rest : Chars) :
    closeAngle 0 (a ++ '>' :: rest) = some (a, rest) := by
  rw [h.closeAngle_append, closeAngle_end]
  simp

theorem openingBefore_closing {c : Char} (hc : isClosing c = true) (depth : Nat) (inner r : Chars) :
    openingBefore depth inner (c :: r) = openingBefore (depth + 1) (c :: inner) r := by
  rw [openingBefore.eq_def]
  simp [hc]

theorem openingBefore_opening {c : Char} (hc : isClosing c = false) (ho : isOpening c = true)
    (depth : Nat) (inner r : Chars) :
    openingBefore (depth + 1) inner (c :: r) = openingBefore depth (c :: inner) r := by
  rw [openingBefore.eq_def]
  simp [hc, ho]

theorem openingBefore_plain {c : Char} (hc : IsPlain c) (depth : Nat) (inner r : Chars) :
    openingBefore depth inner (c :: r) = openingBefore depth (c :: inner) r := by
  rw [openingBefore.eq_def]
  simp [hc.1, hc.2]

theorem openingBefore_round (inner r : Chars) :
    openingBefore 0 inner ('(' :: r) = if r ≠ [] then some (r.reverse, inner) else none := by
  have hround : isClosing '(' = false ∧ isOpening '(' = true := by decide
  rw [openingBefore.eq_def]
  simp [hround]

/-- The search leftward ends where as many brackets are open as before the text. -/
theorem Closes.openingBefore_append {a : Chars} {depth : Int} (h : Closes depth a) (inner rest : Chars) :
    openingBefore 0 inner (a.reverse ++ rest) = openingBefore depth.toNat (a ++ inner) rest := by
  induction a generalizing depth rest with
  | nil =>
      obtain rfl : depth = 0 := h
      rfl
  | cons c a ih =>
      have hmore := ih h.2 (c :: rest)
      have hdepth := h.1
      have hbehind := h.2.nonneg
      rw [List.reverse_cons, List.append_assoc, List.singleton_append, hmore, List.cons_append]
      unfold depthAfter at hbehind ⊢
      by_cases hopen : isOpening c = true
      · rw [if_pos hopen, Int.toNat_add hdepth (by decide)]
        exact openingBefore_opening (isClosing_of_isOpening hopen) hopen _ _ _
      · by_cases hclosing : isClosing c = true
        · rw [if_neg hopen, if_pos hclosing] at hbehind ⊢
          rw [openingBefore_closing hclosing]
          congr 1
          omega
        · rw [if_neg hopen, if_neg hclosing]
          exact openingBefore_plain ⟨by simpa using hopen, by simpa using hclosing⟩ _ _ _

theorem Closes.splitParameters_eq {head params : Chars} (hne : head ≠ []) (h : Closes 0 params) :
    splitParameters (head ++ '(' :: (params ++ [')'])) = some (head, params) := by
  have hreverse : (head ++ '(' :: (params ++ [')'])).reverse =
      ')' :: (params.reverse ++ '(' :: head.reverse) := by simp
  rw [splitParameters, hreverse]
  simp [h.openingBefore_append, openingBefore_round, hne]

theorem openingBefore_eq_some {depth : Nat} {inner s head params : Chars}
    (h : openingBefore depth inner s = some (head, params)) :
    s.reverse ++ inner = head ++ '(' :: params ∧ head ≠ [] := by
  induction s generalizing depth inner with
  | nil => simp [openingBefore] at h
  | cons c s ih =>
      rw [List.reverse_cons, List.append_assoc, List.singleton_append]
      rw [openingBefore.eq_def] at h
      dsimp only at h
      split at h
      · exact ih h
      · split at h
        · split at h
          · obtain ⟨⟨rfl, hs⟩, hsome⟩ := Option.ite_some_none_eq_some.mp h
            obtain ⟨rfl, rfl⟩ := Prod.mk.inj hsome
            exact ⟨rfl, by simpa using hs⟩
          · exact ih h
        · exact ih h

theorem splitParameters_eq_some {text head params : Chars}
    (h : splitParameters text = some (head, params)) :
    text = head ++ '(' :: (params ++ [')']) ∧ head ≠ [] := by
  unfold splitParameters at h
  split at h
  · next r hr =>
      obtain ⟨heq, hne⟩ := openingBefore_eq_some h
      rw [List.append_nil] at heq
      have htext : text = r.reverse ++ [')'] := by
        rw [← List.reverse_reverse text, hr, List.reverse_cons]
      refine ⟨?_, hne⟩
      rw [htext, heq]
      simp
  · cases h

theorem splitParameters_of_getLast? {text : Chars} (h : text.getLast? ≠ some ')') :
    splitParameters text = none := by
  cases hsplit : splitParameters text with
  | none => rfl
  | some parts =>
      obtain ⟨head, params⟩ := parts
      obtain ⟨rfl, -⟩ := splitParameters_eq_some hsplit
      exact absurd (by simp [List.getLast?_cons]) h

end CodeGraph.Name
