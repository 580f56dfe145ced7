import CodeGraph.Proofs.Name.Nested
import CodeGraph.Proofs.Text.Cuts
import Mathlib.Data.List.Chain

namespace CodeGraph.Name

open CodeGraph.Text

/-!
# Types cut down to their last segments

A simple text has no dot in its name, and so at every depth of its argument lists. Cutting a type down
gives a simple text, and leaves one as it is.
-/

/-- The marks of arrays, pointers, references and nullable types. -/
def isMark (c : Char) : Bool :=
  c == '[' || c == '&' || c == '*' || c == '?'

inductive Simple : Chars → Prop
  | name {base suffix : Chars} (hdot : '.' ∉ base) (hbase : ∀ c ∈ base, isMark c = false)
      (hsuffix : ∀ c, suffix.head? = some c → isMark c = true) (hangle : '<' ∉ base ++ suffix)
      (hn : Nested (base ++ suffix)) (ht : Chars.IsTrimmed (base ++ suffix)) : Simple (base ++ suffix)
  | generic {base suffix : Chars} {args : List Chars} (hdot : '.' ∉ base) (hangle : '<' ∉ base)
      (hb : Nested base) (hs : Nested suffix) (hne : args ≠ [])
      (hargs : ∀ a ∈ args, Simple a) (huncut : ∀ a ∈ args, Uncut ',' a)
      (ht : Chars.IsTrimmed (base ++ '<' :: (Chars.joinWith [','] args ++ '>' :: suffix))) :
      Simple (base ++ '<' :: (Chars.joinWith [','] args ++ '>' :: suffix))

/-! ## The recursion -/

theorem length_le_of_mem_splitTop {sep : Char} {depth : Int} {s part : Chars}
    (h : part ∈ splitTop sep depth s) : part.length ≤ s.length := by
  induction s generalizing depth part with
  | nil => simp_all [splitTop]
  | cons c s ih =>
      rw [splitTop] at h
      split at h
      · rcases List.mem_cons.mp h with rfl | h
        · simp
        · exact Nat.le_succ_of_le (ih h)
      · split at h
        · next hparts => simp_all
        · next first parts hparts =>
            rcases List.mem_cons.mp h with rfl | h
            · exact Nat.succ_le_succ (ih (hparts ▸ List.mem_cons_self))
            · exact Nat.le_succ_of_le (ih (hparts ▸ List.mem_cons_of_mem first h))

theorem closeAngle_length {depth : Nat} {s a b : Chars} (h : closeAngle depth s = some (a, b)) :
    a.length < s.length := by
  induction s generalizing depth a with
  | nil => simp [closeAngle] at h
  | cons c s ih =>
      have hmap : ∀ {depth}, (closeAngle depth s).map (fun cut => (c :: cut.1, cut.2)) = some (a, b) →
          a.length < (c :: s).length := by
        intro depth hsome
        obtain ⟨⟨x, y⟩, hx, heq⟩ := Option.map_eq_some_iff.mp hsome
        obtain ⟨rfl, rfl⟩ := Prod.mk.inj heq
        exact Nat.succ_lt_succ (ih hx)
      by_cases ho : c = '<'
      · subst ho
        exact hmap ((closeAngle_opening depth s).symm.trans h)
      · by_cases hc : c = '>'
        · subst hc
          cases depth with
          | zero =>
              rw [closeAngle_end] at h
              obtain ⟨rfl, -⟩ := Prod.mk.inj (Option.some.inj h)
              simp
          | succ depth => exact hmap ((closeAngle_closing depth s).symm.trans h)
        · exact hmap ((closeAngle_cons ho hc depth s).symm.trans h)

theorem splitGeneric_length {s base args suffix : Chars}
    (h : splitGeneric s = (base, some args, suffix)) : args.length < s.length := by
  unfold splitGeneric at h
  dsimp only at h
  split at h
  · next b c r hcut =>
      cases hclose : closeAngle 0 r with
      | none => simp [hclose] at h
      | some cut =>
          obtain ⟨a, suffix⟩ := cut
          rw [hclose] at h
          obtain ⟨-, rfl, -⟩ : b = base ∧ a = args ∧ suffix = _ := by simpa using h
          exact Nat.lt_trans (closeAngle_length hclose) (cut?_length hcut)
  · simp at h

/-- Any bound beyond the length does. -/
theorem simplifyWithin_eq {n m : Nat} {s : Chars} (hn : s.length < n) (hm : s.length < m) :
    simplifyWithin n s = simplifyWithin m s := by
  induction n generalizing m s with
  | zero => exact absurd hn (Nat.not_lt_zero _)
  | succ n ih =>
      obtain ⟨m, rfl⟩ : ∃ k, m = k + 1 := ⟨m - 1, by omega⟩
      have htrim := Chars.length_trim_le s
      simp only [simplifyWithin]
      split
      · rfl
      · split
        · next base args suffix hsplit =>
            have hlength := splitGeneric_length hsplit
            have hargs : (splitTop ',' 0 args).map (simplifyWithin n) =
                (splitTop ',' 0 args).map (simplifyWithin m) := by
              refine List.map_congr_left fun part hpart => ih ?_ ?_
              · have := length_le_of_mem_splitTop hpart
                omega
              · have := length_le_of_mem_splitTop hpart
                omega
            rw [hargs]
        · rfl

theorem simplifyTypeChars_eq (s : Chars) :
    simplifyTypeChars s =
      if (Chars.trim s).isEmpty then []
      else
        match splitGeneric (Chars.trim s) with
        | (base, some args, suffix) =>
          lastDotted base ++ '<' ::
            (Chars.joinWith [','] ((splitTop ',' 0 args).map simplifyTypeChars) ++ '>' :: suffix)
        | (base, none, suffix) => lastDotted base ++ suffix := by
  have htrim := Chars.length_trim_le s
  rw [simplifyTypeChars, simplifyWithin]
  split
  · rfl
  · rcases hsplit : splitGeneric (Chars.trim s) with ⟨base, _ | args, suffix⟩
    · rfl
    · have hlength := splitGeneric_length hsplit
      have hargs : (splitTop ',' 0 args).map (simplifyWithin s.length) =
          (splitTop ',' 0 args).map simplifyTypeChars := by
        refine List.map_congr_left fun part hpart => simplifyWithin_eq ?_ (Nat.lt_succ_self _)
        have := length_le_of_mem_splitTop hpart
        omega
      simp only [hargs, List.append_assoc, List.cons_append]

/-! ## The two forms of a type -/

theorem Nested.cut_angle {s : Chars} (h : Nested s) :
    '<' ∉ s ∨ ∃ base a r, s = base ++ '<' :: (a ++ '>' :: r) ∧ '<' ∉ base ∧ Nested base ∧ Nested a ∧
      Nested r := by
  induction h with
  | nil => exact Or.inl (by simp)
  | @plain c r hc _ ih =>
      have hne : c ≠ '<' := hc.ne (by decide)
      rcases ih with hnot | ⟨base, a, t, rfl, hnot, hbase, ha, ht⟩
      · exact Or.inl (by simp [hnot, hne.symm])
      · exact Or.inr ⟨c :: base, a, t, rfl, by simp [hnot, hne.symm], .plain hc hbase, ha, ht⟩
  | @group o c a r hp ha hr _ ih =>
      cases hp with
      | angle => exact Or.inr ⟨[], a, r, rfl, by simp, .nil, ha, hr⟩
      | rank k =>
          rcases ih with hnot | ⟨base, b, t, rfl, hnot, hbase, hb, ht⟩
          · exact Or.inl (by simp [hnot])
          · refine Or.inr ⟨'[' :: (List.replicate k ',' ++ ']' :: base), b, t, by simp, ?_,
              .rank k hbase, hb, ht⟩
            simp [hnot]

theorem beq_of_notMem {s : Chars} {d : Char} (h : d ∉ s) : ∀ c ∈ s, (c == d) = false := by
  intro c hc
  have hne : c ≠ d := fun heq => h (heq ▸ hc)
  simpa using hne

theorem splitGeneric_name {s : Chars} (h : '<' ∉ s) :
    splitGeneric s = (s.takeWhile (! isMark ·), none, s.dropWhile (! isMark ·)) := by
  have hcut : Chars.cut? (· == '<') s = none :=
    Chars.cut?_eq_none (beq_of_notMem h)
  simp only [splitGeneric, hcut, Option.getD_none]
  rfl

/-- Without arguments a type is its name and its marks. -/
theorem splitGeneric_marked {base suffix : Chars} (hbase : ∀ c ∈ base, isMark c = false)
    (hsuffix : ∀ c, suffix.head? = some c → isMark c = true) (hangle : '<' ∉ base ++ suffix) :
    splitGeneric (base ++ suffix) = (base, none, suffix) := by
  have htake : (base ++ suffix).takeWhile (! isMark ·) = base := by
    rw [List.takeWhile_append_of_pos fun c hc => by simp [hbase c hc]]
    cases suffix with
    | nil => simp
    | cons c suffix => simp [hsuffix c rfl]
  have hdrop : (base ++ suffix).dropWhile (! isMark ·) = suffix := by
    have hboth := List.takeWhile_append_dropWhile (p := (! isMark ·)) (l := base ++ suffix)
    rw [htake] at hboth
    exact List.append_cancel_left hboth
  rw [splitGeneric_name hangle, htake, hdrop]

theorem splitGeneric_generic {base a r : Chars} (hbase : '<' ∉ base) (ha : Nested a) :
    splitGeneric (base ++ '<' :: (a ++ '>' :: r)) = (base, some a, r) := by
  have hcut : Chars.cut? (· == '<') (base ++ '<' :: (a ++ '>' :: r)) =
      some (base, '<', a ++ '>' :: r) :=
    Chars.cut?_append (beq_of_notMem hbase) rfl _
  simp [splitGeneric, hcut, ha.closeAngle_eq]

namespace Nested

variable {s : Chars}

theorem isPlain_of_isBlank {c : Char} (hc : isBlank c = true) : IsPlain c :=
  Chars.of_isBlank (by decide) hc

theorem trim (h : Nested s) : Nested (Chars.trim s) ∧ (Uncut ',' s → Uncut ',' (Chars.trim s)) := by
  obtain ⟨b, e, hs, hb, he⟩ := Chars.trim_append s
  have hbnet : net b = 0 := (of_plain fun c hc => isPlain_of_isBlank (hb c hc)).net_eq_zero
  have henet : net e = 0 := (of_plain fun c hc => isPlain_of_isBlank (he c hc)).net_eq_zero
  have hrest := (h.split b _ hs hbnet).2
  have hnet : net (Chars.trim s) = 0 := by
    have hsum := hrest.net_eq_zero
    rw [net_append, henet] at hsum
    omega
  refine ⟨(hrest.split _ e rfl hnet).1, ?_⟩
  intro huncut x y hxy
  have hne := huncut (b ++ x) (y ++ e) (by rw [hs, hxy]; simp)
  rwa [net_append, hbnet, Int.zero_add] at hne

/-- Outside angle brackets no plain character but the comma stands inside of brackets. -/
theorem net_before {x y : Chars} {d : Char} (hd : IsPlain d) (hcomma : d ≠ ',')
    (h : Nested s) : s = x ++ d :: y → '<' ∉ x → net x = 0 := by
  induction h generalizing x with
  | nil => simp
  | plain hc _ ih =>
      intro hs hx
      rcases List.cons_eq_append_iff.mp hs with ⟨rfl, -⟩ | ⟨x, rfl, hr⟩
      · rfl
      · rw [net_plain_cons hc]
        exact ih hr fun hmem => hx (List.mem_cons_of_mem _ hmem)
  | @group o c a r hp ha _ _ ih =>
      intro hs hx
      rcases Brackets.cut_cases hs with rfl | ⟨x, z, rfl, hz⟩ | ⟨z, rfl, hr⟩
      · rfl
      · cases hp with
        | angle => exact absurd List.mem_cons_self hx
        | rank k =>
            -- the cut would lie among the commas
            have hmem : d ∈ z ++ ']' :: r := by
              have heq : x ++ d :: y = x ++ (z ++ ']' :: r) := by
                rw [← List.append_assoc, ← hz]
                exact (List.cons.inj hs).2.symm
              rw [← List.append_cancel_left heq]
              exact List.mem_cons_self
            cases z with
            | nil =>
                have hends : d :: y = ']' :: r := by
                  have heq := (List.cons.inj hs).2
                  rw [hz, List.append_nil] at heq
                  exact (List.append_cancel_left heq).symm
                exact absurd (List.cons.inj hends).1 (hd.ne (by decide))
            | cons e z =>
                have hends : e :: (z ++ ']' :: r) = d :: y := by
                  have heq := (List.cons.inj hs).2
                  rw [hz, List.append_assoc] at heq
                  exact List.append_cancel_left heq
                obtain ⟨rfl, -⟩ := List.cons.inj hends
                have hin : e ∈ List.replicate k ',' := by
                  rw [hz]
                  exact List.mem_append_right _ List.mem_cons_self
                exact absurd (List.eq_of_mem_replicate hin) hcomma
      · have hz := ih hr fun hmem => hx (by simp [hmem])
        rw [hp.net_cons_opening, net_append, ha.net_eq_zero, hp.net_cons_closing, hz]
        rfl

end Nested

/-- A property of a nested text and what it is cut down to holds when it holds of names, and of generic
types as soon as it holds of the arguments. -/
theorem simplify_induction {P : Chars → Chars → Prop}
    (name : ∀ s base suffix, Chars.trim s = base ++ suffix → (∀ c ∈ base, isMark c = false) →
      (∀ c, suffix.head? = some c → isMark c = true) → '<' ∉ base ++ suffix → Nested (base ++ suffix) →
      P s (lastDotted base ++ suffix))
    (generic : ∀ s base suffix parts, Chars.trim s = base ++ '<' :: (Chars.joinWith [','] parts ++ '>' :: suffix) →
      '<' ∉ base → Nested base → Nested suffix → parts ≠ [] →
      (∀ part ∈ parts, Nested part ∧ Uncut ',' part) →
      (∀ part ∈ parts, P part (simplifyTypeChars part)) →
      P s (lastDotted base ++ '<' ::
        (Chars.joinWith [','] (parts.map simplifyTypeChars) ++ '>' :: suffix)))
    {s : Chars} (h : Nested s) : P s (simplifyTypeChars s) := by
  induction hlength : s.length using Nat.strongRecOn generalizing s with
  | _ length ih =>
      have htrim := Chars.length_trim_le s
      rw [simplifyTypeChars_eq]
      rcases h.trim.1.cut_angle with hangle | ⟨base, args, suffix, heq, hangle, hbase, hargs, hsuffix⟩
      · have hcut : (Chars.trim s).takeWhile (! isMark ·) ++ (Chars.trim s).dropWhile (! isMark ·) =
            Chars.trim s := List.takeWhile_append_dropWhile
        have hname := name s ((Chars.trim s).takeWhile (! isMark ·))
          ((Chars.trim s).dropWhile (! isMark ·)) hcut.symm
          (fun c hc => by simpa using List.mem_takeWhile_imp hc)
          (fun c hc => by simpa using Chars.head?_dropWhile hc) (hcut.symm ▸ hangle)
          (hcut.symm ▸ h.trim.1)
        rw [splitGeneric_name hangle]
        split
        · next hempty =>
            rw [List.isEmpty_iff.mp hempty] at hname
            exact hname
        · exact hname
      · obtain ⟨parts, hne, rfl, hparts⟩ := hargs.exists_parts
        have hsplit : splitTop ',' 0 (Chars.joinWith [','] parts) = parts :=
          splitTop_joinWith hne fun p hp => ⟨(hparts p hp).2, (hparts p hp).1.net_eq_zero⟩
        have hshorter : ∀ part ∈ parts, part.length < length := by
          intro part hpart
          have hin : part <:+: Chars.joinWith [','] parts := Chars.infix_joinWith hpart
          have hpartLength := hin.length_le
          have hsum := congrArg List.length heq
          simp only [List.length_append, List.length_cons] at hsum
          omega
        have hnonempty : (Chars.trim s).isEmpty = false := by simp [heq]
        rw [hnonempty, heq, splitGeneric_generic hangle hargs]
        simp only [Bool.false_eq_true, if_false, hsplit]
        exact generic s base suffix parts heq hangle hbase hsuffix hne hparts fun part hpart =>
          ih _ (hshorter part hpart) (hparts part hpart).1 rfl

/-! ## Simple texts -/

namespace Simple

variable {s : Chars}

theorem isTrimmed (h : Simple s) : Chars.IsTrimmed s := by
  cases h <;> assumption

theorem nested (h : Simple s) : Nested s := by
  induction h with
  | name _ _ _ _ hn => exact hn
  | generic _ _ hb hs _ _ _ _ ih => exact hb.append (.angle (.joinWith ih) hs)

/-- Cutting down a simple text changes nothing. -/
theorem simplify_eq (h : Simple s) : simplifyTypeChars s = s := by
  induction h with
  | @name base suffix hdot hbase hsuffix hangle hn ht =>
      have hlast : lastDotted base = base := Chars.behindLast_of_notMem hdot
      rw [simplifyTypeChars_eq, Chars.trim_eq_self ht, splitGeneric_marked hbase hsuffix hangle]
      split
      · next hempty => exact (List.isEmpty_iff.mp hempty).symm
      · simp [hlast]
  | @generic base suffix args hdot hangle hb hs hne hargs huncut ht ih =>
      have hnested : Nested (Chars.joinWith [','] args) := .joinWith fun a ha => (hargs a ha).nested
      have hsplit : splitTop ',' 0 (Chars.joinWith [','] args) = args :=
        splitTop_joinWith hne fun a ha => ⟨huncut a ha, (hargs a ha).nested.net_eq_zero⟩
      have hlast : lastDotted base = base := Chars.behindLast_of_notMem hdot
      rw [simplifyTypeChars_eq, Chars.trim_eq_self ht, splitGeneric_generic hangle hnested]
      simp [hsplit, hlast, List.map_congr_left ih]

end Simple

/-- Behind a dot stands neither another one nor a blank. -/
def Segmented (s : Chars) : Prop :=
  s.IsChain fun a b => a = '.' → b ≠ '.' ∧ isBlank b = false

theorem Segmented.part {s t : Chars} (h : Segmented t) (hs : s <:+: t) : Segmented s :=
  List.IsChain.infix h hs

theorem Segmented.trim {s : Chars} (h : Segmented s) : Segmented (Chars.trim s) := by
  obtain ⟨b, e, heq, -⟩ := Chars.trim_append s
  exact h.part ⟨b, e, by rw [List.append_assoc, ← heq]⟩

theorem Segmented.behind_dot {x y : Chars} (h : Segmented (x ++ '.' :: y)) :
    ∀ c, y.head? = some c → c ≠ '.' ∧ isBlank c = false := by
  intro c hc
  cases y with
  | nil => simp at hc
  | cons d y =>
      obtain rfl := Option.some.inj hc
      exact (List.isChain_append_cons_cons.mp h).2.1 rfl

/-- What stands behind a dot, and all of it when there is none, is trimmed with the text. -/
theorem isTrimmed_behind {q r : Chars} (h : Chars.IsTrimmed (q ++ r)) (hs : Segmented (q ++ r))
    (hq : q = [] ∨ ∃ x, q = x ++ ['.']) : Chars.IsTrimmed r := by
  refine ⟨?_, ?_⟩
  · intro c hc
    rcases hq with rfl | ⟨x, rfl⟩
    · exact h.1 c hc
    · rw [List.append_assoc] at hs
      exact (hs.behind_dot c hc).2
  · intro c hc
    refine h.2 c ?_
    rw [List.getLast?_append, hc]
    rfl

/-- What a name is cut down to stands at its end, outside all brackets. -/
theorem lastDotted_cut (base : Chars) : ∃ q, base = q ++ lastDotted base ∧
    '.' ∉ lastDotted base ∧ (q = [] ∨ ∃ x, q = x ++ ['.']) :=
  ⟨Chars.upToLast '.' base, (Chars.upToLast_append_behindLast '.' base).symm,
    Chars.notMem_behindLast '.' base, Chars.upToLast_cases '.' base⟩

theorem net_upTo_dot {q r : Chars} (h : Nested (q ++ r)) (hangle : '<' ∉ q)
    (hq : q = [] ∨ ∃ x, q = x ++ ['.']) : net q = 0 := by
  rcases hq with rfl | ⟨x, rfl⟩
  · rfl
  · have hx : net x = 0 := by
      refine Nested.net_before (y := r) (d := '.') (by decide) (by decide) h (by simp) ?_
      exact fun hmem => hangle (List.mem_append_left _ hmem)
    rw [net_append, hx]
    decide

/-- What stands behind the dropped part of a name, with whatever follows it. -/
theorem lastDotted_append {base rest : Chars} (h : Nested (base ++ rest)) (hangle : '<' ∉ base) :
    ∃ q, base ++ rest = q ++ (lastDotted base ++ rest) ∧ net q = 0 ∧ '.' ∉ lastDotted base ∧
      lastDotted base ⊆ base ∧ (q = [] ∨ ∃ x, q = x ++ ['.']) := by
  obtain ⟨q, hbase, hdot, hq⟩ := lastDotted_cut base
  have hcut : base ++ rest = q ++ (lastDotted base ++ rest) := by
    rw [← List.append_assoc, ← hbase]
  have hqangle : '<' ∉ q := fun hmem => hangle (by rw [hbase]; exact List.mem_append_left _ hmem)
  refine ⟨q, hcut, net_upTo_dot (hcut ▸ h) hqangle hq, hdot, ?_, hq⟩
  intro c hc
  rw [hbase]
  exact List.mem_append_right _ hc

theorem Nested.lastDotted {base : Chars} (h : Nested base) (hangle : '<' ∉ base) :
    Nested (Name.lastDotted base) := by
  have hbase : Nested (base ++ []) := by simpa using h
  obtain ⟨q, hcut, hnet, -⟩ := lastDotted_append hbase hangle
  simpa using (hbase.split q _ hcut hnet).2

theorem Nested.joinWith_map {f : Chars → Chars} {parts : List Chars}
    (h : ∀ part ∈ parts, Nested (f part)) : Nested (Chars.joinWith [','] (parts.map f)) :=
  .joinWith fun a ha => by
    obtain ⟨part, hpart, rfl⟩ := List.mem_map.mp ha
    exact h part hpart

theorem nested_simplify {s : Chars} (h : Nested s) : Nested (simplifyTypeChars s) := by
  refine simplify_induction (P := fun _ r => Nested r) ?_ ?_ h
  · intro s base suffix _ _ _ hangle hn
    obtain ⟨q, hcut, hnet, -⟩ :=
      lastDotted_append hn fun hmem => hangle (List.mem_append_left _ hmem)
    exact (hn.split q _ hcut hnet).2
  · intro s base suffix parts _ hangle hb hsuffix _ _ ih
    exact (hb.lastDotted hangle).append (.angle (.joinWith_map ih) hsuffix)

theorem uncut_simplify {s : Chars} (h : Nested s) (huncut : Uncut ',' s) :
    Uncut ',' (simplifyTypeChars s) := by
  refine simplify_induction (P := fun s r => Nested s → Uncut ',' s → Uncut ',' r) ?_ ?_ h h huncut
  · intro s base suffix heq _ _ hangle hn hs huncut
    obtain ⟨q, hcut, hnet, -⟩ :=
      lastDotted_append hn fun hmem => hangle (List.mem_append_left _ hmem)
    exact (hcut ▸ heq ▸ hs.trim.2 huncut).right hnet
  · intro s base suffix parts heq hangle hb hsuffix _ hparts _ hs huncut
    have hinner : Nested (Chars.joinWith [','] parts) := .joinWith fun p hp => (hparts p hp).1
    have hargs : Nested (Chars.joinWith [','] (parts.map simplifyTypeChars)) :=
      .joinWith_map fun part hpart => nested_simplify (hparts part hpart).1
    obtain ⟨q, hcut, hnet, -⟩ := lastDotted_append (heq ▸ hs.trim.1) hangle
    have hwhole := (hcut ▸ heq ▸ hs.trim.2 huncut).right hnet
    have hlast := hb.lastDotted hangle
    have hafter : Uncut ',' suffix := by
      have hsplit : lastDotted base ++ '<' :: (Chars.joinWith [','] parts ++ '>' :: suffix) =
          (lastDotted base ++ '<' :: (Chars.joinWith [','] parts ++ ['>'])) ++ suffix := by simp
      rw [hsplit] at hwhole
      exact hwhole.right (hlast.append (.angle hinner .nil)).net_eq_zero
    have hgroup := (Brackets.angle _).uncut hargs (by decide : IsPlain ',')
    have hgroupNet := (Nested.angle hargs .nil).net_eq_zero
    have hresult := hwhole.left.append hlast.net_eq_zero (hgroup.append hgroupNet hafter)
    simpa using hresult

/-- Cutting down gives simple texts. -/
theorem simple_simplify {s : Chars} (h : Nested s) (hseg : Segmented s) :
    Simple (simplifyTypeChars s) := by
  refine simplify_induction (P := fun s r => Nested s → Segmented s → Simple r) ?_ ?_ h h hseg
  · intro s base suffix heq hmark hsuffix hangle hn hs hseg
    obtain ⟨q, hcut, hnet, hdot, hsub, hq⟩ :=
      lastDotted_append hn fun hmem => hangle (List.mem_append_left _ hmem)
    refine .name hdot (fun c hc => hmark c (hsub hc)) hsuffix ?_ (hn.split q _ hcut hnet).2 ?_
    · intro hmem
      rw [hcut] at hangle
      exact hangle (List.mem_append_right _ hmem)
    · exact isTrimmed_behind (hcut ▸ heq ▸ Chars.isTrimmed_trim s) (hcut ▸ heq ▸ hseg.trim) hq
  · intro s base suffix parts heq hangle hb hsuffix hne hparts ih hs hseg
    obtain ⟨q, hcut, -, hdot, hsub, hq⟩ := lastDotted_append (heq ▸ hs.trim.1) hangle
    have hpart : ∀ part ∈ parts, Segmented part := by
      intro part hpart
      have hin : part <:+: Chars.trim s := by
        rw [heq]
        have hargs : part <:+: Chars.joinWith [','] parts := Chars.infix_joinWith hpart
        exact hargs.trans ⟨base ++ ['<'], '>' :: suffix, by simp⟩
      exact hseg.trim.part hin
    refine .generic hdot (fun hmem => hangle (hsub hmem)) (hb.lastDotted hangle) hsuffix (by simpa using hne) ?_ ?_ ?_
    · intro a ha
      obtain ⟨part, hmem, rfl⟩ := List.mem_map.mp ha
      exact ih part hmem (hparts part hmem).1 (hpart part hmem)
    · intro a ha
      obtain ⟨part, hmem, rfl⟩ := List.mem_map.mp ha
      exact uncut_simplify (hparts part hmem).1 (hparts part hmem).2
    · exact (isTrimmed_behind (hcut ▸ heq ▸ Chars.isTrimmed_trim s) (hcut ▸ heq ▸ hseg.trim) hq).replace

end CodeGraph.Name
