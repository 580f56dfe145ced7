import CodeGraph.Proofs.CSharp.Printing

namespace CodeGraph.CSharp.WrittenType

open CodeGraph.Text

/-!
# The steps of the reader

A read that succeeds consists of reads with one step less, and it takes at least one token. So four steps
for each token are enough for every text, not only for those that spell a type, and with more steps nothing
else is read.
-/

/-! ## What is left -/

theorem refWords_suffix (ts : List Token) : (refWords ts).2 <:+ ts := by
  fun_induction refWords ts with
  | case1 w rest _ ih => exact ih.trans (List.suffix_cons _ _)
  | case2 w rest _ _ ih => exact ih.trans (List.suffix_cons _ _)
  | case3 => exact List.suffix_rfl
  | case4 => exact List.suffix_rfl

theorem dropName_suffix (ts : List Token) : dropName ts <:+ ts := by
  fun_cases dropName ts with
  | case1 => exact List.suffix_cons _ _
  | case2 => exact List.suffix_rfl

theorem skipAngles_suffix (depth : Nat) (ts : List Token) : skipAngles depth ts <:+ ts := by
  fun_induction skipAngles depth ts with
  | case1 => exact List.suffix_rfl
  | case2 _ rest ih => exact ih.trans (List.suffix_cons _ _)
  | case3 _ rest => exact List.suffix_cons _ _
  | case4 _ rest _ ih => exact ih.trans (List.suffix_cons _ _)
  | case5 _ t rest _ _ ih => exact ih.trans (List.suffix_cons _ _)

theorem marks_suffix {t u : WrittenType} {ts rest : List Token} (h : marks t ts = some (u, rest)) :
    rest <:+ ts := by
  fun_induction marks t ts with
  | case1 t ts rest' hdrop _ ih =>
      have hbehind : rest' <:+ ts :=
        (List.suffix_cons (.mark ']') rest').trans (hdrop ▸ List.dropWhile_suffix _)
      exact (ih h).trans (hbehind.trans (List.suffix_cons _ _))
  | case2 => cases h
  | case3 t ts ih => exact (ih h).trans (List.suffix_cons _ _)
  | case4 t ts ih => exact (ih h).trans (List.suffix_cons _ _)
  | case5 t ts =>
      obtain ⟨rfl, rfl⟩ := Prod.mk.inj (Option.some.inj h)
      exact List.suffix_rfl

/-! ## What a read consists of -/

section Cases

variable {fuel : Nat} {ts rest : List Token}

theorem read_cases {t : WrittenType} (h : read fuel ts = some (t, rest)) :
    ∃ n u v behind, fuel = n + 1 ∧ readPrimary n (refWords ts).2 = some (u, behind) ∧
      marks u behind = some (v, rest) ∧ t = if (refWords ts).1 then .byRef v else v := by
  cases fuel with
  | zero => simp [read] at h
  | succ n =>
      simp only [read, Option.bind_eq_bind, Option.bind_eq_some_iff, Option.pure_def] at h
      obtain ⟨⟨u, behind⟩, hprimary, ⟨v, marked⟩, hmarks, heq⟩ := h
      obtain ⟨rfl, rfl⟩ := Prod.mk.inj (Option.some.inj heq)
      exact ⟨n, u, v, behind, rfl, hprimary, hmarks, rfl⟩

theorem readPrimary_cases {t : WrittenType} (h : readPrimary fuel ts = some (t, rest)) :
    ∃ n, fuel = n + 1 ∧
      ((∃ r elements, ts = .mark '(' :: r ∧ readElements n r = some (elements, rest) ∧
          t = .tuple elements) ∨
        ∃ first r, ts = .word first :: r ∧ (readNamed n first r = some (t, rest) ∨
          (t = .keyword "IntPtr" ∧ rest <:+ r) ∨ (t = .inferred ∧ rest = r))) := by
  unfold readPrimary at h
  split at h
  · cases h
  · next n r =>
      obtain ⟨⟨elements, behind⟩, helements, heq⟩ := Option.bind_eq_some_iff.mp h
      obtain ⟨rfl, rfl⟩ := Prod.mk.inj (Option.some.inj heq)
      exact ⟨n, rfl, Or.inl ⟨r, elements, rfl, helements, rfl⟩⟩
  · next n first r =>
      refine ⟨n, rfl, Or.inr ⟨first, r, rfl, ?_⟩⟩
      split at h
      · next behind =>
          split at h
          · obtain ⟨rfl, rfl⟩ := Prod.mk.inj (Option.some.inj h)
            exact Or.inr (Or.inl ⟨rfl, (skipAngles_suffix 0 behind).trans (List.suffix_cons _ _)⟩)
          · exact Or.inl h
      · split at h
        · obtain ⟨rfl, rfl⟩ := Prod.mk.inj (Option.some.inj h)
          exact Or.inr (Or.inr ⟨rfl, rfl⟩)
        · exact Or.inl h
  · cases h

theorem readNamed_cases {first : String} {t : WrittenType} (h : readNamed fuel first ts = some (t, rest)) :
    ∃ n, fuel = n + 1 ∧
      ((∃ name, keywordTypes.lookup first = some name ∧ t = .keyword name ∧ rest = ts) ∨
        ∃ name r segments, ((name = first ∧ r = ts) ∨ ts = .doubleColon :: .word name :: r) ∧
          readSegments n name r = some (segments, rest) ∧ t = .named segments) := by
  unfold readNamed at h
  split at h
  · cases h
  · next n =>
      refine ⟨n, rfl, ?_⟩
      split at h
      · next name hkeyword =>
          obtain ⟨rfl, rfl⟩ := Prod.mk.inj (Option.some.inj h)
          exact Or.inl ⟨name, hkeyword, rfl, rfl⟩
      · next name r _ =>
          obtain ⟨⟨segments, behind⟩, hsegments, heq⟩ := Option.map_eq_some_iff.mp h
          obtain ⟨rfl, rfl⟩ := Prod.mk.inj heq
          exact Or.inr ⟨name, r, segments, Or.inr rfl, hsegments, rfl⟩
      · cases h
      · obtain ⟨⟨segments, behind⟩, hsegments, heq⟩ := Option.map_eq_some_iff.mp h
        obtain ⟨rfl, rfl⟩ := Prod.mk.inj heq
        exact Or.inr ⟨first, _, segments, Or.inl ⟨rfl, rfl⟩, hsegments, rfl⟩

theorem readElements_cases {elements : List WrittenType} (h : readElements fuel ts = some (elements, rest)) :
    ∃ n t behind, fuel = n + 1 ∧ read n ts = some (t, behind) ∧
      ((dropName behind = .mark ')' :: rest ∧ elements = [t]) ∨
        ∃ r more, dropName behind = .mark ',' :: r ∧ readElements n r = some (more, rest) ∧
          elements = t :: more) := by
  cases fuel with
  | zero => simp [readElements] at h
  | succ n =>
      simp only [readElements, Option.bind_eq_bind, Option.bind_eq_some_iff, Option.pure_def] at h
      obtain ⟨⟨t, behind⟩, hread, h⟩ := h
      refine ⟨n, t, behind, rfl, hread, ?_⟩
      split at h
      · next heq =>
          obtain ⟨rfl, rfl⟩ := Prod.mk.inj (Option.some.inj h)
          exact Or.inl ⟨heq, rfl⟩
      · next r heq =>
          obtain ⟨⟨more, rest'⟩, hmore, heq'⟩ := Option.bind_eq_some_iff.mp h
          obtain ⟨rfl, rfl⟩ := Prod.mk.inj (Option.some.inj heq')
          exact Or.inr ⟨r, more, heq, hmore, rfl⟩
      · cases h

theorem readArgs_cases {args : List WrittenType} (h : readArgs fuel ts = some (args, rest)) :
    ∃ n t behind, fuel = n + 1 ∧ read n ts = some (t, behind) ∧
      ((behind = .mark '>' :: rest ∧ args = [t]) ∨
        ∃ r more, behind = .mark ',' :: r ∧ readArgs n r = some (more, rest) ∧ args = t :: more) := by
  cases fuel with
  | zero => simp [readArgs] at h
  | succ n =>
      simp only [readArgs, Option.bind_eq_bind, Option.bind_eq_some_iff, Option.pure_def] at h
      obtain ⟨⟨t, behind⟩, hread, h⟩ := h
      refine ⟨n, t, behind, rfl, hread, ?_⟩
      dsimp only at h
      split at h
      · obtain ⟨rfl, rfl⟩ := Prod.mk.inj (Option.some.inj h)
        exact Or.inl ⟨rfl, rfl⟩
      · next r =>
          obtain ⟨⟨more, rest'⟩, hmore, heq⟩ := Option.bind_eq_some_iff.mp h
          obtain ⟨rfl, rfl⟩ := Prod.mk.inj (Option.some.inj heq)
          exact Or.inr ⟨r, more, rfl, hmore, rfl⟩
      · cases h

theorem readArguments_cases {args : List WrittenType} (h : readArguments fuel ts = some (args, rest)) :
    (args = [] ∧ rest = ts) ∨ ∃ r, ts = .mark '<' :: r ∧ readArgs fuel r = some (args, rest) := by
  unfold readArguments at h
  split at h
  · next r => exact Or.inr ⟨r, rfl, h⟩
  · obtain ⟨rfl, rfl⟩ := Prod.mk.inj (Option.some.inj h)
    exact Or.inl ⟨rfl, rfl⟩

theorem readSegments_cases {name : String} {segments : List (Segment WrittenType)}
    (h : readSegments fuel name ts = some (segments, rest)) :
    ∃ n args behind, fuel = n + 1 ∧ readArguments n ts = some (args, behind) ∧
      ((rest = behind ∧ segments = [⟨name, args⟩]) ∨
        ∃ next r more, behind = .mark '.' :: .word next :: r ∧
          readSegments n next r = some (more, rest) ∧ segments = ⟨name, args⟩ :: more) := by
  cases fuel with
  | zero => simp [readSegments] at h
  | succ n =>
      rw [readSegments_succ] at h
      obtain ⟨⟨args, behind⟩, hargs, h⟩ := Option.bind_eq_some_iff.mp h
      refine ⟨n, args, behind, rfl, hargs, ?_⟩
      unfold readBehind at h
      split at h
      · next next r heq =>
          obtain ⟨rfl, rfl⟩ := Prod.mk.inj heq
          obtain ⟨⟨more, rest'⟩, hmore, heq⟩ := Option.map_eq_some_iff.mp h
          obtain ⟨rfl, rfl⟩ := Prod.mk.inj heq
          exact Or.inr ⟨next, r, more, rfl, hmore, rfl⟩
      · cases h
      · next heq =>
          obtain ⟨rfl, rfl⟩ := Prod.mk.inj heq
          obtain ⟨rfl, rfl⟩ := Prod.mk.inj (Option.some.inj h)
          exact Or.inl ⟨rfl, rfl⟩

end Cases

/-! ## What is taken -/

-- With each call the number falls, but not from a name's arguments to their list.
mutual

theorem length_read {fuel : Nat} {ts rest : List Token} {t : WrittenType}
    (h : read fuel ts = some (t, rest)) : rest.length < ts.length := by
  obtain ⟨n, u, v, behind, rfl, hprimary, hmarks, -⟩ := read_cases h
  have hwords := (refWords_suffix ts).length_le
  have hbehind := length_readPrimary hprimary
  have hrest := (marks_suffix hmarks).length_le
  omega
termination_by 2 * fuel

theorem length_readPrimary {fuel : Nat} {ts rest : List Token} {t : WrittenType}
    (h : readPrimary fuel ts = some (t, rest)) : rest.length < ts.length := by
  obtain ⟨n, rfl, hcases⟩ := readPrimary_cases h
  rcases hcases with ⟨r, elements, rfl, helements, -⟩ |
    ⟨first, r, rfl, hnamed | ⟨-, hskip⟩ | ⟨-, rfl⟩⟩
  · exact Nat.lt_succ_of_lt (length_readElements helements)
  · exact Nat.lt_succ_of_le (length_readNamed hnamed)
  · exact Nat.lt_succ_of_le hskip.length_le
  · exact Nat.lt_succ_self _
termination_by 2 * fuel

theorem length_readNamed {fuel : Nat} {ts rest : List Token} {first : String} {t : WrittenType}
    (h : readNamed fuel first ts = some (t, rest)) : rest.length ≤ ts.length := by
  obtain ⟨n, rfl, hcases⟩ := readNamed_cases h
  rcases hcases with ⟨name, -, -, rfl⟩ | ⟨name, r, segments, hsplit, hsegments, -⟩
  · exact Nat.le_refl _
  · have hrest := length_readSegments hsegments
    rcases hsplit with ⟨-, rfl⟩ | rfl
    · exact hrest
    · simp only [List.length_cons]
      omega
termination_by 2 * fuel

theorem length_readElements {fuel : Nat} {ts rest : List Token} {elements : List WrittenType}
    (h : readElements fuel ts = some (elements, rest)) : rest.length < ts.length := by
  obtain ⟨n, t, behind, rfl, hread, hcases⟩ := readElements_cases h
  have hbehind := length_read hread
  have hdrop := (dropName_suffix behind).length_le
  rcases hcases with ⟨heq, -⟩ | ⟨r, more, heq, hmore, -⟩
  · rw [heq, List.length_cons] at hdrop
    omega
  · have hrest := length_readElements hmore
    rw [heq, List.length_cons] at hdrop
    omega
termination_by 2 * fuel

theorem length_readSegments {fuel : Nat} {ts rest : List Token} {name : String}
    {segments : List (Segment WrittenType)} (h : readSegments fuel name ts = some (segments, rest)) :
    rest.length ≤ ts.length := by
  obtain ⟨n, args, behind, rfl, hargs, hcases⟩ := readSegments_cases h
  have hbehind := length_readArguments hargs
  rcases hcases with ⟨rfl, -⟩ | ⟨next, r, more, rfl, hmore, -⟩
  · exact hbehind
  · have hrest := length_readSegments hmore
    simp only [List.length_cons] at hbehind
    omega
termination_by 2 * fuel

theorem length_readArguments {fuel : Nat} {ts rest : List Token} {args : List WrittenType}
    (h : readArguments fuel ts = some (args, rest)) : rest.length ≤ ts.length := by
  rcases readArguments_cases h with ⟨-, rfl⟩ | ⟨r, rfl, hargs⟩
  · exact Nat.le_refl _
  · exact Nat.le_succ_of_le (Nat.le_of_lt (length_readArgs hargs))
termination_by 2 * fuel + 1

theorem length_readArgs {fuel : Nat} {ts rest : List Token} {args : List WrittenType}
    (h : readArgs fuel ts = some (args, rest)) : rest.length < ts.length := by
  obtain ⟨n, t, behind, rfl, hread, hcases⟩ := readArgs_cases h
  have hbehind := length_read hread
  rcases hcases with ⟨rfl, -⟩ | ⟨r, more, rfl, hmore, -⟩
  · exact Nat.lt_of_succ_lt hbehind
  · have hrest := length_readArgs hmore
    rw [List.length_cons] at hbehind
    omega
termination_by 2 * fuel

end

/-! ## Enough steps -/

-- What was read before is taken from the tokens that are left, and four steps of the bound go with each.
mutual

/-- From four steps for each token on, their number does not matter. -/
theorem read_enough {f g : Nat} {ts : List Token} (hf : 4 * ts.length + 1 ≤ f)
    (hg : 4 * ts.length + 1 ≤ g) : read f ts = read g ts := by
  obtain ⟨f, rfl⟩ : ∃ k, f = k + 1 := ⟨f - 1, by omega⟩
  obtain ⟨g, rfl⟩ : ∃ k, g = k + 1 := ⟨g - 1, by omega⟩
  rw [read, read]
  cases hwords : refWords ts with
  | mk isRef behind =>
      have hlength : behind.length ≤ ts.length := by
        simpa [hwords] using (refWords_suffix ts).length_le
      have hprimary : readPrimary f behind = readPrimary g behind :=
        readPrimary_enough (by omega) (by omega)
      dsimp only
      rw [hprimary]
termination_by 2 * f

theorem readPrimary_enough {f g : Nat} {ts : List Token} (hf : 4 * ts.length ≤ f)
    (hg : 4 * ts.length ≤ g) : readPrimary f ts = readPrimary g ts := by
  have hnone : ∀ {ts}, (∀ r, ts ≠ .mark '(' :: r) → (∀ w r, ts ≠ .word w :: r) →
      ∀ fuel, readPrimary fuel ts = none := by
    intro ts hround hword fuel
    unfold readPrimary
    split
    · rfl
    · exact absurd rfl (hround _)
    · exact absurd rfl (hword _ _)
    · rfl
  cases ts with
  | nil => rw [hnone (by simp) (by simp), hnone (by simp) (by simp)]
  | cons t ts =>
      rw [List.length_cons] at hf hg
      obtain ⟨f, rfl⟩ : ∃ k, f = k + 1 := ⟨f - 1, by omega⟩
      obtain ⟨g, rfl⟩ : ∃ k, g = k + 1 := ⟨g - 1, by omega⟩
      cases t with
      | word first =>
          have hnamed : readNamed f first ts = readNamed g first ts :=
            readNamed_enough (by omega) (by omega)
          rw [readPrimary.eq_def, readPrimary.eq_def]
          dsimp only
          rw [hnamed]
      | mark c =>
          by_cases hc : c = '('
          · subst hc
            have helements : readElements f ts = readElements g ts :=
              readElements_enough (by omega) (by omega)
            rw [readPrimary, readPrimary, helements]
          · rw [hnone (by simp [hc]) (by simp), hnone (by simp [hc]) (by simp)]
      | doubleColon => rw [hnone (by simp) (by simp), hnone (by simp) (by simp)]
termination_by 2 * f

theorem readNamed_enough {f g : Nat} {first : String} {ts : List Token} (hf : 4 * ts.length + 3 ≤ f)
    (hg : 4 * ts.length + 3 ≤ g) : readNamed f first ts = readNamed g first ts := by
  obtain ⟨f, rfl⟩ : ∃ k, f = k + 1 := ⟨f - 1, by omega⟩
  obtain ⟨g, rfl⟩ : ∃ k, g = k + 1 := ⟨g - 1, by omega⟩
  have hsegments : ∀ name r, r.length ≤ ts.length → readSegments f name r = readSegments g name r :=
    fun name r hr => readSegments_enough (by omega) (by omega)
  rw [readNamed.eq_def, readNamed.eq_def]
  dsimp only
  split
  · rfl
  · next name rest _ => rw [hsegments name rest (by simp only [List.length_cons]; omega)]
  · rfl
  · rw [hsegments first _ (Nat.le_refl _)]
termination_by 2 * f

theorem readElements_enough {f g : Nat} {ts : List Token} (hf : 4 * ts.length + 2 ≤ f)
    (hg : 4 * ts.length + 2 ≤ g) : readElements f ts = readElements g ts := by
  obtain ⟨f, rfl⟩ : ∃ k, f = k + 1 := ⟨f - 1, by omega⟩
  obtain ⟨g, rfl⟩ : ∃ k, g = k + 1 := ⟨g - 1, by omega⟩
  have hread : read f ts = read g ts := read_enough (by omega) (by omega)
  rw [readElements, readElements, hread]
  refine Option.bind_congr fun r hr => ?_
  obtain ⟨t, behind⟩ := r
  have hlength := length_read hr
  have hdrop := (dropName_suffix behind).length_le
  dsimp only
  split
  · rfl
  · next rest heq =>
      rw [heq, List.length_cons] at hdrop
      have hmore : readElements f rest = readElements g rest :=
        readElements_enough (by omega) (by omega)
      rw [hmore]
  · rfl
termination_by 2 * f

theorem readSegments_enough {f g : Nat} {name : String} {ts : List Token} (hf : 4 * ts.length + 2 ≤ f)
    (hg : 4 * ts.length + 2 ≤ g) : readSegments f name ts = readSegments g name ts := by
  obtain ⟨f, rfl⟩ : ∃ k, f = k + 1 := ⟨f - 1, by omega⟩
  obtain ⟨g, rfl⟩ : ∃ k, g = k + 1 := ⟨g - 1, by omega⟩
  have hargs : readArguments f ts = readArguments g ts := readArguments_enough (by omega) (by omega)
  rw [readSegments_succ, readSegments_succ, hargs]
  refine Option.bind_congr fun r hr => ?_
  obtain ⟨args, behind⟩ := r
  have hlength := length_readArguments hr
  unfold readBehind
  split
  · next next rest heq =>
      obtain ⟨rfl, rfl⟩ := Prod.mk.inj heq
      simp only [List.length_cons] at hlength
      have hmore : readSegments f next rest = readSegments g next rest :=
        readSegments_enough (by omega) (by omega)
      rw [hmore]
  · rfl
  · rfl
termination_by 2 * f

theorem readArguments_enough {f g : Nat} {ts : List Token} (hf : 4 * ts.length + 1 ≤ f)
    (hg : 4 * ts.length + 1 ≤ g) : readArguments f ts = readArguments g ts := by
  unfold readArguments
  split
  · next rest =>
      rw [List.length_cons] at hf hg
      exact readArgs_enough (by omega) (by omega)
  · rfl
termination_by 2 * f + 1

theorem readArgs_enough {f g : Nat} {ts : List Token} (hf : 4 * ts.length + 2 ≤ f)
    (hg : 4 * ts.length + 2 ≤ g) : readArgs f ts = readArgs g ts := by
  obtain ⟨f, rfl⟩ : ∃ k, f = k + 1 := ⟨f - 1, by omega⟩
  obtain ⟨g, rfl⟩ : ∃ k, g = k + 1 := ⟨g - 1, by omega⟩
  have hread : read f ts = read g ts := read_enough (by omega) (by omega)
  rw [readArgs, readArgs, hread]
  refine Option.bind_congr fun r hr => ?_
  obtain ⟨t, behind⟩ := r
  have hlength := length_read hr
  dsimp only
  split
  · rfl
  · next rest =>
      rw [List.length_cons] at hlength
      have hmore : readArgs f rest = readArgs g rest := readArgs_enough (by omega) (by omega)
      rw [hmore]
  · rfl
termination_by 2 * f

end

end CodeGraph.CSharp.WrittenType
