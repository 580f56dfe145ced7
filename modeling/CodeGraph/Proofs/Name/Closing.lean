import CodeGraph.Proofs.Name.TypeNames

namespace CodeGraph.Name

open CodeGraph.Text

/-!
# Texts that close their brackets

Parameters may be any text in which no bracket is closed that is not open, and all are closed at the end.
None of the passes over a raw name opens or closes a bracket of it, so that the list of parameters is
found again from its end.
-/

/-! ## Brackets -/

/-- The second text closes what the first one closes. -/
def ClosesLike (s out : Chars) : Prop :=
  ∀ depth, Closes depth s → Closes depth out

theorem Closes.joinWith {parts : List Chars} (h : ∀ part ∈ parts, Closes 0 part) :
    Closes 0 (Chars.joinWith [','] parts) := by
  have hcomma : Neutral [','] := .plain (by decide) .nil
  induction parts with
  | nil => exact Neutral.nil.closes
  | cons part parts ih =>
      obtain ⟨hpart, hmore⟩ := List.forall_mem_cons.mp h
      cases parts with
      | nil => exact hpart
      | cons next parts =>
          rw [Chars.joinWith, List.append_assoc]
          exact hpart.append ((hcomma 0 _).mpr (ih hmore))

namespace ClosesLike

variable {a b s out : Chars}

theorem refl (s : Chars) : ClosesLike s s :=
  fun _ => id

/-- The same text may stand before both. -/
theorem prepend (h : ClosesLike s out) (a : Chars) : ClosesLike (a ++ s) (a ++ out) := by
  induction a with
  | nil => exact h
  | cons c a ih => exact fun depth hs => ⟨hs.1, ih _ hs.2⟩

theorem exchange (ha : Neutral a) (hb : Neutral b) (h : ClosesLike s out) :
    ClosesLike (a ++ s) (b ++ out) :=
  fun depth hs => (hb depth out).mpr (h depth ((ha depth s).mp hs))

end ClosesLike

/-! ## Scope markers -/

theorem stripScopes_of_notMem {s : Chars} (h : '[' ∉ s) : stripScopes s = s := by
  have hnone := Chars.cut?_eq_none (beq_of_notMem h)
  rw [stripScopes]
  split
  · rfl
  · next hcut => rw [hnone] at hcut; cases hcut

theorem stripScopes_open {head r : Chars} (hhead : '[' ∉ head) (hr : ']' ∉ r) :
    stripScopes (head ++ '[' :: r) = head ++ '[' :: r := by
  have hcut := Chars.cut?_append (beq_of_notMem hhead) (beq_self_eq_true '[') r
  have hnone := Chars.cut?_eq_none (beq_of_notMem hr)
  rw [stripScopes]
  split
  · rfl
  · next hopen =>
      rw [hcut] at hopen
      cases hopen
      split
      · rfl
      · next hclose => rw [hnone] at hclose; cases hclose

theorem stripScopes_group {head content after : Chars} (hhead : '[' ∉ head) (hcontent : ']' ∉ content) :
    stripScopes (head ++ '[' :: (content ++ ']' :: after)) =
      head ++ ((if isScopeMarker content after then [] else '[' :: content ++ [']']) ++
        stripScopes after) := by
  have hcut := Chars.cut?_append (beq_of_notMem hhead) (beq_self_eq_true '[') (content ++ ']' :: after)
  have hcut' := Chars.cut?_append (beq_of_notMem hcontent) (beq_self_eq_true ']') after
  rw [stripScopes]
  split
  · next hnone => rw [hcut] at hnone; cases hnone
  · next hopen =>
      rw [hcut] at hopen
      cases hopen
      split
      · next hnone => rw [hcut'] at hnone; cases hnone
      · next hclose =>
          rw [hcut'] at hclose
          cases hclose
          exact List.append_assoc _ _ _

theorem notMem_of_cut? {d : Char} {s : Chars} (h : Chars.cut? (· == d) s = none) : d ∉ s := by
  induction s with
  | nil => simp
  | cons c s ih =>
      rw [Chars.cut?] at h
      split at h
      · cases h
      · next hc =>
          have hne : d ≠ c := fun heq => hc (beq_iff_eq.mpr heq.symm)
          exact fun hmem => (List.mem_cons.mp hmem).elim hne (ih (Option.map_eq_none_iff.mp h))

/-- A text has no opening bracket, or a first one, which is closed behind it or not. -/
theorem scopes_induction {P : Chars → Prop} (plain : ∀ s, '[' ∉ s → P s)
    (unclosed : ∀ head r, '[' ∉ head → ']' ∉ r → P (head ++ '[' :: r))
    (group : ∀ head content after, '[' ∉ head → ']' ∉ content → P after →
      P (head ++ '[' :: (content ++ ']' :: after))) (s : Chars) : P s := by
  have hnotMem : ∀ {d : Char} {a : Chars}, (∀ c ∈ a, (c == d) = false) → d ∉ a :=
    fun ha hd => absurd (ha _ hd) (by simp)
  induction hlength : s.length using Nat.strongRecOn generalizing s with
  | _ length ih =>
      cases hopen : Chars.cut? (· == '[') s with
      | none => exact plain s (notMem_of_cut? hopen)
      | some cut =>
          obtain ⟨head, o, r⟩ := cut
          obtain ⟨rfl, ho, hhead⟩ := Chars.cut?_eq_some hopen
          obtain rfl : o = '[' := by simpa using ho
          cases hclose : Chars.cut? (· == ']') r with
          | none => exact unclosed head r (hnotMem hhead) (notMem_of_cut? hclose)
          | some cut =>
              obtain ⟨content, c, after⟩ := cut
              obtain ⟨rfl, hc, hcontent⟩ := Chars.cut?_eq_some hclose
              obtain rfl : c = ']' := by simpa using hc
              refine group head content after (hnotMem hhead) (hnotMem hcontent) (ih _ ?_ after rfl)
              simp only [List.length_append, List.length_cons] at hlength
              omega

theorem closesLike_stripScopes (s : Chars) : ClosesLike s (stripScopes s) := by
  induction s using scopes_induction with
  | plain s h =>
      rw [stripScopes_of_notMem h]
      exact .refl s
  | unclosed head r hhead hr =>
      rw [stripScopes_open hhead hr]
      exact .refl _
  | group head content after hhead hcontent ih =>
      have hsplit : head ++ '[' :: (content ++ ']' :: after) =
          head ++ ('[' :: (content ++ [']']) ++ after) := by simp
      rw [stripScopes_group hhead hcontent, hsplit]
      refine .prepend ?_ head
      split
      · next hmarker =>
          have hplain : ∀ c ∈ content, IsPlain c := by
            simp only [isScopeMarker, Bool.and_eq_true, List.all_eq_true] at hmarker
            exact fun c hc => isPlain_of (by decide) (hmarker.1.2 c hc)
          exact .exchange (.bracketed (by decide) (Nested.of_plain hplain).neutral) .nil ih
      · exact ih.prepend _

/-- The bracket at the end of a parameter list ends no scope marker, and no name goes on with it. -/
theorem stripScopes_concat (s : Chars) : stripScopes (s ++ [')']) = stripScopes s ++ [')'] := by
  have hround : ∀ {d : Char} {a : Chars}, d ∉ a → d ≠ ')' → d ∉ a ++ [')'] :=
    fun ha hd => List.not_mem_append ha (by simpa using hd)
  induction s using scopes_induction with
  | plain s h => rw [stripScopes_of_notMem h, stripScopes_of_notMem (hround h (by decide))]
  | unclosed head r hhead hr =>
      rw [stripScopes_open hhead hr, List.append_assoc, List.cons_append,
        stripScopes_open hhead (hround hr (by decide))]
  | group head content after hhead hcontent ih =>
      have hmarker : isScopeMarker content (after ++ [')']) = isScopeMarker content after := by
        cases after with
        | nil => simp [isScopeMarker, show isAlphabetic ')' = false by decide]
        | cons c after => rfl
      have hsplit : head ++ '[' :: (content ++ ']' :: after) ++ [')'] =
          head ++ '[' :: (content ++ ']' :: (after ++ [')'])) := by simp
      rw [hsplit, stripScopes_group hhead hcontent, stripScopes_group hhead hcontent, hmarker, ih]
      simp

theorem stripScopes_cons {c : Char} (hc : c ≠ '[') (s : Chars) :
    stripScopes (c :: s) = c :: stripScopes s := by
  have hcons : ∀ {head : Chars}, '[' ∉ head → '[' ∉ c :: head :=
    fun hhead hmem => (List.mem_cons.mp hmem).elim hc.symm hhead
  induction s using scopes_induction with
  | plain s h => rw [stripScopes_of_notMem h, stripScopes_of_notMem (hcons h)]
  | unclosed head r hhead hr =>
      rw [stripScopes_open hhead hr, ← List.cons_append, stripScopes_open (hcons hhead) hr, List.cons_append]
  | group head content after hhead hcontent ih =>
      rw [stripScopes_group hhead hcontent, ← List.cons_append, stripScopes_group (hcons hhead) hcontent,
        List.cons_append]

/-- The ranks of arrays are no scope markers. -/
theorem Nested.stripScopes_append {a : Chars} (h : Nested a) (s : Chars) :
    stripScopes (a ++ s) = a ++ stripScopes s := by
  induction h generalizing s with
  | nil => rfl
  | plain hc _ ih => rw [List.cons_append, stripScopes_cons (hc.ne (by decide)), ih, List.cons_append]
  | @group o c a r hp _ _ iha ihr =>
      cases hp with
      | angle =>
          rw [List.cons_append, List.append_assoc, List.cons_append, stripScopes_cons (by decide), iha,
            stripScopes_cons (by decide), ihr, List.cons_append, List.append_assoc, List.cons_append]
      | rank k =>
          have hmarker : isScopeMarker (List.replicate k ',') (r ++ s) = false := by
            cases k with
            | zero => rfl
            | succ k => simp [isScopeMarker, List.replicate_succ, show isScopeChar ',' = false by decide]
          have hhead : '[' ∉ ([] : Chars) := by simp
          have hcommas : ']' ∉ List.replicate k ',' := by simp
          have hgroup := @stripScopes_group [] (List.replicate k ',') (r ++ s) hhead hcommas
          rw [hmarker, ihr] at hgroup
          simpa using hgroup

/-! ## Separators and arities -/

theorem closesLike_replace {a : Char} {pat new : Chars}
    (hpat : (a :: pat).all (fun c => decide (IsPlain c)) = true)
    (hnew : new.all (fun c => decide (IsPlain c)) = true) (s : Chars) :
    ClosesLike s (Chars.replace (a :: pat) new s) := by
  refine Chars.replace_induction (P := ClosesLike) (.refl []) ?_ ?_ s
  · exact fun r ih => .exchange (Nested.of_all hpat).neutral (Nested.of_all hnew).neutral ih
  · exact fun c r _ ih => ih.prepend [c]

theorem closesLike_map_dotted (s : Chars) : ClosesLike s (s.map dotted) := by
  have hdotted : ∀ depth c, depthAfter depth (dotted c) = depthAfter depth c := by
    intro depth c
    unfold dotted
    split
    · next hc => rcases hc with rfl | rfl <;> simp [depthAfter, isOpening, isClosing]
    · rfl
  induction s with
  | nil => exact .refl []
  | cons c s ih => exact fun depth hs => ⟨hs.1, hdotted depth c ▸ ih _ hs.2⟩

theorem closesLike_collapseArity (s : Chars) : ClosesLike s (collapseArity s) := by
  induction s using arity_induction with
  | nil =>
      rw [collapseArity]
      exact .refl []
  | cons c r hc ih =>
      rw [collapseArity_cons hc]
      exact ih.prepend [c]
  | ticks r ih =>
      have harity : Neutral ((tick :: r.takeWhile (· == tick)) ++
          (r.dropWhile (· == tick)).takeWhile Char.isDigit) := by
        refine Nested.neutral (.of_plain fun c hc => ?_)
        rw [List.mem_append, List.mem_cons] at hc
        rcases hc with (rfl | hc) | hc
        · decide
        · obtain rfl : c = tick := by simpa using List.mem_takeWhile_imp hc
          decide
        · exact isPlain_of_isDigit (List.mem_takeWhile_imp hc)
      rw [collapseArity_tick]
      conv => arg 1; rw [tick_append, ← List.append_assoc]
      refine .exchange harity ?_ ih
      rcases renderArity_eq (tick :: r.takeWhile (· == tick))
        ((r.dropWhile (· == tick)).takeWhile Char.isDigit) (arityRest r) with ⟨heq, -⟩ | ⟨n, heq⟩ | heq
      · rw [heq]
        exact .nil
      · rw [heq]
        exact (nested_arityArguments n).neutral
      · rw [heq]
        exact harity

/-! ## Parameter lists -/

/-- The pass changes nothing but the parameters behind the head, and they still close their brackets. -/
def KeepsHead (head : Chars) (pass : Chars → Chars) : Prop :=
  ∀ params, Closes 0 params → ∃ params', Closes 0 params' ∧
    pass (head ++ '(' :: (params ++ [')'])) = head ++ '(' :: (params' ++ [')'])

namespace KeepsHead

variable {head : Chars}

theorem comp {f g : Chars → Chars} (hg : KeepsHead head g) (hf : KeepsHead head f) :
    KeepsHead head (g ∘ f) := by
  intro params hparams
  obtain ⟨params', hparams', hf⟩ := hf params hparams
  obtain ⟨params'', hparams'', hg⟩ := hg params' hparams'
  exact ⟨params'', hparams'', (congrArg g hf).trans hg⟩

theorem stripScopes (h : Nested head) : KeepsHead head stripScopes := by
  intro params hparams
  refine ⟨Name.stripScopes params, closesLike_stripScopes params 0 hparams, ?_⟩
  rw [h.stripScopes_append, stripScopes_cons (by decide), stripScopes_concat]

theorem replace {a : Char} {pat new : Chars}
    (hpat : (a :: pat).all (fun c => decide (IsPlain c)) = true)
    (hnew : new.all (fun c => decide (IsPlain c)) = true) (h : a ∉ head) :
    KeepsHead head (Chars.replace (a :: pat) new) := by
  have hround : ∀ {d : Char}, ¬ IsPlain d → d ∉ a :: pat := fun hd hmem =>
    hd (of_decide_eq_true (List.all_eq_true.mp hpat _ hmem))
  intro params hparams
  refine ⟨_, closesLike_replace hpat hnew params 0 hparams, ?_⟩
  rw [Chars.replace_cut (hround (by decide)), Chars.replace_cut (hround (by decide)),
    Chars.replace_eq_self (s := head) _ fun hin => h (hin.subset List.mem_cons_self)]
  rfl

theorem map_dotted (h : '/' ∉ head ∧ '+' ∉ head) : KeepsHead head (List.map dotted) := by
  have hhead : head.map dotted = head := by
    refine (List.map_congr_left fun c hc => ?_).trans (List.map_id head)
    have hslash : c ≠ '/' := fun heq => h.1 (heq ▸ hc)
    have hplus : c ≠ '+' := fun heq => h.2 (heq ▸ hc)
    simp [dotted, hslash, hplus]
  intro params hparams
  refine ⟨_, closesLike_map_dotted params 0 hparams, ?_⟩
  rw [List.map_append, List.map_cons, List.map_append, hhead]
  rfl

theorem markCtor (hne : head ≠ []) (h : '.' ∉ head) : KeepsHead head markCtor := by
  intro params hparams
  refine ⟨params, hparams, ?_⟩
  rcases markCtor_cases (head ++ '(' :: (params ++ [')'])) with heq | ⟨r, hr, -⟩
  · exact heq
  · obtain ⟨c, head, rfl⟩ := List.exists_cons_of_ne_nil hne
    exact absurd ((List.cons.inj hr).1 ▸ List.mem_cons_self) h

theorem collapseArity (h : tick ∉ head) : KeepsHead head collapseArity := by
  intro params hparams
  refine ⟨_, closesLike_collapseArity params 0 hparams, ?_⟩
  rw [collapseArity_append_of_notMem h, collapseArity_cons (by decide),
    collapseArity_concat (by decide) (by decide)]

theorem trim (hne : head ≠ []) (h : Chars.IsTrimmed head) : KeepsHead head Chars.trim := by
  intro params hparams
  refine ⟨params, hparams, Chars.trim_eq_self ⟨?_, ?_⟩⟩
  · intro c hc
    rw [List.head?_append_of_ne_nil _ hne] at hc
    exact h.1 c hc
  · intro c hc
    obtain rfl : ')' = c := by simpa [List.getLast?_append, List.getLast?_cons] using hc
    decide

/-- No pass before that of the parameters changes a head without separators and arities. -/
theorem settle (hne : head ≠ []) (h : IsQuiet head) (htick : tick ∉ head) : KeepsHead head settle := by
  have hdot : '.' ∉ head := h.notMem (by decide)
  have hseparators : KeepsHead head normalizeSeparators :=
    (markCtor hne hdot).comp <|
      (replace (by decide) (by decide) hdot).comp <| (replace (by decide) (by decide) hdot).comp <|
        (map_dotted ⟨h.notMem (by decide), h.notMem (by decide)⟩).comp <|
          replace (by decide) (by decide) (h.notMem (by decide))
  exact (collapseArity htick).comp (hseparators.comp ((stripScopes h.nested).comp (trim hne h.trimmed)))

end KeepsHead

end CodeGraph.Name
