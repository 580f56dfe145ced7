import CodeGraph.Proofs.Name.Simple

namespace CodeGraph.Name

open CodeGraph.Text

/-!
# The passes before the parameters

Scope markers, separators and arities are settled first. The last of these passes looks at a text piece
by piece: it may be cut at every character that is neither a tick nor a digit.
-/

/-- A name behind the passes that do not look at its parameters. -/
def settle (raw : Chars) : Chars :=
  collapseArity (normalizeSeparators (stripScopes (Chars.trim raw)))

/-! ## Arities -/

theorem collapseArity_cons {c : Char} (hc : c ≠ tick) (r : Chars) :
    collapseArity (c :: r) = c :: collapseArity r := by
  rw [collapseArity, if_neg hc]

/-- The ticks and digits at the beginning of a text, and what follows them. -/
def arityRest (r : Chars) : Chars :=
  (r.dropWhile (· == tick)).dropWhile Char.isDigit

theorem collapseArity_tick (r : Chars) :
    collapseArity (tick :: r) =
      renderArity (tick :: r.takeWhile (· == tick)) ((r.dropWhile (· == tick)).takeWhile Char.isDigit)
        (arityRest r) ++ collapseArity (arityRest r) := by
  rw [collapseArity, if_pos rfl]
  rfl

theorem tick_append (r : Chars) :
    tick :: r = (tick :: r.takeWhile (· == tick)) ++
      ((r.dropWhile (· == tick)).takeWhile Char.isDigit ++ arityRest r) := by
  rw [arityRest, List.takeWhile_append_dropWhile, List.cons_append, List.takeWhile_append_dropWhile]

theorem length_arityRest_le (r : Chars) : (arityRest r).length ≤ r.length :=
  Nat.le_trans (List.dropWhile_suffix _).length_le (List.dropWhile_suffix _).length_le

/-- Arities are read to their end, and so from left to right. -/
theorem arity_induction {P : Chars → Prop} (nil : P []) (cons : ∀ c r, c ≠ tick → P r → P (c :: r))
    (ticks : ∀ r, P (arityRest r) → P (tick :: r)) (s : Chars) : P s := by
  induction hlength : s.length using Nat.strongRecOn generalizing s with
  | _ length ih =>
      cases s with
      | nil => exact nil
      | cons c r =>
          by_cases hc : c = tick
          · subst hc
            refine ticks r (ih _ ?_ _ rfl)
            have := length_arityRest_le r
            simp only [List.length_cons] at hlength
            omega
          · refine cons c r hc (ih _ ?_ _ rfl)
            simp only [List.length_cons] at hlength
            omega

/-- The character belongs to no arity. -/
def EndsArity (d : Char) : Prop :=
  d ≠ tick ∧ d.isDigit = false

instance (d : Char) : Decidable (EndsArity d) :=
  inferInstanceAs (Decidable (_ ∧ _))

theorem takeWhile_cut {p : Char → Bool} {d : Char} (hd : p d = false) (a b : Chars) :
    (a ++ d :: b).takeWhile p = a.takeWhile p ∧ (a ++ d :: b).dropWhile p = a.dropWhile p ++ d :: b := by
  induction a with
  | nil => simp [hd]
  | cons c a ih => by_cases hc : p c = true <;> simp [hc, ih]

theorem arity_cut {d : Char} (hd : EndsArity d) (a b : Chars) :
    (a ++ d :: b).takeWhile (· == tick) = a.takeWhile (· == tick) ∧
      ((a ++ d :: b).dropWhile (· == tick)).takeWhile Char.isDigit =
        (a.dropWhile (· == tick)).takeWhile Char.isDigit ∧
      arityRest (a ++ d :: b) = arityRest a ++ d :: b := by
  obtain ⟨htake, hdrop⟩ := takeWhile_cut (p := (· == tick)) (by simpa using hd.1) a b
  obtain ⟨htake', hdrop'⟩ := takeWhile_cut hd.2 (a.dropWhile (· == tick)) b
  exact ⟨htake, by rw [hdrop, htake'], by rw [arityRest, hdrop, hdrop', arityRest]⟩

theorem collapseArity_append {d : Char} (hd : EndsArity d) (a b : Chars) :
    collapseArity (a ++ d :: b) = collapseArity (a ++ [d]) ++ collapseArity b := by
  induction a using arity_induction with
  | nil => rw [List.nil_append, List.nil_append, collapseArity_cons hd.1, collapseArity_cons hd.1,
      collapseArity, List.cons_append, List.nil_append]
  | cons c a hc ih =>
      rw [List.cons_append, List.cons_append, collapseArity_cons hc, collapseArity_cons hc, ih,
        List.cons_append]
  | ticks a ih =>
      obtain ⟨hticks, hdigits, hrest⟩ := arity_cut hd a b
      obtain ⟨hticks', hdigits', hrest'⟩ := arity_cut hd a []
      have hhead : (arityRest a ++ d :: b).head? = (arityRest a ++ [d]).head? := by
        cases arityRest a <;> rfl
      rw [List.cons_append, List.cons_append, collapseArity_tick, collapseArity_tick, hticks, hticks',
        hdigits, hdigits', hrest, hrest', ih, List.append_assoc]
      simp only [renderArity, hhead]

theorem collapseArity_concat {d : Char} (hd : EndsArity d) (hangle : d ≠ '<') (a : Chars) :
    collapseArity (a ++ [d]) = collapseArity a ++ [d] := by
  induction a using arity_induction with
  | nil => rw [List.nil_append, collapseArity_cons hd.1, collapseArity, List.nil_append]
  | cons c a hc ih =>
      rw [List.cons_append, collapseArity_cons hc, collapseArity_cons hc, ih, List.cons_append]
  | ticks a ih =>
      obtain ⟨hticks, hdigits, hrest⟩ := arity_cut hd a []
      have hhead : (arityRest a ++ [d]).head? = some '<' ↔ (arityRest a).head? = some '<' := by
        cases arityRest a <;> simp [hangle]
      rw [List.cons_append, collapseArity_tick, collapseArity_tick, hticks, hdigits, hrest, ih,
        List.append_assoc]
      simp only [renderArity, hhead]

theorem renderArity_eq (ticks digits after : Chars) :
    renderArity ticks digits after = [] ∧ after.head? = some '<' ∨
      (∃ n, renderArity ticks digits after = arityArguments n) ∨
      renderArity ticks digits after = ticks ++ digits := by
  unfold renderArity
  dsimp only
  split
  · next hdrop => exact Or.inl ⟨rfl, hdrop.2.2⟩
  · split
    · exact Or.inr (Or.inl ⟨_, rfl⟩)
    · exact Or.inr (Or.inr rfl)

theorem mem_arityArguments {n : Nat} {c : Char} (h : c ∈ arityArguments n) :
    c ∈ ['<', 'T', ',', '>'] := by
  simp only [arityArguments, List.cons_append, List.mem_cons, List.mem_append, List.not_mem_nil,
    or_false] at h
  rcases h with rfl | h | rfl
  · decide
  · rcases Chars.mem_joinWith h with h | ⟨part, hpart, h⟩
    · obtain rfl := List.mem_singleton.mp h
      decide
    · rw [List.eq_of_mem_replicate hpart] at h
      obtain rfl := List.mem_singleton.mp h
      decide
  · decide

/-- An arity that is rendered otherwise loses its tick. -/
theorem renderArity_cases (ticks digits after : Chars) :
    renderArity ticks digits after = ticks ++ digits ∨ tick ∉ renderArity ticks digits after := by
  rcases renderArity_eq ticks digits after with ⟨h, -⟩ | ⟨n, h⟩ | h
  · exact Or.inr (by simp [h])
  · rw [h]
    exact Or.inr fun hmem => absurd (mem_arityArguments hmem) (by decide)
  · exact Or.inl h

theorem count_collapseArity (s : Chars) :
    (collapseArity s).count tick ≤ s.count tick ∧
      ((collapseArity s).count tick = s.count tick → collapseArity s = s) := by
  induction s using arity_induction with
  | nil => simp [collapseArity]
  | cons c r hc ih =>
      rw [collapseArity_cons hc, List.count_cons_of_ne hc, List.count_cons_of_ne hc]
      exact ⟨ih.1, fun h => by rw [ih.2 h]⟩
  | ticks r ih =>
      obtain ⟨hle, heq⟩ := ih
      have hsum := congrArg (List.count tick) (tick_append r)
      rw [List.count_append, List.count_append] at hsum
      have hpos : 0 < (tick :: r.takeWhile (· == tick)).count tick := by simp
      rw [collapseArity_tick, List.count_append]
      rcases renderArity_cases (tick :: r.takeWhile (· == tick))
        ((r.dropWhile (· == tick)).takeWhile Char.isDigit) (arityRest r) with h | h
      · rw [h, List.count_append]
        refine ⟨by omega, fun hcount => ?_⟩
        rw [heq (by omega), List.append_assoc, ← tick_append]
      · rw [List.count_eq_zero.mpr h]
        exact ⟨by omega, fun hcount => by omega⟩

/-- No arity is left to be written out or dropped. -/
def Rendered (s : Chars) : Prop :=
  collapseArity s = s

theorem rendered_append_iff {d : Char} (hd : EndsArity d) {a b : Chars} :
    Rendered (a ++ d :: b) ↔ Rendered (a ++ [d]) ∧ Rendered b := by
  unfold Rendered
  rw [collapseArity_append hd]
  constructor
  · intro h
    have hcount := congrArg (List.count tick) h
    have hsplit : a ++ d :: b = (a ++ [d]) ++ b := by simp
    rw [hsplit, List.count_append, List.count_append] at hcount
    have hleft := count_collapseArity (a ++ [d])
    have hright := count_collapseArity b
    exact ⟨hleft.2 (by omega), hright.2 (by omega)⟩
  · rintro ⟨ha, hb⟩
    rw [ha, hb]
    simp

theorem rendered_concat_iff {d : Char} (hd : EndsArity d) (hangle : d ≠ '<') {a : Chars} :
    Rendered (a ++ [d]) ↔ Rendered a := by
  unfold Rendered
  rw [collapseArity_concat hd hangle]
  simp

/-! ## Scope markers -/

/-- Square brackets hold nothing, or begin with a comma. -/
def RanksOnly (s : Chars) : Prop :=
  ∀ x y, s = x ++ '[' :: y → y.head? = some ',' ∨ y.head? = some ']'

theorem ranksOnly_nil : RanksOnly [] := by
  intro x y hxy
  simp at hxy

theorem ranksOnly_cons_iff {c : Char} {r : Chars} :
    RanksOnly (c :: r) ↔ (c = '[' → r.head? = some ',' ∨ r.head? = some ']') ∧ RanksOnly r := by
  constructor
  · intro h
    refine ⟨?_, fun x y hxy => h (c :: x) y (by simp [hxy])⟩
    rintro rfl
    exact h [] r rfl
  · rintro ⟨hc, hr⟩ x y hxy
    rcases List.cons_eq_append_iff.mp hxy with ⟨rfl, hy⟩ | ⟨x, rfl, hx⟩
    · obtain ⟨rfl, rfl⟩ := List.cons.inj hy
      exact hc rfl
    · exact hr x y hx

instance decidableRanksOnly : (s : Chars) → Decidable (RanksOnly s)
  | [] => isTrue ranksOnly_nil
  | _ :: r =>
    have := decidableRanksOnly r
    decidable_of_iff _ ranksOnly_cons_iff.symm

theorem ranksOnly_of_notMem {s : Chars} (h : '[' ∉ s) : RanksOnly s := by
  rintro x y rfl
  exact absurd (by simp) h

theorem RanksOnly.append {a b : Chars} (ha : RanksOnly a) (hb : RanksOnly b) : RanksOnly (a ++ b) := by
  intro x y hxy
  rcases List.append_eq_append_iff.mp hxy with ⟨z, rfl, hz⟩ | ⟨z, rfl, hz⟩
  · exact hb z y hz
  · rcases List.cons_eq_append_iff.mp hz with ⟨rfl, hb'⟩ | ⟨w, rfl, rfl⟩
    · exact hb [] y (by simpa using hb')
    · rcases ha x w rfl with h | h
      · exact Or.inl (by rw [List.head?_append, h]; rfl)
      · exact Or.inr (by rw [List.head?_append, h]; rfl)

theorem RanksOnly.right {a b : Chars} (h : RanksOnly (a ++ b)) : RanksOnly b :=
  fun x y hxy => h (a ++ x) y (by simp [hxy])

theorem RanksOnly.left {a b : Chars} {d : Char} (h : RanksOnly (a ++ d :: b)) (hcomma : d ≠ ',')
    (hclosing : d ≠ ']') : RanksOnly a := by
  intro x y hxy
  have hhead := h x (y ++ d :: b) (by simp [hxy])
  cases y with
  | nil => simp [hcomma, hclosing] at hhead
  | cons c y => simpa using hhead

/-- The verb of an accessor may be left out. -/
theorem RanksOnly.dropVerb {pre verb x : Chars} (h : RanksOnly (pre ++ (verb ++ '_' :: x)))
    (hpre : ∀ d, pre.getLast? = some d → d ≠ ',' ∧ d ≠ ']' ∧ d ≠ '[') : RanksOnly (pre ++ x) := by
  have hx : RanksOnly x := RanksOnly.right (a := pre ++ (verb ++ ['_'])) (by simpa using h)
  rcases List.eq_nil_or_concat pre with rfl | ⟨y, d, rfl⟩
  · exact hx
  · obtain ⟨hcomma, hclosing, hopening⟩ := hpre d (by simp)
    have hy : RanksOnly y :=
      RanksOnly.left (b := verb ++ '_' :: x) (by simpa using h) hcomma hclosing
    have hd : RanksOnly [d] := ranksOnly_of_notMem (by simpa using hopening.symm)
    simpa using (hy.append hd).append hx

theorem Nested.ranksOnly {s : Chars} (h : Nested s) : RanksOnly s := by
  induction h with
  | nil => exact ranksOnly_nil
  | plain hc _ ih => exact ranksOnly_cons_iff.mpr ⟨fun hopen => absurd hopen (hc.ne (by decide)), ih⟩
  | @group o c a r hp _ _ iha ihr =>
      have hclosing : RanksOnly [c] := by cases hp <;> decide
      have hrest : RanksOnly (a ++ ([c] ++ r)) := iha.append (hclosing.append ihr)
      refine ranksOnly_cons_iff.mpr ⟨?_, by simpa using hrest⟩
      rintro rfl
      cases hp with
      | rank k =>
          cases k with
          | zero => exact Or.inr rfl
          | succ k => exact Or.inl rfl

theorem stripScopes_eq_self {s : Chars} (h : RanksOnly s) : stripScopes s = s := by
  induction hlength : s.length using Nat.strongRecOn generalizing s with
  | _ length ih =>
      rw [stripScopes]
      split
      · rfl
      · next head d afterOpen hopen =>
          split
          · rfl
          · next content e after hclose =>
              obtain ⟨rfl, hd, -⟩ := Chars.cut?_eq_some hopen
              obtain ⟨rfl, he, -⟩ := Chars.cut?_eq_some hclose
              obtain rfl : d = '[' := by simpa using hd
              obtain rfl : e = ']' := by simpa using he
              have hmarker : isScopeMarker content after = false := by
                rcases h head (content ++ ']' :: after) rfl with hhead | hhead
                · cases content with
                  | nil => simp [isScopeMarker]
                  | cons c content =>
                      obtain rfl := Option.some.inj hhead
                      have hcomma : isScopeChar ',' = false := by decide
                      simp [isScopeMarker, hcomma]
                · cases content with
                  | nil => simp [isScopeMarker]
                  | cons c content =>
                      obtain rfl := Option.some.inj hhead
                      have hbracket : isScopeChar ']' = false := by decide
                      simp [isScopeMarker, hbracket]
              have hafter : RanksOnly after := by
                have hsplit : head ++ '[' :: (content ++ ']' :: after) =
                    (head ++ '[' :: (content ++ [']'])) ++ after := by simp
                rw [hsplit] at h
                exact h.right
              rw [hmarker, ih after.length ?_ hafter rfl]
              · simp
              · simp only [List.length_append, List.length_cons] at hlength
                omega

/-! ## Separators -/

theorem normalizeSeparators_eq_self {s : Chars} (hcolons : ¬ [':', ':'] <:+: s)
    (hslashes : '/' ∉ s ∧ '+' ∉ s) (hdots : Segmented s) (hhead : s.head? ≠ some '.') :
    normalizeSeparators s = s := by
  have hmap : (s.map fun c => if c = '/' ∨ c = '+' then '.' else c) = s := by
    refine (List.map_congr_left fun c hc => ?_).trans (List.map_id s)
    have hslash : c ≠ '/' := fun heq => hslashes.1 (heq ▸ hc)
    have hplus : c ≠ '+' := fun heq => hslashes.2 (heq ▸ hc)
    simp [hslash, hplus]
  have hpair : ¬ ['.', '.'] <:+: s := by
    intro h
    have hchain := hdots.part h
    simp [Segmented] at hchain
  have hctor : ¬ ['.', '.', 'c', 't', 'o', 'r'] <:+: s :=
    fun h => hpair (List.IsInfix.trans ⟨[], ['c', 't', 'o', 'r'], rfl⟩ h)
  have hcctor : ¬ ['.', '.', 'c', 'c', 't', 'o', 'r'] <:+: s :=
    fun h => hpair (List.IsInfix.trans ⟨[], ['c', 'c', 't', 'o', 'r'], rfl⟩ h)
  unfold normalizeSeparators
  simp only [Chars.replace_eq_self _ hcolons, hmap, Chars.replace_eq_self _ hcctor,
    Chars.replace_eq_self _ hctor]
  split
  · exact absurd rfl hhead
  · rfl

end CodeGraph.Name
