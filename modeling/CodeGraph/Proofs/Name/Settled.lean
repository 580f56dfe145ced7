import CodeGraph.Proofs.Name.Passes

namespace CodeGraph.Name

open CodeGraph.Text

/-!
# What is settled for every name

Whatever the raw name, behind the first passes no separator of metadata is left in it, and no blank
stands at its ends.
-/

/-- No two colons stand side by side. -/
def ColonsApart (s : Chars) : Prop :=
  s.IsChain fun a b => ¬ (a = ':' ∧ b = ':')

/-- The ends of a text are those of another one, or no blanks. -/
structure EndsFrom (s out : Chars) : Prop where
  head : ∀ c, out.head? = some c → isBlank c = false ∨ s.head? = some c
  last : ∀ c, out.getLast? = some c → isBlank c = false ∨ s.getLast? = some c
  nil : out = [] → s = []

namespace EndsFrom

variable {s t u : Chars}

theorem refl (s : Chars) : EndsFrom s s :=
  ⟨fun _ => Or.inr, fun _ => Or.inr, id⟩

theorem trans (h : EndsFrom s t) (h' : EndsFrom t u) : EndsFrom s u :=
  ⟨fun c hc => (h'.head c hc).elim Or.inl (h.head c), fun c hc => (h'.last c hc).elim Or.inl (h.last c),
    fun hu => h.nil (h'.nil hu)⟩

theorem isTrimmed (h : EndsFrom s t) (hs : Chars.IsTrimmed s) : Chars.IsTrimmed t :=
  ⟨fun c hc => (h.head c hc).elim id (hs.1 c), fun c hc => (h.last c hc).elim id (hs.2 c)⟩

/-- The same text may stand before both. -/
theorem prepend (h : EndsFrom s t) (p : Chars) : EndsFrom (p ++ s) (p ++ t) := by
  refine ⟨?_, ?_, ?_⟩
  · intro c hc
    cases p with
    | nil => exact h.head c hc
    | cons d p => exact Or.inr hc
  · intro c hc
    by_cases ht : t = []
    · subst ht
      rw [h.nil rfl]
      exact Or.inr hc
    · rw [List.getLast?_append_of_ne_nil _ ht] at hc
      refine (h.last c hc).imp_right fun hlast => ?_
      rw [List.getLast?_append, hlast]
      rfl
  · intro hout
    obtain ⟨rfl, rfl⟩ := List.append_eq_nil_iff.mp hout
    simp [h.nil rfl]

/-- A text without blanks at its ends may stand in the place of another one. -/
theorem exchange {a b : Chars} (hne : b ≠ []) (hb : Chars.IsTrimmed b) (s : Chars) :
    EndsFrom (a ++ s) (b ++ s) := by
  refine ⟨?_, ?_, fun h => absurd (List.append_eq_nil_iff.mp h).1 hne⟩
  · intro c hc
    rw [List.head?_append_of_ne_nil _ hne] at hc
    exact Or.inl (hb.1 c hc)
  · intro c hc
    by_cases hs : s = []
    · subst hs
      exact Or.inl (hb.2 c (by simpa using hc))
    · rw [List.getLast?_append_of_ne_nil _ hs] at hc ⊢
      exact Or.inr hc

/-- A text before what begins with no blank may be dropped. -/
theorem drop {a : Chars} {d : Char} (hs : s.head? = some d) (hd : isBlank d = false) :
    EndsFrom (a ++ s) s := by
  have hne : s ≠ [] := by
    rintro rfl
    cases hs
  refine ⟨?_, ?_, fun h => absurd h hne⟩
  · intro c hc
    obtain rfl := Option.some.inj (hs.symm.trans hc)
    exact Or.inl hd
  · intro c hc
    rw [List.getLast?_append_of_ne_nil _ hne]
    exact Or.inr hc

end EndsFrom

theorem colonsApart_of_notMem {s : Chars} (h : ':' ∉ s) : ColonsApart s := by
  induction s with
  | nil => simp [ColonsApart]
  | cons c s ih =>
      obtain ⟨hc, hs⟩ := not_or.mp (fun hmem => h (List.mem_cons.mpr hmem))
      refine List.isChain_cons.mpr ⟨fun d _ hd => hc hd.1.symm, ih hs⟩

theorem ColonsApart.append {a b : Chars} (ha : ':' ∉ a) (hb : ColonsApart b) : ColonsApart (a ++ b) := by
  refine List.isChain_append.mpr ⟨colonsApart_of_notMem ha, hb, ?_⟩
  rintro x hx y - ⟨rfl, -⟩
  exact ha (List.mem_of_getLast? hx)

/-! ## Replacement -/

theorem colonsApart_replace {a : Char} {pat new s : Chars} (hnew : ':' ∉ new) (hne : new ≠ [])
    (h : ∀ r, ':' :: ':' :: r <:+ s → (Chars.dropPrefix? (a :: pat) (':' :: ':' :: r)).isSome) :
    ColonsApart (Chars.replace (a :: pat) new s) := by
  refine Chars.replace_induction
    (P := fun s out =>
      (∀ r, ':' :: ':' :: r <:+ s → (Chars.dropPrefix? (a :: pat) (':' :: ':' :: r)).isSome) →
        ColonsApart out) ?_ ?_ ?_ s h
  · exact fun _ => List.isChain_nil
  · intro r ih h
    exact .append hnew (ih fun t ht => h t (ht.trans (List.suffix_append _ _)))
  · intro c r hdrop ih h
    refine List.isChain_cons.mpr ⟨?_, ih fun t ht => h t (ht.trans (List.suffix_cons c r))⟩
    rintro d hd ⟨rfl, rfl⟩
    rcases (Chars.replace_ends hne r).1 _ hd with hmem | hhead
    · exact hnew hmem
    · cases r with
      | nil => simp at hhead
      | cons e r =>
          obtain rfl := Option.some.inj hhead
          have hsome := h r List.suffix_rfl
          rw [hdrop] at hsome
          cases hsome

theorem ColonsApart.part {s t : Chars} (h : ColonsApart s) (hin : t <:+: s) : ColonsApart t :=
  List.IsChain.infix h hin

theorem ColonsApart.not_suffix {s r : Chars} (h : ColonsApart s) : ¬ ':' :: ':' :: r <:+ s := by
  intro hsuffix
  have hchain := h.part hsuffix.isInfix
  rw [ColonsApart, List.isChain_cons_cons] at hchain
  exact hchain.1 ⟨rfl, rfl⟩

/-- No separator of metadata is left. -/
structure Separated (s : Chars) : Prop where
  colons : ColonsApart s
  slashes : '/' ∉ s ∧ '+' ∉ s

theorem Separated.part {s t : Chars} (h : Separated s) (hin : t <:+: s) : Separated t :=
  ⟨h.colons.part hin, fun hmem => h.slashes.1 (hin.subset hmem),
    fun hmem => h.slashes.2 (hin.subset hmem)⟩

/-- Two texts may be put together where no colon ends the one or begins the other. -/
theorem Separated.append {s t : Chars} (hs : Separated s) (ht : Separated t)
    (hcolon : s.getLast? ≠ some ':' ∨ t.head? ≠ some ':') : Separated (s ++ t) := by
  refine ⟨List.isChain_append.mpr ⟨hs.colons, ht.colons, ?_⟩, ?_, ?_⟩
  · rintro x hx y hy ⟨rfl, rfl⟩
    exact hcolon.elim (fun h => h hx) fun h => h hy
  · exact fun hmem => (List.mem_append.mp hmem).elim hs.slashes.1 ht.slashes.1
  · exact fun hmem => (List.mem_append.mp hmem).elim hs.slashes.2 ht.slashes.2

theorem Separated.replace {a : Char} {pat new s : Chars} (h : Separated s) (hne : new ≠ [])
    (hcolon : ':' ∉ new) (hslash : '/' ∉ new) (hplus : '+' ∉ new) :
    Separated (Chars.replace (a :: pat) new s) := by
  refine ⟨colonsApart_replace hcolon hne fun r hr => absurd hr h.colons.not_suffix, ?_, ?_⟩
  · exact fun hmem => (Chars.mem_replace hmem).elim hslash h.slashes.1
  · exact fun hmem => (Chars.mem_replace hmem).elim hplus h.slashes.2

theorem EndsFrom.replace {a : Char} {pat new : Chars} (hne : new ≠ [])
    (hnew : new.all (! isBlank ·) = true) (s : Chars) :
    EndsFrom s (Chars.replace (a :: pat) new s) := by
  obtain ⟨hhead, hlast, hnil⟩ := Chars.replace_ends (a := a) hne s
  have hblank : ∀ c ∈ new, isBlank c = false := by simpa using hnew
  exact ⟨fun c hc => (hhead c hc).imp_left (hblank c), fun c hc => (hlast c hc).imp_left (hblank c),
    hnil⟩

/-- A slash and a plus are written as dots. -/
def dotted (c : Char) : Char :=
  if c = '/' ∨ c = '+' then '.' else c

theorem separated_map_dotted {s : Chars} (h : ColonsApart s) : Separated (s.map dotted) := by
  have hcolon : ∀ c, dotted c = ':' → c = ':' := by
    intro c hc
    unfold dotted at hc
    split at hc
    · cases hc
    · exact hc
  have hslashes : ∀ c, dotted c ≠ '/' ∧ dotted c ≠ '+' := by
    intro c
    unfold dotted
    split
    · decide
    · next hc => exact not_or.mp hc
  refine ⟨?_, ?_, ?_⟩
  · refine (List.isChain_map dotted).mpr (h.imp fun a b hab => ?_)
    exact fun hcolons => hab ⟨hcolon a hcolons.1, hcolon b hcolons.2⟩
  · rintro hmem
    obtain ⟨c, -, hc⟩ := List.mem_map.mp hmem
    exact (hslashes c).1 hc
  · rintro hmem
    obtain ⟨c, -, hc⟩ := List.mem_map.mp hmem
    exact (hslashes c).2 hc

theorem EndsFrom.map_dotted (s : Chars) : EndsFrom s (s.map dotted) := by
  have hdotted : ∀ c, isBlank (dotted c) = false ∨ dotted c = c := by
    intro c
    unfold dotted
    split
    · exact Or.inl (by decide)
    · exact Or.inr rfl
  refine ⟨?_, ?_, List.map_eq_nil_iff.mp⟩
  · intro c hc
    rw [List.head?_map, Option.map_eq_some_iff] at hc
    obtain ⟨d, hd, rfl⟩ := hc
    exact (hdotted d).imp_right fun h => by rw [h, hd]
  · intro c hc
    rw [List.getLast?_map, Option.map_eq_some_iff] at hc
    obtain ⟨d, hd, rfl⟩ := hc
    exact (hdotted d).imp_right fun h => by rw [h, hd]

/-- A constructor that stands at the beginning is marked. -/
def markCtor : Chars → Chars
  | '.' :: r =>
    let isCtor := (Chars.dropPrefix? ['c', 't', 'o', 'r'] r).isSome
    let isStaticCtor := (Chars.dropPrefix? ['c', 'c', 't', 'o', 'r'] r).isSome
    if isCtor || isStaticCtor then '#' :: r else '.' :: r
  | text => text

theorem normalizeSeparators_eq (s : Chars) :
    normalizeSeparators s =
      markCtor (Chars.replace ['.', '.', 'c', 't', 'o', 'r'] ['.', '#', 'c', 't', 'o', 'r']
        (Chars.replace ['.', '.', 'c', 'c', 't', 'o', 'r'] ['.', '#', 'c', 'c', 't', 'o', 'r']
          ((Chars.replace [':', ':'] ['.'] s).map dotted))) :=
  rfl

theorem markCtor_cases (s : Chars) : markCtor s = s ∨ ∃ r, s = '.' :: r ∧ markCtor s = '#' :: r := by
  unfold markCtor
  split
  · next r =>
      dsimp only
      split
      · exact Or.inr ⟨r, rfl, rfl⟩
      · exact Or.inl rfl
  · exact Or.inl rfl

theorem Separated.markCtor {s : Chars} (h : Separated s) : Separated (markCtor s) := by
  rcases markCtor_cases s with heq | ⟨r, rfl, heq⟩
  · rwa [heq]
  · rw [heq]
    refine ⟨.append (a := ['#']) (by decide) (List.IsChain.tail h.colons), ?_, ?_⟩
    · exact fun hmem => h.slashes.1 (by simpa using hmem)
    · exact fun hmem => h.slashes.2 (by simpa using hmem)

theorem EndsFrom.markCtor (s : Chars) : EndsFrom s (markCtor s) := by
  rcases markCtor_cases s with heq | ⟨r, rfl, heq⟩
  · rw [heq]
    exact .refl s
  · rw [heq]
    refine .exchange (a := ['.']) (b := ['#']) (by decide) ⟨?_, ?_⟩ r <;>
    · intro c hc
      obtain rfl := Option.some.inj hc
      decide

theorem separated_normalizeSeparators (s : Chars) : Separated (normalizeSeparators s) := by
  have hcolons : ColonsApart (Chars.replace [':', ':'] ['.'] s) :=
    colonsApart_replace (by decide) (by decide) fun r _ => by simp [Chars.dropPrefix?]
  rw [normalizeSeparators_eq]
  refine (((separated_map_dotted hcolons).replace ?_ ?_ ?_ ?_).replace ?_ ?_ ?_ ?_).markCtor <;> decide

theorem endsFrom_normalizeSeparators (s : Chars) : EndsFrom s (normalizeSeparators s) := by
  rw [normalizeSeparators_eq]
  refine .trans (.replace ?_ ?_ s) (.trans (.map_dotted _) (.trans (.replace ?_ ?_ _)
    (.trans (.replace ?_ ?_ _) (.markCtor _)))) <;> decide

/-! ## Arities -/

/-- A character that neither belongs to an arity nor to what is written for one. -/
def IsForeign (c : Char) : Prop :=
  EndsArity c ∧ c ∉ ['<', 'T', ',', '>']

instance (c : Char) : Decidable (IsForeign c) :=
  inferInstanceAs (Decidable (_ ∧ _))

theorem IsForeign.notMem_arity {c : Char} (hc : IsForeign c) (r after : Chars) :
    c ∉ renderArity (tick :: r.takeWhile (· == tick)) ((r.dropWhile (· == tick)).takeWhile Char.isDigit)
      after := by
  intro h
  rcases renderArity_eq (tick :: r.takeWhile (· == tick))
    ((r.dropWhile (· == tick)).takeWhile Char.isDigit) after with ⟨heq, -⟩ | ⟨n, heq⟩ | heq
  · rw [heq] at h
    cases h
  · rw [heq] at h
    exact hc.2 (mem_arityArguments h)
  · rw [heq, List.mem_append, List.mem_cons] at h
    rcases h with (h | h) | h
    · exact hc.1.1 h
    · exact hc.1.1 (by simpa using List.mem_takeWhile_imp h)
    · have hdigit := List.mem_takeWhile_imp h
      rw [hc.1.2] at hdigit
      cases hdigit

theorem IsForeign.mem_of_mem_collapseArity {c : Char} (hc : IsForeign c) {s : Chars}
    (h : c ∈ collapseArity s) : c ∈ s := by
  induction s using arity_induction with
  | nil => simp [collapseArity] at h
  | cons d r hd ih =>
      rw [collapseArity_cons hd] at h
      rcases List.mem_cons.mp h with rfl | h
      · exact List.mem_cons_self
      · exact List.mem_cons_of_mem d (ih h)
  | ticks r ih =>
      rw [collapseArity_tick] at h
      rcases List.mem_append.mp h with h | h
      · exact absurd h (hc.notMem_arity r _)
      · rw [tick_append, ← List.append_assoc]
        exact List.mem_append_right _ (ih h)

theorem isTrimmed_arityArguments (n : Nat) : Chars.IsTrimmed (arityArguments n) := by
  have hends : (arityArguments n).head? = some '<' ∧ (arityArguments n).getLast? = some '>' := by
    simp [arityArguments, List.getLast?_cons]
  refine ⟨fun c hc => ?_, fun c hc => ?_⟩
  · obtain rfl := Option.some.inj (hends.1.symm.trans hc)
    decide
  · obtain rfl := Option.some.inj (hends.2.symm.trans hc)
    decide

theorem endsFrom_collapseArity (s : Chars) : EndsFrom s (collapseArity s) := by
  induction s using arity_induction with
  | nil =>
      rw [collapseArity]
      exact .refl []
  | cons c r hc ih =>
      rw [collapseArity_cons hc]
      exact ih.prepend [c]
  | ticks r ih =>
      rw [collapseArity_tick]
      conv => arg 1; rw [tick_append, ← List.append_assoc]
      rcases renderArity_eq (tick :: r.takeWhile (· == tick))
        ((r.dropWhile (· == tick)).takeWhile Char.isDigit) (arityRest r) with
        ⟨heq, hhead⟩ | ⟨n, heq⟩ | heq
      · rw [heq, List.nil_append]
        exact .trans (.drop hhead (by decide)) ih
      · rw [heq]
        refine .trans (.exchange ?_ (isTrimmed_arityArguments n) _) (ih.prepend _)
        simp [arityArguments]
      · rw [heq]
        exact ih.prepend _

theorem head?_collapseArity {s : Chars} {c : Char} (hc : IsForeign c)
    (h : (collapseArity s).head? = some c) : s.head? = some c := by
  induction s using arity_induction with
  | nil => simp [collapseArity] at h
  | cons d r hd ih =>
      rw [collapseArity_cons hd] at h
      exact h
  | ticks r ih =>
      rw [collapseArity_tick] at h
      rcases renderArity_eq (tick :: r.takeWhile (· == tick))
        ((r.dropWhile (· == tick)).takeWhile Char.isDigit) (arityRest r) with ⟨heq, hhead⟩ | hrest
      · rw [heq, List.nil_append] at h
        rw [ih h] at hhead
        obtain rfl := Option.some.inj hhead
        exact absurd hc (by decide)
      · have hne : renderArity (tick :: r.takeWhile (· == tick))
            ((r.dropWhile (· == tick)).takeWhile Char.isDigit) (arityRest r) ≠ [] := by
          rcases hrest with ⟨n, heq⟩ | heq <;> simp [heq, arityArguments]
        rw [List.head?_append_of_ne_nil _ hne] at h
        exact absurd (List.mem_of_head? h) (hc.notMem_arity r _)

theorem ColonsApart.collapseArity {s : Chars} (h : ColonsApart s) : ColonsApart (collapseArity s) := by
  induction s using arity_induction with
  | nil => simp [Name.collapseArity, ColonsApart]
  | cons c r hc ih =>
      obtain ⟨hhead, hr⟩ := List.isChain_cons.mp h
      rw [collapseArity_cons hc]
      refine List.isChain_cons.mpr ⟨?_, ih hr⟩
      rintro d hd ⟨rfl, rfl⟩
      exact hhead ':' (head?_collapseArity (by decide) hd) ⟨rfl, rfl⟩
  | ticks r ih =>
      rw [collapseArity_tick]
      refine .append (IsForeign.notMem_arity (by decide) r _) (ih ?_)
      rw [tick_append, ← List.append_assoc] at h
      exact List.IsChain.right_of_append h

/-! ## Scope markers -/

theorem endsFrom_stripScopes (s : Chars) : EndsFrom s (stripScopes s) := by
  induction hlength : s.length using Nat.strongRecOn generalizing s with
  | _ length ih =>
      rw [stripScopes]
      split
      · exact .refl s
      · next head d afterOpen hopen =>
          split
          · exact .refl s
          · next content e after hclose =>
              have hshort := Nat.lt_trans (cut?_length hclose) (cut?_length hopen)
              have hafter := ih after.length (hlength ▸ hshort) after rfl
              obtain ⟨rfl, hd, -⟩ := Chars.cut?_eq_some hopen
              obtain ⟨rfl, he, -⟩ := Chars.cut?_eq_some hclose
              obtain rfl : d = '[' := by simpa using hd
              obtain rfl : e = ']' := by simpa using he
              have hsplit : head ++ '[' :: (content ++ ']' :: after) =
                  head ++ (('[' :: content ++ [']']) ++ after) := by simp
              dsimp only
              rw [hsplit, List.append_assoc head]
              refine .prepend ?_ head
              split
              · next hmarker =>
                  obtain ⟨c, rest, rfl, hc⟩ : ∃ c rest, after = c :: rest ∧
                      (isAlphabetic c = true ∨ c = '_') := by
                    cases after with
                    | nil => simp [isScopeMarker] at hmarker
                    | cons c rest =>
                        simp only [isScopeMarker, Bool.and_eq_true, Bool.or_eq_true,
                          beq_iff_eq] at hmarker
                        exact ⟨c, rest, rfl, hmarker.2⟩
                  have hblank : isBlank c = false := by
                    rcases hc with hc | rfl
                    · exact Chars.isBlank_of_isAlphanumeric (by simp [isAlphanumeric, hc])
                    · decide
                  exact .trans (.drop rfl hblank) hafter
              · exact hafter.prepend _

/-! ## Settled names -/

theorem separated_settle (raw : Chars) : Separated (settle raw) := by
  have h := separated_normalizeSeparators (stripScopes (Chars.trim raw))
  refine ⟨h.colons.collapseArity, ?_, ?_⟩
  · exact fun hmem => h.slashes.1 (IsForeign.mem_of_mem_collapseArity (by decide) hmem)
  · exact fun hmem => h.slashes.2 (IsForeign.mem_of_mem_collapseArity (by decide) hmem)

theorem isTrimmed_settle (raw : Chars) : Chars.IsTrimmed (settle raw) := by
  have h := (endsFrom_stripScopes (Chars.trim raw)).trans
    ((endsFrom_normalizeSeparators _).trans (endsFrom_collapseArity _))
  exact h.isTrimmed (Chars.isTrimmed_trim raw)

end CodeGraph.Name
