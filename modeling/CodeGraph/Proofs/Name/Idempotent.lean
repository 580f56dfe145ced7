import CodeGraph.Proofs.Name.Steady

namespace CodeGraph.Name

open CodeGraph.Text

/-!
# Canonical names stay canonical

A canonical name is settled, and its parameters are simple. Where cutting it down opens nothing new to
the first passes, making it canonical once more changes nothing.
-/

/-! ## Parameters -/

/-- What is made of a settled name. -/
def finish (text : Chars) : Chars :=
  match splitParameters text with
  | none => text
  | some (head, params) =>
    let (above, last) := splitLast head
    match accessorProperty last with
    | some property => joinChars above property
    | none =>
      let params := ((splitTop ',' 0 params).map simplifyTypeChars).filter (! ·.isEmpty)
      joinChars above (last ++ '(' :: Chars.joinWith [','] params ++ [')'])

theorem canonicalizeChars_eq (raw : Chars) : canonicalizeChars raw = finish (settle raw) := rfl

theorem finish_of_none {text : Chars} (h : splitParameters text = none) : finish text = text := by
  simp [finish, h]

/-- The parameters of a canonical name. -/
def simpleParameters (params : Chars) : List Chars :=
  ((splitTop ',' 0 params).map simplifyTypeChars).filter (! ·.isEmpty)

/-- A head that begins with no dot is put together again from what it was cut into. -/
theorem splitLast_cases {head : Chars} (hhead : head.head? ≠ some '.') :
    lastDot? 0 (splitLast head).2 = none ∧
      ((splitLast head).1 = [] ∧ (splitLast head).2 = head ∨
        (splitLast head).1 ≠ [] ∧ head = (splitLast head).1 ++ '.' :: (splitLast head).2) := by
  unfold splitLast
  cases hlast : lastDot? 0 head with
  | none => exact ⟨hlast, Or.inl ⟨rfl, rfl⟩⟩
  | some cut =>
      obtain ⟨above, last⟩ := cut
      obtain ⟨rfl, -, hnone⟩ := lastDot?_eq_some hlast
      refine ⟨hnone, Or.inr ⟨?_, rfl⟩⟩
      rintro rfl
      exact hhead rfl

theorem finish_of_parameters {head params : Chars} (hhead : head.head? ≠ some '.')
    (hsplit : splitParameters (head ++ '(' :: (params ++ [')'])) = some (head, params))
    (haccessor : accessorProperty (splitLast head).2 = none) :
    finish (head ++ '(' :: (params ++ [')'])) =
      head ++ '(' :: (Chars.joinWith [','] (simpleParameters params) ++ [')']) := by
  have hjoin : ∀ x, joinChars (splitLast head).1 ((splitLast head).2 ++ '(' :: x) = head ++ '(' :: x := by
    intro x
    rcases (splitLast_cases hhead).2 with ⟨habove, hlast⟩ | ⟨habove, heq⟩
    · rw [habove, hlast]
      simp [joinChars]
    · rw [joinChars_of_ne_nil habove (by simp)]
      conv_rhs => rw [heq]
      simp
  simp only [finish, hsplit, haccessor]
  rw [List.append_assoc]
  exact hjoin _

/-- The first passes find nothing to change in steady parameters behind a steady head. -/
theorem settle_parameters {head params : Chars} (hne : head ≠ []) (hs : Steady head)
    (hranks : RanksOnly head) (hhead : ∀ c, head.head? = some c → isBlank c = false ∧ c ≠ '.')
    (hn : Nested params) (hparams : Steady params) :
    settle (head ++ '(' :: (params ++ [')'])) = head ++ '(' :: (params ++ [')']) := by
  have hfirst : (head ++ '(' :: (params ++ [')'])).head? = head.head? :=
    List.head?_append_of_ne_nil _ hne
  have hopen : RanksOnly ['('] := by decide
  have hclose : RanksOnly [')'] := by decide
  apply settle_eq_self (hs.glue (hparams.snoc (by decide)) (by decide))
  · simpa using (hranks.append hopen).append (hn.ranksOnly.append hclose)
  · refine ⟨fun c hc => (hhead c (hfirst ▸ hc)).1, fun c hc => ?_⟩
    have hlast : (head ++ '(' :: (params ++ [')'])).getLast? = some ')' := by
      simp [List.getLast?_cons]
    obtain rfl := Option.some.inj (hlast.symm.trans hc)
    decide
  · exact fun hdot => (hhead '.' (hfirst ▸ hdot)).2 rfl

/-- Behind a head that no pass changes the parameters are cut down. -/
theorem canonicalizeChars_parameters {head params : Chars} (hne : head ≠ []) (hs : Steady head)
    (hranks : RanksOnly head) (hhead : ∀ c, head.head? = some c → isBlank c = false ∧ c ≠ '.')
    (hn : Nested params) (hparams : Steady params)
    (haccessor : accessorProperty (splitLast head).2 = none) :
    canonicalizeChars (head ++ '(' :: (params ++ [')'])) =
      head ++ '(' :: (Chars.joinWith [','] (simpleParameters params) ++ [')']) := by
  rw [canonicalizeChars_eq, settle_parameters hne hs hranks hhead hn hparams]
  exact finish_of_parameters (fun hdot => (hhead '.' hdot).2 rfl) (hn.closes.splitParameters_eq hne)
    haccessor

theorem exists_of_mem_simpleParameters {params p : Chars} (hp : p ∈ simpleParameters params) :
    ∃ part ∈ splitTop ',' 0 params, p = simplifyTypeChars part ∧ p ≠ [] := by
  obtain ⟨hmem, hempty⟩ := List.mem_filter.mp hp
  obtain ⟨part, hpart, rfl⟩ := List.mem_map.mp hmem
  exact ⟨part, hpart, rfl, by simpa using hempty⟩

theorem simple_of_mem_simpleParameters {params p : Chars} (hn : Nested params)
    (hseg : Segmented params) (hp : p ∈ simpleParameters params) :
    Simple p ∧ Uncut ',' p ∧ p ≠ [] := by
  obtain ⟨part, hpart, rfl, hne⟩ := exists_of_mem_simpleParameters hp
  obtain ⟨hjoin, hparts⟩ := hn.splitTop
  have hin : part <:+: Chars.joinWith [','] (splitTop ',' 0 params) := Chars.infix_joinWith hpart
  rw [hjoin] at hin
  obtain ⟨hpartNested, huncut⟩ := hparts part hpart
  exact ⟨simple_simplify hpartNested (hseg.part hin), uncut_simplify hpartNested huncut, hne⟩

/-- Parameters are found again, and each is cut down. -/
theorem simpleParameters_eq_map {parts : List Chars}
    (h : ∀ p ∈ parts, Nested p ∧ Uncut ',' p ∧ simplifyTypeChars p ≠ []) :
    simpleParameters (Chars.joinWith [','] parts) = parts.map simplifyTypeChars := by
  cases parts with
  | nil =>
      have hempty : simplifyTypeChars [] = [] := by
        rw [simplifyTypeChars_eq]
        rfl
      simp [simpleParameters, Chars.joinWith, splitTop, hempty]
  | cons first parts =>
      have hsplit : splitTop ',' 0 (Chars.joinWith [','] (first :: parts)) = first :: parts :=
        splitTop_joinWith (List.cons_ne_nil _ _) fun p hp => ⟨(h p hp).2.1, (h p hp).1.net_eq_zero⟩
      rw [simpleParameters, hsplit]
      refine List.filter_eq_self.mpr fun a ha => ?_
      obtain ⟨p, hp, rfl⟩ := List.mem_map.mp ha
      simpa using (h p hp).2.2

/-- Simple parameters stay. -/
theorem simpleParameters_joinWith {parts : List Chars}
    (h : ∀ p ∈ parts, Simple p ∧ Uncut ',' p ∧ p ≠ []) :
    simpleParameters (Chars.joinWith [','] parts) = parts := by
  have hstay : ∀ p ∈ parts, simplifyTypeChars p = p := fun p hp => (h p hp).1.simplify_eq
  rw [simpleParameters_eq_map fun p hp =>
    ⟨(h p hp).1.nested, (h p hp).2.1, (hstay p hp).symm ▸ (h p hp).2.2⟩]
  exact (List.map_congr_left hstay).trans (List.map_id _)

theorem nested_joinWith_simpleParameters {params : Chars} (hn : Nested params) :
    Nested (Chars.joinWith [','] (simpleParameters params)) := by
  refine .joinWith fun p hp => ?_
  obtain ⟨part, hpart, rfl, -⟩ := exists_of_mem_simpleParameters hp
  exact nested_simplify (hn.splitTop.2 part hpart).1

theorem steady_joinWith_simpleParameters {params : Chars} (hn : Nested params)
    (hs : Steady params) : Steady (Chars.joinWith [','] (simpleParameters params)) := by
  refine .joinWith fun p hp => ?_
  obtain ⟨part, hpart, rfl, -⟩ := exists_of_mem_simpleParameters hp
  obtain ⟨hjoin, hparts⟩ := hn.splitTop
  have hall : Steady (Chars.joinWith [','] (splitTop ',' 0 params)) := hjoin.symm ▸ hs
  exact Steady.simplify (hparts part hpart).1 (hall.of_mem_joinWith part hpart)

/-! ## Accessors -/

/-- The property of an accessor is its segment without `get_` or `set_`, behind the interface. -/
theorem accessorProperty_eq_some {segment property : Chars}
    (h : accessorProperty segment = some property) :
    ∃ q verb x, segment = q ++ (verb ++ '_' :: x) ∧ property = q ++ x ∧ x ≠ [] ∧
      (verb = ['g', 'e', 't'] ∨ verb = ['s', 'e', 't']) ∧ (q = [] ∨ ∃ y, q = y ++ ['*']) := by
  have hsegment := Chars.upToLast_append_behindLast '*' segment
  have hq := Chars.upToLast_cases '*' segment
  unfold accessorProperty at h
  dsimp only at h
  split at h
  · next c r hor =>
      obtain rfl := Option.some.inj h
      rcases Option.or_eq_some_iff.mp hor with hget | ⟨-, hset⟩
      · have hbehind : Chars.behindLast '*' segment = ['g', 'e', 't', '_'] ++ c :: r :=
          Chars.dropPrefix?_eq_some_iff.mp hget
        rw [hbehind] at hsegment
        exact ⟨Chars.upToLast '*' segment, ['g', 'e', 't'], c :: r,
          by simpa using hsegment.symm, rfl, List.cons_ne_nil _ _, Or.inl rfl, hq⟩
      · have hbehind : Chars.behindLast '*' segment = ['s', 'e', 't', '_'] ++ c :: r :=
          Chars.dropPrefix?_eq_some_iff.mp hset
        rw [hbehind] at hsegment
        exact ⟨Chars.upToLast '*' segment, ['s', 'e', 't'], c :: r,
          by simpa using hsegment.symm, rfl, List.cons_ne_nil _ _, Or.inr rfl, hq⟩
  · cases h

/-- The property of an accessor in its place: `pre` and `x` stand around the verb. -/
structure VerbCut (head property pre verb x : Chars) : Prop where
  whole : head = pre ++ (verb ++ '_' :: x)
  joined : joinChars (splitLast head).1 property = pre ++ x
  ne_nil : x ≠ []
  last : property.getLast? = x.getLast?
  before : pre = [] ∨ pre.getLast? = some '*' ∨ pre.getLast? = some '.'
  first : pre.getLast? ≠ some '*' → property = x ∧ x.head? ≠ some '.'

/-- An accessor loses its verb, which stands at the beginning, behind a dot or behind an interface. -/
theorem accessor_cut {head property : Chars} (hhead : head.head? ≠ some '.')
    (h : accessorProperty (splitLast head).2 = some property) :
    ∃ pre verb x, VerbCut head property pre verb x := by
  obtain ⟨hnone, hcases⟩ := splitLast_cases hhead
  obtain ⟨q, verb, x, hlast, rfl, hx, hverb, hq⟩ := accessorProperty_eq_some h
  have hlastOf : (q ++ x).getLast? = x.getLast? := List.getLast?_append_of_ne_nil _ hx
  have hdot : q = [] → x.head? ≠ some '.' := by
    rintro rfl hx'
    obtain ⟨z, rfl⟩ : ∃ z, x = '.' :: z := by
      cases x with
      | nil => simp at hx'
      | cons c z => exact ⟨z, by rw [Option.some.inj hx']⟩
    have hnet : net (verb ++ ['_']) = 0 := by
      rcases hverb with rfl | rfl <;> decide
    refine lastDot?_eq_none_iff.mp hnone (verb ++ ['_']) z ?_ (by rw [hnet]; rfl)
    rw [hlast]
    simp
  have hfirst : q.getLast? ≠ some '*' → q ++ x = x ∧ x.head? ≠ some '.' := by
    intro hstar
    rcases hq with rfl | ⟨y, rfl⟩
    · exact ⟨rfl, hdot rfl⟩
    · exact absurd (by simp) hstar
  rcases hcases with ⟨habove, heq⟩ | ⟨habove, heq⟩
  · refine ⟨q, verb, x, heq ▸ hlast, by rw [habove]; rfl, hx, hlastOf, ?_, hfirst⟩
    rcases hq with rfl | ⟨y, rfl⟩
    · exact Or.inl rfl
    · exact Or.inr (Or.inl (by simp))
  · refine ⟨(splitLast head).1 ++ '.' :: q, verb, x, ?_, ?_, hx, hlastOf, ?_, fun hstar => hfirst ?_⟩
    · rw [List.append_assoc, List.cons_append, ← hlast]
      exact heq
    · rw [joinChars_of_ne_nil habove (by simp [hx])]
      simp
    · rcases hq with rfl | ⟨y, rfl⟩
      · exact Or.inr (Or.inr (by simp))
      · exact Or.inr (Or.inl (by simp [List.getLast?_cons]))
    · rcases hq with rfl | ⟨y, rfl⟩
      · simp
      · exact absurd (by simp [List.getLast?_cons]) hstar

namespace VerbCut

variable {head property pre verb x : Chars} (h : VerbCut head property pre verb x)

include h

theorem steady (hs : Steady head) (ht : Chars.IsTrimmed property) : Steady (pre ++ x) := by
  refine Steady.dropVerb (h.whole ▸ hs) fun d hd => ?_
  rcases h.before with hpre | hstar | hdot
  · simp [hpre] at hd
  · obtain rfl := Option.some.inj (hstar.symm.trans hd)
    exact ⟨by decide, by decide, fun hdot => absurd hdot (by decide)⟩
  · obtain rfl := Option.some.inj (hdot.symm.trans hd)
    obtain ⟨rfl, hx⟩ := h.first (by simp [hdot])
    refine ⟨by decide, by decide, fun _ c hc => ⟨?_, ht.1 c hc⟩⟩
    rintro rfl
    exact hx hc

theorem ranksOnly (hranks : RanksOnly head) : RanksOnly (pre ++ x) := by
  refine RanksOnly.dropVerb (h.whole ▸ hranks) fun d hd => ?_
  rcases h.before with hpre | hstar | hdot
  · simp [hpre] at hd
  · obtain rfl := Option.some.inj (hstar.symm.trans hd)
    decide
  · obtain rfl := Option.some.inj (hdot.symm.trans hd)
    decide

/-- Without the verb the text begins with the head's first character, or with the property's. -/
theorem head?_eq : (pre ++ x).head? = head.head? ∨
    (pre ++ x).head? = property.head? ∧ (pre ++ x).head? ≠ some '.' := by
  by_cases hpre : pre = []
  · obtain ⟨rfl, hx⟩ := h.first (by simp [hpre])
    exact Or.inr (by simpa [hpre] using hx)
  · refine Or.inl ?_
    rw [h.whole, List.head?_append_of_ne_nil _ hpre, List.head?_append_of_ne_nil _ hpre]

theorem getLast?_eq : (pre ++ x).getLast? = property.getLast? := by
  rw [List.getLast?_append_of_ne_nil _ h.ne_nil, h.last]

end VerbCut

/-! ## Idempotence -/

/-- A settled name of which no segment is empty or begins with a blank, in which square brackets only
mark arrays and no arity is left, whose parameters nest, and whose property, when it is the name of an
accessor, has no blank and no parameter list at its end. -/
structure Regular (text : Chars) : Prop where
  head : text.head? ≠ some '.'
  segmented : Segmented text
  ranks : RanksOnly text
  rendered : Rendered text
  parameters : ∀ head params, splitParameters text = some (head, params) → Nested params
  accessor : ∀ head params property, splitParameters text = some (head, params) →
    accessorProperty (splitLast head).2 = some property →
    Chars.IsTrimmed property ∧ property.getLast? ≠ some ')'

section Idempotent

variable {text head params : Chars} (hs : Steady text) (ht : Chars.IsTrimmed text) (h : Regular text)
  (hsplit : splitParameters text = some (head, params))

include hs ht h hsplit

/-- A name with parameters: the head stays, and the simple parameters stay simple. -/
theorem finish_settle_of_parameters (haccessor : accessorProperty (splitLast head).2 = none) :
    finish (settle (finish text)) = finish text := by
  obtain ⟨rfl, hne⟩ := splitParameters_eq_some hsplit
  have hn := h.parameters head params hsplit
  have hhead : head.head? ≠ some '.' := by
    have hfirst := h.head
    rwa [List.head?_append_of_ne_nil _ hne] at hfirst
  have hparams : Steady params := (hs.right (by decide)).left (by decide) (by decide)
  have hparts := fun p hp => simple_of_mem_simpleParameters (p := p) hn hparams.segmented hp
  have hnested := nested_joinWith_simpleParameters hn
  rw [finish_of_parameters hhead hsplit haccessor]
  generalize hjoined : Chars.joinWith [','] (simpleParameters params) = joined at hnested ⊢
  have hinner : Steady joined := by
    rw [← hjoined]
    exact steady_joinWith_simpleParameters hn hparams
  have hstart : ∀ c, head.head? = some c → isBlank c = false ∧ c ≠ '.' := by
    intro c hc
    refine ⟨ht.1 c (by rw [List.head?_append_of_ne_nil _ hne, hc]), ?_⟩
    rintro rfl
    exact hhead hc
  rw [settle_parameters hne (hs.left (by decide) (by decide)) (h.ranks.left (by decide) (by decide))
    hstart hnested hinner,
    finish_of_parameters hhead (hnested.closes.splitParameters_eq hne) haccessor, ← hjoined,
    simpleParameters_joinWith hparts]

/-- The name of an accessor: its property stays. -/
theorem finish_settle_of_accessor {property : Chars}
    (haccessor : accessorProperty (splitLast head).2 = some property) :
    finish (settle (finish text)) = finish text := by
  obtain ⟨htrim, hend⟩ := h.accessor head params property hsplit haccessor
  obtain ⟨rfl, hne⟩ := splitParameters_eq_some hsplit
  have hfirst : (head ++ '(' :: (params ++ [')'])).head? = head.head? :=
    List.head?_append_of_ne_nil _ hne
  have hhead : head.head? ≠ some '.' := hfirst ▸ h.head
  obtain ⟨pre, verb, x, hcut⟩ := accessor_cut hhead haccessor
  have hfinish : finish (head ++ '(' :: (params ++ [')'])) = pre ++ x := by
    simp only [finish, hsplit, haccessor, hcut.joined]
  have hsteady : Steady (pre ++ x) := hcut.steady (hs.left (by decide) (by decide)) htrim
  have hranks : RanksOnly (pre ++ x) := hcut.ranksOnly (h.ranks.left (by decide) (by decide))
  have htrimmed : Chars.IsTrimmed (pre ++ x) := by
    refine ⟨fun c hc => ?_, fun c hc => htrim.2 c (hcut.getLast?_eq ▸ hc)⟩
    rcases hcut.head?_eq with heq | ⟨heq, -⟩
    · exact ht.1 c (by rw [hfirst, ← heq, hc])
    · exact htrim.1 c (heq ▸ hc)
  have hnoDot : (pre ++ x).head? ≠ some '.' := by
    rcases hcut.head?_eq with heq | ⟨-, hx⟩
    · rwa [heq]
    · exact hx
  have hnone : splitParameters (pre ++ x) = none :=
    splitParameters_of_getLast? (hcut.getLast?_eq ▸ hend)
  rw [hfinish, settle_eq_self hsteady hranks htrimmed hnoDot, finish_of_none hnone]

end Idempotent

/-- A regular name is canonical after one pass. -/
theorem canonicalize_canonicalize (raw : String) (h : Regular (settle raw.toList)) :
    canonicalize (canonicalize raw) = canonicalize raw := by
  have hs : Steady (settle raw.toList) := ⟨separated_settle _, h.segmented, h.rendered⟩
  have ht := isTrimmed_settle raw.toList
  have hfinish : finish (settle (finish (settle raw.toList))) = finish (settle raw.toList) := by
    cases hsplit : splitParameters (settle raw.toList) with
    | none =>
        rw [finish_of_none hsplit, settle_eq_self hs h.ranks ht h.head, finish_of_none hsplit]
    | some cut =>
        obtain ⟨head, params⟩ := cut
        cases haccessor : accessorProperty (splitLast head).2 with
        | none => exact finish_settle_of_parameters hs ht h hsplit haccessor
        | some property => exact finish_settle_of_accessor hs ht h hsplit haccessor
  rw [canonicalize, canonicalize, String.toList_ofList, canonicalizeChars_eq, canonicalizeChars_eq,
    hfinish]

/-- A method of a nested generic type, as it is written in metadata. -/
theorem canonicalize_generic_method :
    Regular (settle "[mscorlib]N.Outer/Box\x602::Add(System.String, N.List\x601<N.Item>[])".toList) ∧
      canonicalize (canonicalize "[mscorlib]N.Outer/Box\x602::Add(System.String, N.List\x601<N.Item>[])") =
        "N.Outer.Box<T,T>.Add(String,List<Item>[])" := by
  have hsettle : settle "[mscorlib]N.Outer/Box\x602::Add(System.String, N.List\x601<N.Item>[])".toList =
      "N.Outer.Box<T,T>.Add(System.String, N.List<N.Item>[])".toList := by decide +kernel
  have hsplit : splitParameters "N.Outer.Box<T,T>.Add(System.String, N.List<N.Item>[])".toList =
      some ("N.Outer.Box<T,T>.Add".toList, "System.String, N.List<N.Item>[]".toList) := by
    decide +kernel
  have hparams : Nested "System.String, N.List<N.Item>[]".toList := by
    have hlist : Nested "System.String, N.List".toList := .of_all (by decide +kernel)
    have hitem : Nested "N.Item".toList := .of_all (by decide +kernel)
    exact hlist.append (hitem.angle (.rank 0 .nil))
  have haccessor : accessorProperty (splitLast "N.Outer.Box<T,T>.Add".toList).2 = none := by
    decide +kernel
  have hregular : Regular (settle
      "[mscorlib]N.Outer/Box\x602::Add(System.String, N.List\x601<N.Item>[])".toList) := by
    rw [hsettle]
    refine ⟨by decide +kernel, ?_, by decide +kernel, ?_, ?_, ?_⟩
    · unfold Segmented
      decide +kernel
    · unfold Rendered
      decide +kernel
    · intro head params h
      obtain ⟨rfl, rfl⟩ := Prod.mk.inj (Option.some.inj (hsplit.symm.trans h))
      exact hparams
    · intro head params property h hproperty
      obtain ⟨rfl, rfl⟩ := Prod.mk.inj (Option.some.inj (hsplit.symm.trans h))
      rw [haccessor] at hproperty
      cases hproperty
  exact ⟨hregular, (canonicalize_canonicalize _ hregular).trans (by decide +kernel)⟩

/-- Writing a plus of a name as a dot may turn what stands in square brackets into a scope marker. -/
theorem canonicalize_ne_self :
    canonicalize (canonicalize "[Lib+Net]N.Foo") ≠ canonicalize "[Lib+Net]N.Foo" := by
  decide +kernel

end CodeGraph.Name
