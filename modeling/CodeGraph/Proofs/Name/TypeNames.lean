import CodeGraph.Proofs.Name.Idempotent
import CodeGraph.Proofs.Name.Paths

namespace CodeGraph.Name

open CodeGraph.Text

/-!
# The names of types

A raw type name is a name and, behind a tick, the number of its type parameters. Its segment shows the
parameters of up to five as an argument list, from which both are read off again.
-/

theorem Nested.round_notMem {s : Chars} (h : Nested s) : '(' ∉ s ∧ ')' ∉ s := by
  induction h with
  | nil => simp
  | plain hc _ ih =>
      have hopen := hc.ne (d := '(') (by decide)
      have hclose := hc.ne (d := ')') (by decide)
      simpa [hopen.symm, hclose.symm] using ih
  | group hp _ _ iha ihr => cases hp <;> simp_all

/-! ## Texts without separators -/

/-- A text of names and nested brackets without any of the characters `foreign`. -/
structure Without (foreign s : Chars) : Prop where
  nested : Nested s
  trimmed : Chars.IsTrimmed s
  absent : ∀ c ∈ s, c ∉ foreign

def separators : Chars :=
  ['.', '/', '+', ':']

/-- No separator stands in the text. -/
abbrev IsQuiet (s : Chars) : Prop :=
  Without separators s

namespace Without

variable {foreign s : Chars}

theorem of_forall (h : ∀ c ∈ s, IsPlain c ∧ isBlank c = false ∧ c ∉ foreign) : Without foreign s :=
  ⟨.of_plain fun c hc => (h c hc).1, ⟨fun c hc => (h c (List.mem_of_head? hc)).2.1,
    fun c hc => (h c (List.mem_of_getLast? hc)).2.1⟩, fun c hc => (h c hc).2.2⟩

theorem of_all (h : s.all (fun c => decide (IsPlain c ∧ isBlank c = false ∧ c ∉ foreign)) = true) :
    Without foreign s :=
  .of_forall fun c hc => of_decide_eq_true (List.all_eq_true.mp h c hc)

theorem notMem (h : Without foreign s) {c : Char} (hc : c ∈ foreign) : c ∉ s :=
  fun hmem => h.absent c hmem hc

end Without

theorem segmented_of_notMem {s : Chars} (h : '.' ∉ s) : Segmented s := by
  induction s with
  | nil => simp [Segmented]
  | cons c s ih =>
      obtain ⟨hc, hs⟩ := not_or.mp (fun hmem => h (List.mem_cons.mpr hmem))
      exact List.isChain_cons.mpr ⟨fun d _ hdot => absurd hdot.symm hc, ih hs⟩

theorem collapseArity_append_of_notMem {base : Chars} (h : tick ∉ base) (s : Chars) :
    collapseArity (base ++ s) = base ++ collapseArity s := by
  induction base with
  | nil => rfl
  | cons c base ih =>
      obtain ⟨hc, hbase⟩ := not_or.mp (fun hmem => h (List.mem_cons.mpr hmem))
      rw [List.cons_append, collapseArity_cons (Ne.symm hc), ih hbase, List.cons_append]

theorem rendered_of_notMem {s : Chars} (h : tick ∉ s) : Rendered s := by
  have hall := collapseArity_append_of_notMem h []
  simpa [Rendered, collapseArity] using hall

theorem finish_of_nested {s : Chars} (h : Nested s) : finish s = s :=
  finish_of_none (splitParameters_of_getLast? fun hlast => h.round_notMem.2 (List.mem_of_getLast? hlast))

namespace IsQuiet

variable {s : Chars} (h : IsQuiet s)

include h

theorem steady (htick : tick ∉ s) : Steady s :=
  ⟨⟨colonsApart_of_notMem (h.notMem (by decide)), h.notMem (by decide), h.notMem (by decide)⟩,
    segmented_of_notMem (h.notMem (by decide)), rendered_of_notMem htick⟩

theorem head?_ne : s.head? ≠ some '.' :=
  fun hdot => h.notMem (by decide) (List.mem_of_head? hdot)

theorem splitLast_eq : splitLast s = ([], s) := by
  have hnone : lastDot? 0 s = none :=
    lastDot?_eq_none_iff.mpr fun a b hab => absurd (by simp [hab]) (h.notMem (c := '.') (by decide))
  simp [splitLast, hnone]

theorem settle_eq : settle s = collapseArity s := by
  have hcolons : ¬ [':', ':'] <:+: s :=
    fun hin => h.notMem (c := ':') (by decide) (hin.subset (by decide))
  rw [settle, Chars.trim_eq_self h.trimmed, stripScopes_eq_self h.nested.ranksOnly,
    normalizeSeparators_eq_self hcolons ⟨h.notMem (by decide), h.notMem (by decide)⟩
      (segmented_of_notMem (h.notMem (by decide))) h.head?_ne]

/-- Of all passes only that of the arities looks into a text without separators. -/
theorem canonicalizeChars_eq (hn : Nested (collapseArity s)) :
    canonicalizeChars s = collapseArity s := by
  rw [Name.canonicalizeChars_eq, h.settle_eq, finish_of_nested hn]

end IsQuiet

/-! ## Types -/

theorem before_tick {name : String} (hname : tick ∉ name.toList) (suffix : String) :
    before (· == tick) (name ++ "\x60" ++ suffix) = name := by
  rw [String.append_assoc]
  refine Chars.before_append (beq_of_notMem hname) fun c hc => ?_
  obtain rfl : tick = c := by simpa [tick] using hc
  decide

/-- Nothing, or the tick and the number of type parameters. -/
inductive IsArity : Chars → Prop
  | none : IsArity []
  | some {d : Char} {ds : Chars} (hd : '1' ≤ d ∧ d ≤ '9') (hds : ds.all Char.isDigit = true) :
      IsArity (tick :: d :: ds)

/-- A raw type name is a name with its arity behind it. -/
structure TypeParts (raw base arity : Chars) : Prop where
  raw_eq : raw = base ++ arity
  quiet : IsQuiet base
  ne_nil : base ≠ []
  angle : '<' ∉ base
  tick : tick ∉ base
  arity : IsArity arity

theorem le_digitsValue (n : Nat) (ds : Chars) :
    n ≤ ds.foldl (fun n c => n * 10 + (c.toNat - '0'.toNat)) n := by
  induction ds generalizing n with
  | nil => exact Nat.le_refl n
  | cons d ds ih =>
      have hstep : n ≤ n * 10 + (d.toNat - '0'.toNat) := by omega
      exact Nat.le_trans hstep (ih _)

theorem digitsValue_singleton (d : Char) : digitsValue [d] = d.toNat - '0'.toNat := by
  simp [digitsValue]

/-- Numbers below ten have one digit. -/
theorem digitsValue_cons {d : Char} (ds : Chars) (hd : '1' ≤ d) :
    1 ≤ digitsValue (d :: ds) ∧ (digitsValue (d :: ds) < 10 → ds = []) := by
  have hone : 1 ≤ d.toNat - '0'.toNat := by
    have hle : '1'.toNat ≤ d.toNat := hd
    have hdigits : '1'.toNat = '0'.toNat + 1 := rfl
    omega
  have hvalue : digitsValue (d :: ds) =
      ds.foldl (fun n c => n * 10 + (c.toNat - '0'.toNat)) (d.toNat - '0'.toNat) := by
    simp [digitsValue]
  rw [hvalue]
  refine ⟨Nat.le_trans hone (le_digitsValue _ ds), fun hlt => ?_⟩
  cases ds with
  | nil => rfl
  | cons e ds =>
      have hle := le_digitsValue ((d.toNat - '0'.toNat) * 10 + (e.toNat - '0'.toNat)) ds
      rw [List.foldl_cons] at hlt
      omega

theorem isDigit_of_le {d : Char} (hd : '1' ≤ d ∧ d ≤ '9') : d.isDigit = true := by
  simp only [Char.isDigit, Bool.and_eq_true, decide_eq_true_eq]
  exact ⟨Nat.le_trans (by decide) hd.1, hd.2⟩

theorem IsArity.of_mem {arity : Chars} (h : IsArity arity) {c : Char} (hc : c ∈ arity) :
    c = tick ∨ c.isDigit = true := by
  cases h with
  | none => simp at hc
  | some hd hds =>
      rcases List.mem_cons.mp hc with rfl | hc
      · exact Or.inl rfl
      · rcases List.mem_cons.mp hc with rfl | hc
        · exact Or.inr (isDigit_of_le hd)
        · exact Or.inr (List.all_eq_true.mp hds c hc)

theorem collapseArity_digits {ds : Chars} (h : ∀ d ∈ ds, d.isDigit = true) :
    collapseArity (tick :: ds) = renderArity [tick] ds [] := by
  have htick : ∀ d ∈ ds, (d == tick) = false := by
    intro d hd
    rw [beq_eq_false_iff_ne]
    rintro rfl
    exact absurd (h _ hd) (by decide)
  have hticks : ds.takeWhile (· == tick) = [] ∧ ds.dropWhile (· == tick) = ds := by
    cases ds with
    | nil => exact ⟨rfl, rfl⟩
    | cons d ds => simp [htick d List.mem_cons_self]
  have htake : ds.takeWhile Char.isDigit = ds := List.takeWhile_eq_self_iff.mpr h
  have hdrop : ds.dropWhile Char.isDigit = [] := List.dropWhile_eq_nil_iff.mpr h
  rw [collapseArity_tick, arityRest, hticks.1, hticks.2, htake, hdrop, collapseArity, List.append_nil]

/-- An arity is written out, or it stays. -/
theorem IsArity.collapse_cases {arity : Chars} (h : IsArity arity) :
    arity = [] ∧ collapseArity arity = [] ∨
      (∃ d, arity = [tick, d] ∧ collapseArity arity = arityArguments (digitsValue [d]) ∧
        1 ≤ digitsValue [d] ∧ digitsValue [d] ≤ 5) ∨
      ∃ r, arity = tick :: r ∧ collapseArity arity = tick :: r := by
  cases h with
  | none => exact Or.inl ⟨rfl, by rw [collapseArity]⟩
  | @some d ds hd hds =>
      obtain ⟨hone, hshort⟩ := digitsValue_cons ds hd.1
      have hdigits : ∀ c ∈ d :: ds, c.isDigit = true := by simpa [isDigit_of_le hd] using hds
      rw [collapseArity_digits hdigits]
      by_cases hfive : digitsValue (d :: ds) ≤ 5
      · obtain rfl := hshort (by omega)
        exact Or.inr (Or.inl ⟨d, rfl, by simp [renderArity, hone, hfive], hone, hfive⟩)
      · exact Or.inr (Or.inr ⟨d :: ds, rfl, by simp [renderArity, hfive]⟩)

theorem arityArguments_injective :
    ∀ n < 6, ∀ m < 6, arityArguments n = arityArguments m → n = m := by
  decide

/-- Arities that are shown alike are the same. -/
theorem IsArity.collapse_injective {a b : Chars} (ha : IsArity a) (hb : IsArity b)
    (h : collapseArity a = collapseArity b) : a = b := by
  have htick : tick ≠ '<' := by decide
  rcases ha.collapse_cases with ⟨rfl, ha⟩ | ⟨d, rfl, ha, hd, hd'⟩ | ⟨r, rfl, ha⟩ <;>
    rcases hb.collapse_cases with ⟨rfl, hb⟩ | ⟨e, rfl, hb, he, he'⟩ | ⟨t, rfl, hb⟩ <;>
    replace h := ha.symm.trans (h.trans hb)
  case inl.inl => rfl
  case inr.inl.inr.inl =>
    have hvalue := arityArguments_injective _ (by omega) _ (by omega) h
    rw [digitsValue_singleton, digitsValue_singleton] at hvalue
    rw [digitsValue_singleton] at hd he
    have hcode : d.toNat = e.toNat := by omega
    rw [Char.toNat_inj.mp hcode]
  case inr.inr.inr.inr => exact h
  all_goals exact absurd h (by simp [arityArguments, htick, htick.symm])

theorem nested_arityArguments (n : Nat) : Nested (arityArguments n) := by
  have hargs : ∀ part ∈ List.replicate n ['T'], Nested part := by
    intro part hpart
    rw [List.eq_of_mem_replicate hpart]
    exact .of_all rfl
  exact (Nested.joinWith hargs).angle .nil

theorem isPlain_of_isDigit {c : Char} (h : c.isDigit = true) : IsPlain c :=
  isPlain_of (by decide) h

namespace IsArity

variable {arity : Chars} (h : IsArity arity)

include h

theorem notMem {c : Char} (hdigit : c.isDigit = false) (htick : c ≠ tick) : c ∉ arity := by
  intro hc
  rcases h.of_mem hc with heq | heq
  · exact htick heq
  · rw [hdigit] at heq
    cases heq

theorem isBlank_eq_false {c : Char} (hc : c ∈ arity) : isBlank c = false := by
  have hblank : isBlank c = true → c.isDigit = false ∧ c ≠ tick :=
    Chars.of_isBlank (P := fun c => c.isDigit = false ∧ c ≠ tick) (by decide)
  by_contra hne
  obtain ⟨hdigit, htick⟩ := hblank (by simpa using hne)
  exact h.notMem hdigit htick hc

theorem nested : Nested arity := by
  refine .of_plain fun c hc => ?_
  rcases h.of_mem hc with rfl | hdigit
  · decide
  · exact isPlain_of_isDigit hdigit

theorem nested_collapse : Nested (collapseArity arity) := by
  rcases h.collapse_cases with ⟨-, hshown⟩ | ⟨d, -, hshown, -⟩ | ⟨r, heq, hshown⟩
  · rw [hshown]
    exact .nil
  · rw [hshown]
    exact nested_arityArguments _
  · rw [hshown, ← heq]
    exact h.nested

theorem dot_notMem_collapse : '.' ∉ collapseArity arity := by
  rcases h.collapse_cases with ⟨-, hshown⟩ | ⟨d, -, hshown, -⟩ | ⟨r, heq, hshown⟩
  · simp [hshown]
  · rw [hshown]
    exact fun hmem => absurd (mem_arityArguments hmem) (by decide)
  · rw [hshown, ← heq]
    exact h.notMem (by decide) (by decide)

/-- What is shown of an arity does not go on with the name in front of it. -/
theorem takeWhile_collapse :
    (collapseArity arity).takeWhile (fun c => c != '<' && c != tick) = [] := by
  rcases h.collapse_cases with ⟨-, hshown⟩ | ⟨d, -, hshown, -⟩ | ⟨r, -, hshown⟩ <;>
    simp [hshown, arityArguments]

end IsArity

namespace TypeParts

variable {raw base arity : Chars} (h : TypeParts raw base arity)

include h

theorem canonicalizeChars_eq : canonicalizeChars raw = base ++ collapseArity arity := by
  have hquiet : IsQuiet raw := by
    rw [h.raw_eq]
    refine ⟨h.quiet.nested.append h.arity.nested, ⟨?_, ?_⟩, ?_⟩
    · intro c hc
      rw [List.head?_append_of_ne_nil _ h.ne_nil] at hc
      exact h.quiet.trimmed.1 c hc
    · intro c hc
      rw [List.getLast?_append, Option.or_eq_some_iff] at hc
      rcases hc with hc | ⟨-, hc⟩
      · exact h.arity.isBlank_eq_false (List.mem_of_getLast? hc)
      · exact h.quiet.trimmed.2 c hc
    · intro c hc hforeign
      rcases List.mem_append.mp hc with hc | hc
      · exact h.quiet.absent c hc hforeign
      · simp only [separators, List.mem_cons, List.not_mem_nil, or_false] at hforeign
        rcases hforeign with rfl | rfl | rfl | rfl <;>
          exact h.arity.notMem (by decide) (by decide) hc
  have hshown : collapseArity raw = base ++ collapseArity arity := by
    rw [h.raw_eq, collapseArity_append_of_notMem h.tick]
  rw [hquiet.canonicalizeChars_eq (hshown ▸ h.quiet.nested.append h.arity.nested_collapse), hshown]

theorem dot_notMem : '.' ∉ base ++ collapseArity arity := by
  rw [List.mem_append, not_or]
  exact ⟨h.quiet.notMem (by decide), h.arity.dot_notMem_collapse⟩

end TypeParts

theorem escapeDots_eq_self {s : Chars} (h : '.' ∉ s) : escapeDots s = s := by
  refine (List.map_congr_left fun c hc => ?_).trans (List.map_id s)
  have hne : c ≠ '.' := fun heq => h (heq ▸ hc)
  simp [hne]

/-- A raw type name as metadata and sources have them. -/
def IsTypeText (raw : String) : Prop :=
  ∃ base arity, TypeParts raw.toList base arity

theorem TypeParts.toList_typeSegment {raw : String} {base arity : Chars}
    (h : TypeParts raw.toList base arity) :
    (typeSegment raw).toList = base ++ collapseArity arity := by
  rw [typeSegment, moduleSegment, canonicalize, String.toList_ofList, String.toList_ofList,
    h.canonicalizeChars_eq, escapeDots_eq_self h.dot_notMem]

theorem IsTypeText.nested {raw : String} (h : IsTypeText raw) : Nested (typeSegment raw).toList := by
  obtain ⟨base, arity, h⟩ := h
  rw [h.toList_typeSegment]
  exact h.quiet.nested.append h.arity.nested_collapse

theorem IsTypeText.isSegment {raw : String} (h : IsTypeText raw) : IsSegment (typeSegment raw) := by
  refine ⟨?_, h.nested.net_eq_zero, isUndotted_of_notMem ?_⟩
  · obtain ⟨base, arity, h⟩ := h
    intro hempty
    have hchars := h.toList_typeSegment
    rw [hempty] at hchars
    exact h.ne_nil (List.append_eq_nil_iff.mp hchars.symm).1
  · obtain ⟨base, arity, h⟩ := h
    rw [h.toList_typeSegment]
    exact h.dot_notMem

/-- Different types have different segments. -/
theorem typeSegment_injective {a b : String} (ha : IsTypeText a) (hb : IsTypeText b)
    (h : typeSegment a = typeSegment b) : a = b := by
  obtain ⟨base, arity, ha⟩ := ha
  obtain ⟨base', arity', hb⟩ := hb
  have hchars : base ++ collapseArity arity = base' ++ collapseArity arity' := by
    rw [← ha.toList_typeSegment, ← hb.toList_typeSegment, h]
  have hread : ∀ {raw base arity : Chars}, TypeParts raw base arity →
      (base ++ collapseArity arity).takeWhile (fun c => c != '<' && c != tick) = base := by
    intro raw base arity h
    rw [List.takeWhile_append_of_pos, h.arity.takeWhile_collapse, List.append_nil]
    intro c hc
    have hangle : c ≠ '<' := fun heq => h.angle (heq ▸ hc)
    have htick : c ≠ tick := fun heq => h.tick (heq ▸ hc)
    simp [hangle, htick]
  obtain rfl : base = base' := by rw [← hread ha, ← hread hb, hchars]
  have harity := ha.arity.collapse_injective hb.arity (List.append_cancel_left hchars)
  exact String.toList_injective (by rw [ha.raw_eq, hb.raw_eq, harity])

theorem map_typeSegment_injective {a b : List String} (ha : ∀ raw ∈ a, IsTypeText raw)
    (hb : ∀ raw ∈ b, IsTypeText raw) (h : a.map typeSegment = b.map typeSegment) : a = b := by
  induction a generalizing b with
  | nil => exact (List.map_eq_nil_iff.mp h.symm).symm
  | cons raw a ih =>
      obtain ⟨raw', b, rfl, hraw, hmore⟩ := List.map_eq_cons_iff.mp h.symm
      rw [typeSegment_injective (hb raw' List.mem_cons_self) (ha raw List.mem_cons_self) hraw,
        ih (fun r hr => ha r (List.mem_cons_of_mem raw hr))
          (fun r hr => hb r (List.mem_cons_of_mem raw' hr)) hmore.symm]

end CodeGraph.Name
