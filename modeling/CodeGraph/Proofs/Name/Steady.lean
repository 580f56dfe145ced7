import CodeGraph.Proofs.Name.Settled

namespace CodeGraph.Name

open CodeGraph.Text

/-!
# Steady texts

The first passes find nothing to change in a steady text. Such texts may be cut, and put together again
at a character that none of the passes looks for.
-/

/-- The first passes find nothing to change inside of the text. -/
structure Steady (s : Chars) : Prop where
  separated : Separated s
  segmented : Segmented s
  rendered : Rendered s

/-- A character at which steady texts may be put together. -/
def IsDelimiter (d : Char) : Prop :=
  EndsArity d ∧ d ≠ '<' ∧ d ≠ '.' ∧ d ≠ ':' ∧ d ≠ '/' ∧ d ≠ '+' ∧ isBlank d = false

instance (d : Char) : Decidable (IsDelimiter d) :=
  inferInstanceAs (Decidable (_ ∧ _))

namespace Steady

variable {a b s : Chars} {d : Char}

theorem nil : Steady [] := by
  refine ⟨⟨?_, by simp⟩, ?_, ?_⟩
  · simp [ColonsApart]
  · simp [Segmented]
  · rw [Rendered, collapseArity]

theorem right (h : Steady (a ++ d :: b)) (hd : EndsArity d) : Steady b := by
  have hin : b <:+: a ++ d :: b := ⟨a ++ [d], [], by simp⟩
  exact ⟨h.separated.part hin, h.segmented.part hin, ((rendered_append_iff hd).mp h.rendered).2⟩

theorem concat (h : Steady (a ++ d :: b)) (hd : EndsArity d) : Steady (a ++ [d]) := by
  have hin : a ++ [d] <:+: a ++ d :: b := ⟨[], b, by simp⟩
  exact ⟨h.separated.part hin, h.segmented.part hin, ((rendered_append_iff hd).mp h.rendered).1⟩

theorem left (h : Steady (a ++ d :: b)) (hd : EndsArity d) (hangle : d ≠ '<') : Steady a := by
  have hconcat := h.concat hd
  have hin : a <:+: a ++ [d] := ⟨[], [d], by simp⟩
  exact ⟨hconcat.separated.part hin, hconcat.segmented.part hin,
    (rendered_concat_iff hd hangle).mp hconcat.rendered⟩

/-- Two steady texts meet at a character that begins nothing in the second one. -/
theorem append (ha : Steady (a ++ [d])) (hb : Steady b) (hd : EndsArity d) (hcolon : d ≠ ':')
    (hdot : d = '.' → ∀ c, b.head? = some c → c ≠ '.' ∧ isBlank c = false) :
    Steady (a ++ d :: b) := by
  have hsplit : a ++ d :: b = (a ++ [d]) ++ b := by simp
  refine ⟨?_, ?_, (rendered_append_iff hd).mpr ⟨ha.rendered, hb.rendered⟩⟩
  · rw [hsplit]
    exact ha.separated.append hb.separated (Or.inl (by simpa using hcolon))
  · rw [hsplit]
    refine List.isChain_append.mpr ⟨ha.segmented, hb.segmented, ?_⟩
    rintro x hx y hy rfl
    obtain rfl : d = '.' := by simpa using hx
    exact hdot rfl y hy

theorem snoc (ha : Steady a) (hd : IsDelimiter d) : Steady (a ++ [d]) := by
  obtain ⟨harity, hangle, hdot, hcolon, hslash, hplus, hblank⟩ := hd
  refine ⟨?_, ?_, (rendered_concat_iff harity hangle).mpr ha.rendered⟩
  · refine ha.separated.append ⟨?_, ?_, ?_⟩ (Or.inr (by simpa using hcolon))
    · simp [ColonsApart]
    · simpa using hslash.symm
    · simpa using hplus.symm
  · refine List.isChain_append.mpr ⟨ha.segmented, by simp, ?_⟩
    rintro x - y hy -
    obtain rfl : d = y := by simpa using hy
    exact ⟨hdot, hblank⟩

theorem glue (ha : Steady a) (hb : Steady b) (hd : IsDelimiter d) : Steady (a ++ d :: b) :=
  (ha.snoc hd).append hb hd.1 hd.2.2.2.1 fun h => absurd h hd.2.2.1

theorem endsArity_of_isBlank (hd : isBlank d = true) : EndsArity d ∧ d ≠ '<' :=
  Chars.of_isBlank (P := fun d => EndsArity d ∧ d ≠ '<') (by decide) hd

theorem trim (h : Steady s) : Steady (Chars.trim s) := by
  obtain ⟨b, e, hs, hb, he⟩ := Chars.trim_append s
  have hrest : Steady (Chars.trim s ++ e) := by
    rcases List.eq_nil_or_concat b with rfl | ⟨b, c, rfl⟩
    · rw [hs] at h
      exact h
    · have hc := endsArity_of_isBlank (hb c (by simp))
      rw [hs] at h
      exact Steady.right (a := b) (d := c) (by simpa using h) hc.1
  cases e with
  | nil => simpa using hrest
  | cons c e =>
      have hc := endsArity_of_isBlank (he c List.mem_cons_self)
      exact hrest.left hc.1 hc.2

theorem joinWith {parts : List Chars} (h : ∀ part ∈ parts, Steady part) :
    Steady (Chars.joinWith [','] parts) := by
  induction parts with
  | nil => exact .nil
  | cons part parts ih =>
      have hmore := ih fun p hp => h p (List.mem_cons_of_mem part hp)
      cases parts with
      | nil => exact h part List.mem_cons_self
      | cons next parts =>
          rw [Chars.joinWith, List.append_assoc]
          exact (h part List.mem_cons_self).glue hmore (by decide)

theorem of_mem_joinWith {parts : List Chars} (h : Steady (Chars.joinWith [','] parts)) :
    ∀ part ∈ parts, Steady part := by
  induction parts with
  | nil => simp
  | cons first parts ih =>
      cases parts with
      | nil => simpa [Chars.joinWith] using h
      | cons next parts =>
          rw [Chars.joinWith, List.append_assoc] at h
          intro part hpart
          rcases List.mem_cons.mp hpart with rfl | hpart
          · exact Steady.left (d := ',') h (by decide) (by decide)
          · exact ih (Steady.right (d := ',') h (by decide)) part hpart

/-- Cutting a type down opens nothing to the first passes. -/
theorem simplify (hn : Nested s) (hs : Steady s) : Steady (simplifyTypeChars s) := by
  refine simplify_induction (P := fun s r => Steady s → Steady r) ?_ ?_ hn hs
  · intro s base suffix heq _ _ _ _ hs
    obtain ⟨q, hbase, -, hq⟩ := lastDotted_cut base
    have hcut : Chars.trim s = q ++ (lastDotted base ++ suffix) := by
      rw [heq, ← List.append_assoc, ← hbase]
    have htrim := hs.trim
    rw [hcut] at htrim
    rcases hq with rfl | ⟨x, rfl⟩
    · exact htrim
    · exact Steady.right (a := x) (d := '.') (by simpa using htrim) (by decide)
  · intro s base suffix parts heq _ _ _ _ _ ih hs
    obtain ⟨q, hbase, -, hq⟩ := lastDotted_cut base
    have htrim := hs.trim
    rw [heq] at htrim
    have hopen : Steady (lastDotted base ++ ['<']) := by
      have hwhole := htrim.concat (by decide)
      rcases hq with rfl | ⟨x, rfl⟩
      · rwa [hbase] at hwhole
      · refine Steady.right (a := x) (d := '.') ?_ (by decide)
        rw [hbase] at hwhole
        simpa using hwhole
    have hinner := htrim.right (by decide)
    have hargs : Steady (Chars.joinWith [','] (parts.map simplifyTypeChars)) := by
      refine joinWith fun a ha => ?_
      obtain ⟨part, hpart, rfl⟩ := List.mem_map.mp ha
      exact ih part hpart ((hinner.left (by decide) (by decide)).of_mem_joinWith part hpart)
    exact hopen.append (hargs.glue (hinner.right (by decide)) (by decide)) (by decide) (by decide)
      (by simp)

/-- The verb of an accessor may be left out. -/
theorem dropVerb {pre verb x : Chars} (h : Steady (pre ++ (verb ++ '_' :: x)))
    (hpre : ∀ d, pre.getLast? = some d → EndsArity d ∧ d ≠ ':' ∧
      (d = '.' → ∀ c, x.head? = some c → c ≠ '.' ∧ isBlank c = false)) : Steady (pre ++ x) := by
  have hx : Steady x := Steady.right (a := pre ++ verb) (d := '_') (by simpa using h) (by decide)
  rcases List.eq_nil_or_concat pre with rfl | ⟨y, d, rfl⟩
  · exact hx
  · obtain ⟨hd, hcolon, hdot⟩ := hpre d (by simp)
    have hy : Steady (y ++ [d]) := Steady.concat (b := verb ++ '_' :: x) (by simpa using h) hd
    simpa using hy.append hx hd hcolon hdot

end Steady

/-- A trimmed text in which the first passes find nothing stays as it is. -/
theorem settle_eq_self {s : Chars} (h : Steady s) (hranks : RanksOnly s) (ht : Chars.IsTrimmed s)
    (hhead : s.head? ≠ some '.') : settle s = s := by
  have hcolons : ¬ [':', ':'] <:+: s := by
    intro hin
    have hchain := h.separated.colons.part hin
    simp [ColonsApart] at hchain
  rw [settle, Chars.trim_eq_self ht, stripScopes_eq_self hranks,
    normalizeSeparators_eq_self hcolons h.separated.slashes h.segmented hhead, h.rendered]

end CodeGraph.Name
