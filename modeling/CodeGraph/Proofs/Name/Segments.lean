import CodeGraph.Name.Canonical
import CodeGraph.Proofs.Text.Fields

namespace CodeGraph.Name

open CodeGraph.Text

/-!
# Names as paths of segments

Segments are put together with dots, and a name is cut again at its last dot outside brackets. That
dot is the one that was put in last, when the brackets before it are balanced and none of the dots
behind it stands outside brackets.
-/

/-! ## Depth -/

/-- Brackets that a text opens, less those that it closes. -/
def net (s : Chars) : Int :=
  s.foldl depthAfter 0

/-- As many brackets are opened as closed. -/
def Balanced (s : String) : Prop :=
  net s.toList = 0

instance (s : String) : Decidable (Balanced s) :=
  inferInstanceAs (Decidable (_ = _))

/-- No dot stands outside brackets. -/
def IsUndotted (s : String) : Prop :=
  ∀ a b, s.toList = a ++ '.' :: b → net a ≠ 0

theorem depthAfter_eq_add (depth : Int) (c : Char) :
    depthAfter depth c = depth + depthAfter 0 c := by
  unfold depthAfter
  split
  · omega
  · split <;> omega

theorem foldl_depthAfter (depth : Int) (s : Chars) : s.foldl depthAfter depth = depth + net s := by
  induction s generalizing depth with
  | nil => simp [net]
  | cons c s ih =>
      rw [net, List.foldl_cons, List.foldl_cons, ih, ih (depthAfter 0 c), depthAfter_eq_add depth]
      omega

@[simp] theorem net_nil : net [] = 0 := rfl

theorem net_cons (c : Char) (s : Chars) : net (c :: s) = depthAfter 0 c + net s := by
  rw [net, List.foldl_cons, foldl_depthAfter]

theorem net_append (a b : Chars) : net (a ++ b) = net a + net b := by
  rw [net, List.foldl_append, foldl_depthAfter]
  rfl

theorem net_escapeDots (s : Chars) : net (escapeDots s) = net s := by
  induction s with
  | nil => rfl
  | cons c s ih =>
      have hc : depthAfter 0 (if c = '.' then '*' else c) = depthAfter 0 c := by
        by_cases h : c = '.'
        · subst h
          decide
        · simp [h]
      have hcons : escapeDots (c :: s) = (if c = '.' then '*' else c) :: escapeDots s := rfl
      rw [hcons, net_cons, net_cons, hc, ih]

/-! ## The last dot -/

theorem lastDot?_eq_none_iff {depth : Int} {s : Chars} :
    lastDot? depth s = none ↔ ∀ a b, s = a ++ '.' :: b → depth + net a ≠ 0 := by
  induction s generalizing depth with
  | nil => simp [lastDot?]
  | cons c s ih =>
      constructor
      · intro h a b hab
        simp only [lastDot?] at h
        cases hlast : lastDot? (depthAfter depth c) s with
        | some cut => simp [hlast] at h
        | none =>
            simp only [hlast, ite_eq_right_iff, reduceCtorEq, imp_false, not_and] at h
            cases a with
            | nil =>
                obtain ⟨rfl, -⟩ := List.cons.inj hab
                simpa using h rfl
            | cons d a =>
                obtain ⟨rfl, hs⟩ := List.cons.inj hab
                have hne := ih.mp hlast a b hs
                rw [depthAfter_eq_add] at hne
                rw [net_cons]
                omega
      · intro h
        have hmore : lastDot? (depthAfter depth c) s = none := by
          refine ih.mpr fun a b hs => ?_
          have hne := h (c :: a) b (by rw [hs]; rfl)
          rw [net_cons] at hne
          rw [depthAfter_eq_add]
          omega
        have hhead : ¬ (c = '.' ∧ depth = 0) := by
          rintro ⟨rfl, rfl⟩
          exact h [] s rfl (by simp)
        simp [lastDot?, hmore, hhead]

theorem lastDot?_eq_some {depth : Int} {s a b : Chars} (h : lastDot? depth s = some (a, b)) :
    s = a ++ '.' :: b ∧ depth + net a = 0 ∧ lastDot? 0 b = none := by
  induction s generalizing depth a with
  | nil => simp [lastDot?] at h
  | cons c s ih =>
      rw [lastDot?] at h
      cases hmore : lastDot? (depthAfter depth c) s with
      | some cut =>
          obtain ⟨x, y⟩ := cut
          simp only [hmore, Option.some.injEq, Prod.mk.injEq] at h
          obtain ⟨rfl, rfl⟩ := h
          obtain ⟨rfl, hnet, hlast⟩ := ih hmore
          refine ⟨rfl, ?_, hlast⟩
          rw [depthAfter_eq_add] at hnet
          rw [net_cons]
          omega
      | none =>
          simp only [hmore] at h
          obtain ⟨⟨rfl, rfl⟩, heq⟩ := Option.ite_some_none_eq_some.mp h
          obtain ⟨rfl, rfl⟩ := Prod.mk.inj heq
          have hdot : depthAfter 0 '.' = 0 := by decide
          rw [hdot] at hmore
          exact ⟨rfl, by simp, hmore⟩

theorem isUndotted_iff {s : String} : IsUndotted s ↔ lastDot? 0 s.toList = none := by
  simp [IsUndotted, lastDot?_eq_none_iff]

instance (s : String) : Decidable (IsUndotted s) :=
  decidable_of_iff _ isUndotted_iff.symm

/-- A dot with balanced brackets before it and no dot outside brackets behind it is the last one. -/
theorem lastDot?_append {depth : Int} {a b : Chars} (ha : depth + net a = 0)
    (hb : lastDot? 0 b = none) :
    lastDot? depth (a ++ '.' :: b) = some (a, b) := by
  induction a generalizing depth with
  | nil =>
      obtain rfl : depth = 0 := by simpa using ha
      have hdot : depthAfter 0 '.' = 0 := by decide
      simp [lastDot?, hdot, hb]
  | cons c a ih =>
      rw [net_cons] at ha
      have hmore : depthAfter depth c + net a = 0 := by
        rw [depthAfter_eq_add]
        omega
      rw [List.cons_append, lastDot?, ih hmore]

/-! ## Joining -/

theorem toList_join (a b : String) : (join a b).toList = joinChars a.toList b.toList := by
  simp [join]

theorem toList_ne_nil {s : String} (h : s ≠ "") : s.toList ≠ [] :=
  fun hs => h (String.toList_eq_nil_iff.mp hs)

theorem joinChars_of_ne_nil {a b : Chars} (ha : a ≠ []) (hb : b ≠ []) :
    joinChars a b = a ++ '.' :: b := by
  simp [joinChars, ha, hb]

theorem joinChars_assoc (a b c : Chars) :
    joinChars (joinChars a b) c = joinChars a (joinChars b c) := by
  cases a <;> cases b <;> cases c <;> simp [joinChars]

theorem canonicalize_empty : canonicalize "" = "" := by
  decide +kernel

@[simp] theorem join_empty_left (a : String) : join "" a = a := by
  simp [join, joinChars]

@[simp] theorem join_empty_right (a : String) : join a "" = a := by
  by_cases h : a.toList = [] <;> simp_all [join, joinChars]

theorem join_assoc (a b c : String) : join (join a b) c = join a (join b c) := by
  simp [join, joinChars_assoc]

theorem join_ne_empty {a b : String} (h : a ≠ "" ∨ b ≠ "") : join a b ≠ "" := by
  intro hjoin
  have hchars : joinChars a.toList b.toList = [] := by rw [← toList_join, hjoin]; rfl
  by_cases ha : a = ""
  · subst ha
    rw [join_empty_left] at hjoin
    exact h.elim (fun h => h rfl) fun h => h hjoin
  · by_cases hb : b = ""
    · subst hb
      rw [join_empty_right] at hjoin
      exact ha hjoin
    · simp [joinChars_of_ne_nil (toList_ne_nil ha) (toList_ne_nil hb)] at hchars

theorem Balanced.join {a b : String} (ha : Balanced a) (hb : Balanced b) : Balanced (join a b) := by
  unfold Balanced at ha hb ⊢
  rw [toList_join, joinChars]
  split
  · exact hb
  · split
    · exact ha
    · have hdot : depthAfter 0 '.' = 0 := by decide
      rw [net_append, net_cons, hdot, ha, hb]
      rfl

/-- What a join put before its dot is what is above the name. -/
theorem parent_join {a b : String} (ha : a ≠ "") (hb : b ≠ "") (hbalanced : Balanced a)
    (hundotted : IsUndotted b) :
    parent (join a b) = a := by
  have hcut : lastDot? 0 (a.toList ++ '.' :: b.toList) = some (a.toList, b.toList) :=
    lastDot?_append (by simpa [Balanced] using hbalanced) (isUndotted_iff.mp hundotted)
  rw [parent, toList_join, joinChars_of_ne_nil (toList_ne_nil ha) (toList_ne_nil hb), splitLast,
    hcut]
  simp

example : parent "N.A.Run(List<B.C>)" = "N.A" := by decide +kernel

theorem isAbove_join {a b : String} (ha : a ≠ "") (hb : b ≠ "") : isAbove a (join a b) = true := by
  obtain ⟨c, r, hr⟩ := List.exists_cons_of_ne_nil (toList_ne_nil hb)
  have hdrop : Chars.dropPrefix? a.toList (join a b).toList = some ('.' :: c :: r) := by
    rw [Chars.dropPrefix?_eq_some_iff, toList_join, joinChars_of_ne_nil (toList_ne_nil ha)
      (toList_ne_nil hb), hr]
  simp [isAbove, ha, hdrop]

theorem isAbove_self (a : String) : isAbove a a = false := by
  have hdrop : Chars.dropPrefix? a.toList a.toList = some [] := by
    rw [Chars.dropPrefix?_eq_some_iff, List.append_nil]
  simp [isAbove, hdrop]

/-! ## Paths -/

theorem foldl_join {α : Type} (f : α → String) (root first : String) (l : List α) :
    l.foldl (fun path x => join path (f x)) (join root first) =
      join root (l.foldl (fun path x => join path (f x)) first) := by
  induction l generalizing first with
  | nil => rfl
  | cons x l ih => rw [List.foldl_cons, List.foldl_cons, join_assoc, ih]

theorem moduleSegment_ne_empty {s : String} (h : s ≠ "") : moduleSegment s ≠ "" := by
  intro hs
  have hnil : escapeDots s.toList = [] := by simpa [moduleSegment] using congrArg String.toList hs
  exact toList_ne_nil h (List.map_eq_nil_iff.mp hnil)

theorem typePath_append (ns : String) (nesting : List String) (raw : String) :
    typePath ns (nesting ++ [raw]) = join (typePath ns nesting) (typeSegment raw) := by
  simp [typePath]

theorem typePath_ne_empty {ns : String} {nesting : List String} (hne : nesting ≠ [])
    (h : ∀ raw ∈ nesting, canonicalize raw ≠ "") : typePath ns nesting ≠ "" := by
  obtain ⟨init, raw, rfl⟩ := (List.eq_nil_or_concat nesting).resolve_left hne
  rw [List.concat_eq_append, typePath_append]
  exact join_ne_empty (Or.inr (moduleSegment_ne_empty (h raw (by simp))))

theorem typePath_eq_join (ns : String) (nesting : List String) :
    typePath ns nesting = join ns (typePath "" nesting) := by
  have h := foldl_join typeSegment ns "" nesting
  rwa [join_empty_right] at h

/-- A raw type name that can be a part of a name. -/
structure IsTypeName (raw : String) : Prop where
  ne_empty : canonicalize raw ≠ ""
  balanced : Balanced (canonicalize raw)

instance (raw : String) : Decidable (IsTypeName raw) :=
  decidable_of_iff (canonicalize raw ≠ "" ∧ Balanced (canonicalize raw))
    ⟨fun h => ⟨h.1, h.2⟩, fun h => ⟨h.ne_empty, h.balanced⟩⟩

theorem Balanced.moduleSegment {s : String} (h : Balanced s) : Balanced (moduleSegment s) := by
  unfold Balanced at h ⊢
  simpa [Name.moduleSegment, net_escapeDots] using h

theorem foldl_join_balanced {α : Type} {f : α → String} {l : List α} (h : ∀ x ∈ l, Balanced (f x))
    {root : String}
    (hroot : Balanced root) : Balanced (l.foldl (fun path x => join path (f x)) root) := by
  induction l generalizing root with
  | nil => exact hroot
  | cons x l ih =>
      exact ih (fun y hy => h y (List.mem_cons_of_mem x hy)) (hroot.join (h x List.mem_cons_self))

theorem typePath_balanced {ns : String} {nesting : List String} (hns : Balanced ns)
    (h : ∀ raw ∈ nesting, IsTypeName raw) : Balanced (typePath ns nesting) :=
  foldl_join_balanced (fun raw hraw => (h raw hraw).balanced.moduleSegment) hns

/-! ## Namespaces -/

/-- A namespace is empty, or a path of parts that are not empty and in which brackets are balanced. -/
def IsNamespace (ns : String) : Prop :=
  ns = "" ∨ ∀ part ∈ splitBy (· == '.') ns, part ≠ "" ∧ Balanced part

instance (ns : String) : Decidable (IsNamespace ns) :=
  inferInstanceAs (Decidable (_ ∨ _))

theorem joinWith_splitBy (s : Chars) : Chars.joinWith ['.'] (Chars.splitBy (· == '.') s) = s :=
  Chars.joinWith_splitBy (fun _ hc => beq_iff_eq.mp hc) s

theorem dot_notMem_of_mem_splitBy {s part : Chars} (h : part ∈ Chars.splitBy (· == '.') s) :
    '.' ∉ part :=
  Chars.notMem_of_mem_splitBy rfl h

theorem foldl_joinChars {parts : List Chars} (h : ∀ part ∈ parts, part ≠ []) (a : Chars) :
    parts.foldl joinChars a = joinChars a (Chars.joinWith ['.'] parts) := by
  induction parts generalizing a with
  | nil => cases a <;> simp [joinChars, Chars.joinWith]
  | cons part parts ih =>
      have hmore : ∀ p ∈ parts, p ≠ [] := fun p hp => h p (List.mem_cons_of_mem part hp)
      have hpart : part ≠ [] := h part List.mem_cons_self
      have hjoin : Chars.joinWith ['.'] (part :: parts) =
          joinChars part (Chars.joinWith ['.'] parts) := by
        cases parts with
        | nil => simp [Chars.joinWith, joinChars, hpart]
        | cons q parts =>
            have hq : Chars.joinWith ['.'] (q :: parts) ≠ [] := by
              have hne : q ≠ [] := hmore q List.mem_cons_self
              cases parts <;> simp [Chars.joinWith, hne]
            rw [joinChars_of_ne_nil hpart hq]
            simp [Chars.joinWith]
      rw [List.foldl_cons, ih hmore, joinChars_assoc, hjoin]

theorem toList_foldl_join (segments : List String) (root : String) :
    (segments.foldl join root).toList = (segments.map String.toList).foldl joinChars root.toList := by
  induction segments generalizing root with
  | nil => rfl
  | cons s segments ih => rw [List.foldl_cons, List.map_cons, List.foldl_cons, ih, toList_join]

theorem foldl_join_splitBy {ns : String} (h : ∀ part ∈ splitBy (· == '.') ns, part ≠ "")
    (root : String) :
    (splitBy (· == '.') ns).foldl join root = join root ns := by
  have hparts : ∀ part ∈ Chars.splitBy (· == '.') ns.toList, part ≠ [] := by
    rintro part hpart rfl
    exact h "" (List.mem_map.mpr ⟨[], hpart, rfl⟩) rfl
  have hchars : (splitBy (· == '.') ns).map String.toList = Chars.splitBy (· == '.') ns.toList := by
    simp [splitBy]
  apply String.toList_injective
  rw [toList_foldl_join, hchars, foldl_joinChars hparts, joinWith_splitBy, toList_join]

theorem IsNamespace.balanced {ns : String} (h : IsNamespace ns) : Balanced ns := by
  rcases h with rfl | h
  · decide
  · rw [← join_empty_left ns, ← foldl_join_splitBy (fun part hpart => (h part hpart).1) ""]
    exact foldl_join_balanced (fun part hpart => (h part hpart).2) (by decide)

theorem isUndotted_of_notMem {s : String} (h : '.' ∉ s.toList) : IsUndotted s := by
  intro a b hab
  exact absurd (by simp [hab]) h

end CodeGraph.Name
