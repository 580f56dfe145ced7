import CodeGraph.Proofs.Name.Paths
import CodeGraph.Proofs.Text.Cuts
import Mathlib.Logic.Function.Iterate

namespace CodeGraph.Name

open CodeGraph.Text

/-!
# Ancestors of names

A name is a path of segments, and what is at or above it are the paths that its segments begin with. For
names of that kind this is a matter of text: one lies at or above another if and only if the two are equal
or the first is followed by a dot in the second, although dots may stand between brackets.
-/

/-- The name that a list of segments makes. -/
def pathName (segments : List String) : String :=
  segments.foldl join ""

/-- A list of segments that makes a name. -/
def IsPath (segments : List String) : Prop :=
  ∀ segment ∈ segments, IsSegment segment

instance (segments : List String) : Decidable (IsPath segments) :=
  inferInstanceAs (Decidable (∀ segment ∈ segments, IsSegment segment))

/-- The name is a dotted list of segments. -/
def HasSegments (name : String) : Prop :=
  ∃ segments, segments ≠ [] ∧ IsPath segments ∧ pathName segments = name

/-- The segments of the one name are the first segments of the other. -/
def AtOrAbove (above name : String) : Prop :=
  ∃ segments more, segments ≠ [] ∧ IsPath (segments ++ more) ∧ pathName segments = above ∧
    pathName (segments ++ more) = name

namespace IsPath

variable {a b : List String} {s : String}

theorem left (h : IsPath (a ++ b)) : IsPath a :=
  fun segment hs => h segment (List.mem_append_left b hs)

theorem of_start (h : IsPath b) (hab : a <+: b) : IsPath a :=
  fun segment hs => h segment (hab.subset hs)

end IsPath

theorem pathName_concat (segments : List String) (s : String) :
    pathName (segments ++ [s]) = join (pathName segments) s :=
  List.foldl_append

theorem pathName_append (a b : List String) : pathName (a ++ b) = join (pathName a) (pathName b) := by
  have h := foldl_join id (pathName a) "" b
  rw [join_empty_right] at h
  exact List.foldl_append.trans h

theorem pathName_ne_empty {segments : List String} (h : IsPath segments) (hne : segments ≠ []) :
    pathName segments ≠ "" := by
  obtain ⟨first, more, rfl⟩ := List.exists_cons_of_ne_nil hne
  rw [pathName, List.foldl_cons, join_empty_left]
  exact foldl_join_ne_empty (h first List.mem_cons_self).ne_empty more

theorem pathName_balanced {segments : List String} (h : IsPath segments) : Balanced (pathName segments) :=
  foldl_join_balanced (f := id) (fun s hs => (h s hs).balanced) (by decide)

/-- A path has at least as many characters as segments. -/
theorem length_le_pathName {segments : List String} (h : IsPath segments) :
    segments.length ≤ (pathName segments).length := by
  induction segments using List.reverseRecOn with
  | nil => exact Nat.zero_le _
  | append_singleton segments s ih =>
      have hs := h s (by simp)
      have hbefore := ih h.left
      rw [pathName_concat]
      have hlength : (pathName segments).length + 1 ≤ (join (pathName segments) s).length := by
        rw [← String.length_toList, ← String.length_toList, toList_join]
        have hchars := List.length_pos_iff.mpr (toList_ne_nil hs.ne_empty)
        unfold joinChars
        split
        · next hempty =>
            rw [List.isEmpty_iff] at hempty
            rw [hempty, List.length_nil]
            omega
        · next hempty =>
            rw [if_neg (by simpa using hs.ne_empty)]
            simp only [List.length_append, List.length_cons]
            omega
      simp only [List.length_append, List.length_singleton]
      omega

theorem parent_pathName {segments : List String} {s : String} (h : IsPath (segments ++ [s])) :
    parent (pathName (segments ++ [s])) = pathName segments := by
  have hs := h s (by simp)
  rw [pathName_concat]
  by_cases hne : segments = []
  · subst hne
    have hlast := isUndotted_iff.mp hs.undotted
    change parent (join "" s) = ""
    rw [join_empty_left, parent, splitLast, hlast]
    rfl
  · exact parent_join (pathName_ne_empty h.left hne) hs.ne_empty (pathName_balanced h.left) hs.undotted

theorem lastSegment_pathName {segments : List String} {s : String} (h : IsPath (segments ++ [s])) :
    lastSegment (pathName (segments ++ [s])) = s := by
  have hs := h s (by simp)
  have hlast := isUndotted_iff.mp hs.undotted
  rw [pathName_concat]
  by_cases hne : segments = []
  · subst hne
    change lastSegment (join "" s) = s
    rw [join_empty_left, lastSegment, splitLast, hlast]
    exact String.ofList_toList
  · have habove := pathName_ne_empty h.left hne
    have hcut : lastDot? 0 ((pathName segments).toList ++ '.' :: s.toList) =
        some ((pathName segments).toList, s.toList) :=
      lastDot?_append (by simpa [Balanced] using pathName_balanced h.left) hlast
    rw [lastSegment, toList_join, joinChars_of_ne_nil (toList_ne_nil habove) (toList_ne_nil hs.ne_empty),
      splitLast, hcut]
    exact String.ofList_toList

/-- Segments are put together with dots. -/
theorem pathName_eq_joinWith {segments : List String} (h : IsPath segments) :
    pathName segments = joinWith "." segments := by
  have hparts : ∀ part ∈ segments.map String.toList, part ≠ [] := by
    intro part hpart
    obtain ⟨s, hs, rfl⟩ := List.mem_map.mp hpart
    exact toList_ne_nil (h s hs).ne_empty
  apply String.toList_injective
  rw [pathName, toList_foldl_join, foldl_joinChars hparts, Chars.toList_joinWith]
  rfl

/-- A name is made by one list of segments only. -/
theorem pathName_injective {a b : List String} (ha : IsPath a) (hb : IsPath b)
    (h : pathName a = pathName b) : a = b := by
  have hroot : ∀ l : List String, l.foldl join "x" = join "x" (pathName l) := by
    intro l
    have hjoin := foldl_join id "x" "" l
    rwa [join_empty_right] at hjoin
  have hx : "x" ≠ "" ∧ Balanced "x" := ⟨by decide, by decide⟩
  apply foldl_join_injective hx ha hb
  rw [hroot, hroot, h]

/-! ## Ancestors by their text -/

/-- What lies above a name and is not the name itself lies above its last segment, in which no dot stands
outside brackets. -/
theorem IsWithin.of_join {a b s : String} (h : IsWithin a (join b s)) (hne : a ≠ join b s)
    (ha : Balanced a) (hb : Balanced b) (hs : IsSegment s) : IsWithin a b := by
  obtain ⟨rest, hrest⟩ : ∃ rest, (join b s).toList = a.toList ++ '.' :: rest := by
    obtain ⟨behind, hbehind⟩ := h
    rcases List.eq_nil_or_concat behind with rfl | ⟨rest, last, rfl⟩
    · rw [List.append_nil] at hbehind
      exact absurd (String.toList_injective (List.append_cancel_right hbehind)) hne
    · rw [List.concat_eq_append, ← List.append_assoc] at hbehind
      refine ⟨rest, ?_⟩
      rw [← (List.append_inj' hbehind rfl).1, List.append_assoc]
      rfl
  unfold Balanced at ha hb
  by_cases hbempty : b = ""
  · subst hbempty
    rw [join_empty_left] at hrest
    exact absurd ha (hs.undotted _ _ hrest)
  · rw [toList_join, joinChars_of_ne_nil (toList_ne_nil hbempty) (toList_ne_nil hs.ne_empty)] at hrest
    unfold IsWithin
    rcases List.append_eq_append_iff.mp hrest with ⟨x, hx, hsx⟩ | ⟨x, hx, -⟩
    · cases x with
      | nil => exact ⟨[], by simp [hx]⟩
      | cons c x =>
          -- the dot would stand in the last segment
          obtain ⟨rfl, hs'⟩ := List.cons.inj hsx
          have hdot : depthAfter 0 '.' = 0 := by decide
          rw [hx, net_append, net_cons, hb, hdot] at ha
          exact absurd (by omega) (hs.undotted x rest hs')
    · cases x with
      | nil => exact ⟨[], by simp [hx]⟩
      | cons c x =>
          have hdot : c = '.' := by
            have hcut := hrest
            rw [hx, List.append_assoc] at hcut
            exact (List.cons.inj (List.append_cancel_left hcut)).1
          rw [hx, hdot]
          exact ⟨x ++ ['.'], by simp⟩

theorem start_of_isWithin {a b : List String} (ha : IsPath a) (hne : a ≠ []) (hb : IsPath b)
    (h : IsWithin (pathName a) (pathName b)) : a <+: b := by
  induction b using List.reverseRecOn with
  | nil =>
      -- only the empty name lies within the empty name
      have hlength := List.IsPrefix.length_le h
      have hchars := List.length_pos_iff.mpr (toList_ne_nil (pathName_ne_empty ha hne))
      simp only [pathName, List.foldl_nil, List.length_append, List.length_singleton,
        String.toList_empty, List.length_nil] at hlength hchars
      omega
  | append_singleton b s ih =>
      by_cases heq : pathName a = pathName (b ++ [s])
      · exact pathName_injective ha hb heq ▸ List.prefix_rfl
      · rw [pathName_concat] at h heq
        have habove :=
          h.of_join heq (pathName_balanced ha) (pathName_balanced hb.left) (hb s (by simp))
        exact (ih hb.left habove).trans (List.prefix_append b [s])

/-- Textual and hierarchical order of names agree. -/
theorem eq_or_isAbove_iff {a b : List String} (ha : IsPath a) (hne : a ≠ []) (hb : IsPath b) :
    pathName a = pathName b ∨ isAbove (pathName a) (pathName b) = true ↔ a <+: b := by
  constructor
  · rintro (heq | habove)
    · exact pathName_injective ha hb heq ▸ List.prefix_rfl
    · apply start_of_isWithin ha hne hb
      unfold isAbove at habove
      obtain ⟨-, hdrop⟩ := Bool.and_eq_true_iff.mp habove
      split at hdrop
      · next c rest hcut =>
          unfold IsWithin
          rw [Chars.dropPrefix?_eq_some_iff.mp hcut]
          exact ⟨c :: rest ++ ['.'], by simp⟩
      · cases hdrop
  · rintro ⟨more, rfl⟩
    by_cases hmore : more = []
    · left
      rw [hmore, List.append_nil]
    · right
      rw [pathName_append]
      apply isAbove_join (pathName_ne_empty ha hne)
      exact pathName_ne_empty (fun s hs => hb s (List.mem_append_right a hs)) hmore

theorem atOrAbove_iff {a b : List String} (ha : IsPath a) (hne : a ≠ []) (hb : IsPath b) :
    AtOrAbove (pathName a) (pathName b) ↔ a <+: b := by
  constructor
  · rintro ⟨c, more, -, hpath, habove, hname⟩
    obtain rfl := pathName_injective hpath.left ha habove
    exact ⟨more, pathName_injective hpath hb hname⟩
  · rintro ⟨more, rfl⟩
    exact ⟨a, more, hne, hb, rfl, rfl⟩

theorem AtOrAbove.exists_start {above : String} {b : List String} (hb : IsPath b)
    (h : AtOrAbove above (pathName b)) : ∃ a, a ≠ [] ∧ a <+: b ∧ pathName a = above := by
  obtain ⟨a, more, hne, hpath, habove, hname⟩ := h
  exact ⟨a, hne, ⟨more, pathName_injective hpath hb hname⟩, habove⟩

theorem AtOrAbove.antisymm {a b : String} (h : AtOrAbove a b) (h' : AtOrAbove b a) : a = b := by
  obtain ⟨segments, more, hne, hpath, rfl, rfl⟩ := h
  have hback := (atOrAbove_iff hpath (List.append_ne_nil_of_left_ne_nil hne more) hpath.left).mp h'
  have heq : segments = segments ++ more :=
    (List.prefix_append segments more).eq_of_length_le hback.length_le
  exact congrArg pathName heq

/-! ## Ancestors by their parents -/

/-- Going from a name to its parent, from there to the parent's parent and so on leads to `above`. -/
def IsAncestor (above name : String) : Prop :=
  ∃ k, parent^[k + 1] name = above

/-- Each step to the parent leaves out the last segment. -/
theorem iterate_parent_pathName {b : List String} (hb : IsPath b) (k : Nat) :
    parent^[k] (pathName b) = pathName (b.take (b.length - k)) := by
  induction k with
  | zero => simp
  | succ k ih =>
      rw [Function.iterate_succ_apply', ih]
      cases hrest : b.length - k with
      | zero =>
          have hnone : b.length - (k + 1) = 0 := by omega
          rw [hnone, List.take_zero]
          decide
      | succ n =>
          have hn : n < b.length := by omega
          have hless : b.length - (k + 1) = n := by omega
          have hpath : IsPath (b.take n ++ [b[n]]) := by
            rw [List.take_append_getElem]
            exact hb.of_start (List.take_prefix _ _)
          rw [hless, ← List.take_append_getElem hn, parent_pathName hpath]

theorem iterate_parent_eq_empty_iff {b : List String} (hb : IsPath b) (k : Nat) :
    parent^[k] (pathName b) = "" ↔ b.length ≤ k := by
  rw [iterate_parent_pathName hb]
  constructor
  · intro hempty
    by_contra hless
    have hne : b.take (b.length - k) ≠ [] := by
      rw [← List.length_pos_iff, List.length_take]
      omega
    exact pathName_ne_empty (hb.of_start (List.take_prefix _ b)) hne hempty
  · intro hle
    rw [Nat.sub_eq_zero_of_le hle, List.take_zero]
    rfl

theorem isAncestor_iff {a b : List String} (ha : IsPath a) (hne : a ≠ []) (hb : IsPath b) :
    IsAncestor (pathName a) (pathName b) ↔ a <+: b ∧ a ≠ b := by
  constructor
  · rintro ⟨k, hk⟩
    rw [iterate_parent_pathName hb] at hk
    have hstart := List.take_prefix (b.length - (k + 1)) b
    obtain rfl := pathName_injective (hb.of_start hstart) ha hk
    refine ⟨hstart, fun heq => hne ?_⟩
    have hlength := congrArg List.length heq
    rw [List.length_take] at hlength
    exact List.length_eq_zero_iff.mp (by rw [List.length_take]; omega)
  · rintro ⟨hstart, hab⟩
    have hless : a.length < b.length :=
      Nat.lt_of_le_of_ne hstart.length_le fun heq => hab (hstart.eq_of_length heq)
    refine ⟨b.length - a.length - 1, ?_⟩
    have hlength : b.length - (b.length - a.length - 1 + 1) = a.length := by omega
    rw [iterate_parent_pathName hb, hlength, ← List.prefix_iff_eq_take.mp hstart]

/-- A name stands above another one in its text if and only if it is among its parents. -/
theorem isAbove_iff_isAncestor {above name : String} (ha : HasSegments above) (hn : HasSegments name) :
    isAbove above name = true ↔ IsAncestor above name := by
  obtain ⟨a, hne, ha, rfl⟩ := ha
  obtain ⟨b, -, hb, rfl⟩ := hn
  rw [isAncestor_iff ha hne hb]
  constructor
  · intro h
    refine ⟨(eq_or_isAbove_iff ha hne hb).mp (.inr h), ?_⟩
    rintro rfl
    rw [isAbove_self] at h
    cases h
  · rintro ⟨hstart, hab⟩
    exact ((eq_or_isAbove_iff ha hne hb).mpr hstart).resolve_left
      fun heq => hab (pathName_injective ha hb heq)

/-! ## Names as lists -/

/-- A name is the list of its segments: what is asked of names is asked of lists. -/
theorem joinWith_segments {segments : List String} (hne : segments ≠ []) (h : IsPath segments) :
    parent (joinWith "." segments) = joinWith "." segments.dropLast ∧
      lastSegment (joinWith "." segments) = segments.getLast hne ∧
      join (parent (joinWith "." segments)) (lastSegment (joinWith "." segments)) =
        joinWith "." segments ∧
      (∀ k, parent^[k] (joinWith "." segments) = "" ↔ segments.length ≤ k) ∧
      ∀ others, others ≠ [] → IsPath others →
        (joinWith "." others = joinWith "." segments → others = segments) ∧
        (isAbove (joinWith "." others) (joinWith "." segments) = true ↔
          others <+: segments ∧ others ≠ segments) ∧
        (isAbove (joinWith "." others) (joinWith "." segments) = true ↔
          IsAncestor (joinWith "." others) (joinWith "." segments)) := by
  have hinit : segments.dropLast ++ [segments.getLast hne] = segments := List.dropLast_append_getLast hne
  have hpath : IsPath (segments.dropLast ++ [segments.getLast hne]) := hinit.symm ▸ h
  have hparent : parent (pathName segments) = pathName segments.dropLast := by
    have hcut := parent_pathName hpath
    rwa [hinit] at hcut
  have hlast : lastSegment (pathName segments) = segments.getLast hne := by
    have hcut := lastSegment_pathName hpath
    rwa [hinit] at hcut
  have hjoin : join (parent (pathName segments)) (lastSegment (pathName segments)) =
      pathName segments := by
    rw [hparent, hlast, ← pathName_concat, hinit]
  rw [← pathName_eq_joinWith h, ← pathName_eq_joinWith hpath.left]
  refine ⟨hparent, hlast, hjoin, fun k => iterate_parent_eq_empty_iff h k, fun others hothers ho => ?_⟩
  rw [← pathName_eq_joinWith ho]
  have habove := isAbove_iff_isAncestor ⟨others, hothers, ho, rfl⟩ ⟨segments, hne, h, rfl⟩
  exact ⟨pathName_injective ho h, habove.trans (isAncestor_iff ho hothers h), habove⟩

/-- Dots between brackets make no segments. -/
theorem joinWith_segments_generic :
    ["lib", "N", "List<A.B>", "Run(X.Y,Z)"] ≠ [] ∧ IsPath ["lib", "N", "List<A.B>", "Run(X.Y,Z)"] ∧
      parent "lib.N.List<A.B>.Run(X.Y,Z)" = "lib.N.List<A.B>" ∧
      lastSegment "lib.N.List<A.B>.Run(X.Y,Z)" = "Run(X.Y,Z)" ∧
      parent^[4] "lib.N.List<A.B>.Run(X.Y,Z)" = "" ∧
      ["lib", "N"] ≠ [] ∧ IsPath ["lib", "N"] ∧
      isAbove "lib.N" "lib.N.List<A.B>.Run(X.Y,Z)" = true ∧
      IsAncestor "lib.N" "lib.N.List<A.B>.Run(X.Y,Z)" := by
  have hne : ["lib", "N", "List<A.B>", "Run(X.Y,Z)"] ≠ [] := by decide
  have hpath : IsPath ["lib", "N", "List<A.B>", "Run(X.Y,Z)"] := by decide
  have hne' : ["lib", "N"] ≠ [] := by decide
  have hpath' : IsPath ["lib", "N"] := by decide
  obtain ⟨hparent, hlast, -, hiterate, hothers⟩ := joinWith_segments hne hpath
  obtain ⟨-, hstart, hancestor⟩ := hothers ["lib", "N"] hne' hpath'
  have habove := hstart.mpr (by decide)
  exact ⟨hne, hpath, hparent, hlast, (hiterate 4).mpr (by decide), hne', hpath', habove,
    hancestor.mp habove⟩

end CodeGraph.Name
