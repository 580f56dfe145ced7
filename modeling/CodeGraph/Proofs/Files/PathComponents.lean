import CodeGraph.Proofs.Text.Fields
import CodeGraph.Project

namespace CodeGraph.Path

open CodeGraph.Text

/-!
# Components of joined paths

What a path denotes is read off the parts between its slashes, the first of which tells whether the path
begins at the root. Joining two paths, putting components together and going to the parent do to the
components what their names say.
-/

/-- The parts of a path between its slashes. -/
def parts (path : String) : List Chars :=
  Chars.splitBy isSlash path.toList

/-- What the first part stands for: the dot for itself, and nothing before a slash for the root. -/
def frontOf : List Chars → Option Component
  | [] => none
  | part :: more =>
    if part = ['.'] then some .here else if part = [] ∧ more ≠ [] then some .root else none

theorem parts_ne_nil (path : String) : parts path ≠ [] :=
  Chars.splitBy_ne_nil isSlash path.toList

theorem slash_notMem_of_mem_splitBy {s part : Chars} (h : part ∈ Chars.splitBy isSlash s) : '/' ∉ part :=
  Chars.notMem_of_mem_splitBy rfl h

theorem splitBy_joinWith {kept : List Chars} (hne : kept ≠ []) (h : ∀ part ∈ kept, '/' ∉ part) :
    Chars.splitBy isSlash (Chars.joinWith ['/'] kept) = kept := by
  refine Chars.splitBy_joinWith rfl hne fun part hpart c hc => ?_
  rw [isSlash, beq_eq_false_iff_ne]
  exact fun heq => h part hpart (heq ▸ hc)

theorem parts_eq_singleton {path : String} (h : '/' ∉ path.toList) : parts path = [path.toList] := by
  rw [parts]
  exact splitBy_joinWith (List.cons_ne_nil path.toList []) (by simpa using h)

theorem joinWith_parts (path : String) : Chars.joinWith ['/'] (parts path) = path.toList :=
  Chars.joinWith_splitBy (fun _ hc => beq_iff_eq.mp hc) path.toList

theorem frontOf_append {a b b' : List Chars} (ha : a ≠ []) (hb : b ≠ []) (hb' : b' ≠ []) :
    frontOf (a ++ b) = frontOf (a ++ b') := by
  obtain ⟨part, a, rfl⟩ := List.exists_cons_of_ne_nil ha
  simp [frontOf, hb, hb']

theorem frontOf_append_left {a : List Chars} (ha : a ≠ []) (hempty : a ≠ [[]]) (b : List Chars) :
    frontOf (a ++ b) = frontOf a := by
  obtain ⟨part, a, rfl⟩ := List.exists_cons_of_ne_nil ha
  cases a with
  | nil =>
      have hpart : part ≠ [] := by simpa using hempty
      simp [frontOf, hpart]
  | cons next a => simp [frontOf]

theorem frontOf_of_isPrefix {a b : List Chars} (h : a <+: b) (hb : frontOf b = none) : frontOf a = none := by
  obtain ⟨more, rfl⟩ := h
  cases a with
  | nil => rfl
  | cons part a =>
      by_cases hdot : part = ['.']
      · simp [frontOf, hdot] at hb
      · by_cases hempty : part = [] <;> simp_all [frontOf]

/-- A text begins with the root or a leading dot, or its first part is an ordinary one. -/
theorem front_cases (s : Chars) :
    (∃ r, s = '/' :: r) ∨ s = ['.'] ∨ (∃ r, s = '.' :: '/' :: r) ∨
      front s = (none, s) ∧ frontOf (Chars.splitBy isSlash s) = none := by
  unfold front
  split
  · next r => exact .inl ⟨r, rfl⟩
  · exact .inr (.inl rfl)
  · next r => exact .inr (.inr (.inl ⟨r, rfl⟩))
  · next hroot hdot hhere =>
      refine .inr (.inr (.inr ⟨rfl, ?_⟩))
      cases s with
      | nil => rfl
      | cons c s =>
          have hc : isSlash c = false := by
            rw [isSlash, beq_eq_false_iff_ne]
            rintro rfl
            exact hroot s rfl
          obtain ⟨part, more, hparts⟩ := List.exists_cons_of_ne_nil (Chars.splitBy_ne_nil isSlash s)
          have hpart : c :: part ≠ ['.'] := by
            intro h
            obtain ⟨rfl, rfl⟩ := List.cons.inj h
            cases s with
            | nil => exact hdot rfl
            | cons d s =>
                have hd : isSlash d = false := by
                  rw [isSlash, beq_eq_false_iff_ne]
                  rintro rfl
                  exact hhere s rfl
                obtain ⟨first, rest, hrest⟩ :=
                  List.exists_cons_of_ne_nil (Chars.splitBy_ne_nil isSlash s)
                rw [Chars.splitBy_cons hd hrest] at hparts
                simp at hparts
          rw [Chars.splitBy_cons hc hparts]
          simp [frontOf, hpart]

theorem splitBy_slash (r : Chars) : Chars.splitBy isSlash ('/' :: r) = [] :: Chars.splitBy isSlash r :=
  Chars.splitBy_cut rfl [] r

theorem splitBy_here (r : Chars) :
    Chars.splitBy isSlash ('.' :: '/' :: r) = ['.'] :: Chars.splitBy isSlash r :=
  Chars.splitBy_cut rfl ['.'] r

/-- The front of a path is that of its parts, and the parts behind it show the same components. -/
theorem front_eq (s : Chars) :
    (front s).1 = frontOf (Chars.splitBy isSlash s) ∧
      (Chars.splitBy isSlash (front s).2).filterMap component? =
        (Chars.splitBy isSlash s).filterMap component? := by
  rcases front_cases s with ⟨r, rfl⟩ | rfl | ⟨r, rfl⟩ | ⟨hfront, hparts⟩
  · rw [splitBy_slash]
    exact ⟨by simp [front, frontOf, Chars.splitBy_ne_nil], by simp [front, component?]⟩
  · exact ⟨rfl, rfl⟩
  · rw [splitBy_here]
    exact ⟨by simp [front, frontOf], by simp [front, component?, splitBy_slash]⟩
  · rw [hfront, hparts]
    exact ⟨rfl, rfl⟩

theorem front_of_frontOf {s : Chars} (h : frontOf (Chars.splitBy isSlash s) = none) :
    front s = (none, s) := by
  rw [← (front_eq s).1] at h
  rcases front_cases s with ⟨r, rfl⟩ | rfl | ⟨r, rfl⟩ | ⟨hfront, -⟩
  · cases h
  · cases h
  · cases h
  · exact hfront

theorem components_eq_front (path : String) : components path =
    (front path.toList).1.toList ++ (Chars.splitBy isSlash (front path.toList).2).filterMap component? :=
  rfl

/-- The components behind the front. -/
def body (path : String) : List Component :=
  (parts path).filterMap component?

theorem components_eq (path : String) :
    components path = (frontOf (parts path)).toList ++ body path := by
  obtain ⟨hfront, hbody⟩ := front_eq path.toList
  rw [components_eq_front, body, parts, ← hbody, ← hfront]

/-! ## Components that stand for themselves -/

/-- The text of the component is one part of a path, which shows that component. -/
def IsPlain (c : Component) : Prop :=
  component? c.text.toList = some c ∧ '/' ∉ c.text.toList

instance (c : Component) : Decidable (IsPlain c) :=
  inferInstanceAs (Decidable (_ ∧ _))

theorem text_of_component? {part : Chars} {c : Component} (h : component? part = some c) :
    c.text.toList = part := by
  unfold component? at h
  split at h
  · cases h
  · split at h
    · next hup =>
        obtain rfl := Option.some.inj h
        exact hup.symm
    · obtain rfl := Option.some.inj h
      exact String.toList_ofList

theorem isPlain_of_mem_body {path : String} {c : Component} (h : c ∈ body path) : IsPlain c := by
  obtain ⟨part, hpart, hc⟩ := List.mem_filterMap.mp h
  rw [IsPlain, text_of_component? hc]
  exact ⟨hc, slash_notMem_of_mem_splitBy hpart⟩

theorem IsPlain.eq_up_or_name {c : Component} (h : IsPlain c) : c = .up ∨ ∃ n, c = .name n := by
  cases c with
  | root => exact absurd h (by decide)
  | here => exact absurd h (by decide)
  | up => exact .inl rfl
  | name n => exact .inr ⟨n, rfl⟩

theorem IsPlain.ne_root {c : Component} (h : IsPlain c) : c ≠ .root := by
  rintro rfl
  exact absurd h (by decide)

theorem IsPlain.relative {c : Component} (h : IsPlain c) : isAbsolute c.text = false := by
  rw [isAbsolute, beq_eq_false_iff_ne]
  exact fun hfirst => h.2 (List.mem_of_head? hfirst)

theorem IsPlain.parts_text {c : Component} (h : IsPlain c) : parts c.text = [c.text.toList] :=
  parts_eq_singleton h.2

theorem IsPlain.body_text {c : Component} (h : IsPlain c) : body c.text = [c] := by
  rw [body, h.parts_text]
  simp [h.1]

/-- No plain component begins at the front. -/
theorem IsPlain.components_text {c : Component} (h : IsPlain c) : components c.text = [c] := by
  have hdot : c.text.toList ≠ ['.'] := by
    intro hdot
    have hshown := h.1
    rw [hdot] at hshown
    cases hshown
  rw [components_eq, h.body_text, h.parts_text]
  simp [frontOf, hdot]

/-! ## Absolute paths -/

theorem isAbsolute_iff_frontOf {path : String} :
    isAbsolute path = true ↔ frontOf (parts path) = some .root := by
  rw [isAbsolute, beq_iff_eq, parts]
  rcases front_cases path.toList with ⟨r, h⟩ | h | ⟨r, h⟩ | ⟨hfront, hparts⟩
  · rw [h, splitBy_slash]
    simp [frontOf, Chars.splitBy_ne_nil]
  · rw [h]
    decide
  · rw [h, splitBy_here]
    simp [frontOf]
  · rw [hparts, List.head?_eq_some_iff]
    refine iff_of_false ?_ (by simp)
    rintro ⟨r, h⟩
    rw [h] at hfront
    cases hfront

/-- A path is absolute when its components have the root. -/
theorem isAbsolute_iff {path : String} : isAbsolute path = true ↔ .root ∈ components path := by
  rw [isAbsolute_iff_frontOf, components_eq, List.mem_append, Option.mem_toList]
  constructor
  · exact .inl
  · rintro (h | h)
    · exact h
    · exact absurd rfl (isPlain_of_mem_body h).ne_root

theorem components_of_isAbsolute {path : String} (h : isAbsolute path = true) :
    components path = .root :: body path := by
  rw [components_eq, isAbsolute_iff_frontOf.mp h]
  rfl

/-- A relative path has a dot before its plain components at most. -/
theorem components_of_relative {path : String} (h : isAbsolute path = false) :
    components path = body path ∨ components path = .here :: body path := by
  have hroot : frontOf (parts path) ≠ some .root := by
    rw [Ne, ← isAbsolute_iff_frontOf, h]
    simp
  obtain ⟨first, more, hparts⟩ := List.exists_cons_of_ne_nil (parts_ne_nil path)
  rw [components_eq]
  rw [hparts, frontOf] at hroot ⊢
  split
  · exact .inr rfl
  · rw [if_neg (by simp_all)]
    exact .inl rfl

theorem root_notMem_of_relative {path : String} (h : isAbsolute path = false) :
    .root ∉ components path := by
  rw [← isAbsolute_iff, h]
  simp

/-! ## Joining -/

/-- An absolute path stands for itself, also behind another one. -/
theorem join_of_isAbsolute (base : String) {child : String} (h : isAbsolute child = true) :
    join base child = child :=
  if_pos h

theorem join_empty (child : String) : join "" child = child := by
  unfold join
  split <;> simp

theorem components_join {base child : String} (hbase : base ≠ "") (h : isAbsolute child = false) :
    components (join base child) = components base ++ body child := by
  have hslash : isSlash '/' = true := rfl
  have hempty : base.isEmpty = false := by simpa [String.isEmpty_iff] using hbase
  have hnil : base.toList ≠ [] := by simpa using hbase
  unfold join
  rw [h, hempty, if_neg (by simp), Bool.false_or]
  split
  · next hlast =>
      obtain ⟨start, hstart⟩ := List.getLast?_eq_some_iff.mp (beq_iff_eq.mp hlast)
      have hleft : parts base = Chars.splitBy isSlash start ++ [[]] := by
        rw [parts, hstart, Chars.splitBy_cut hslash]
        rfl
      have hboth : parts (base ++ child) = Chars.splitBy isSlash start ++ parts child := by
        rw [parts, String.toList_append, hstart, List.append_assoc, List.singleton_append,
          Chars.splitBy_cut hslash, parts]
      have hfront : frontOf (parts (base ++ child)) = frontOf (parts base) := by
        rw [hleft, hboth]
        exact frontOf_append (Chars.splitBy_ne_nil isSlash start) (parts_ne_nil child)
          (List.cons_ne_nil [] [])
      rw [components_eq, components_eq, hfront, body, body, body, hleft, hboth]
      simp [component?]
  · have hboth : parts (base ++ "/" ++ child) = parts base ++ parts child := by
      rw [parts, String.toList_append, String.toList_append, List.append_assoc]
      exact Chars.splitBy_cut hslash base.toList child.toList
    have hne : parts base ≠ [[]] := by
      intro heq
      rw [← joinWith_parts base, heq] at hnil
      exact hnil rfl
    have hfront : frontOf (parts (base ++ "/" ++ child)) = frontOf (parts base) := by
      rw [hboth]
      exact frontOf_append_left (parts_ne_nil base) hne (parts child)
    rw [components_eq, components_eq, hfront, body, body, body, hboth, List.filterMap_append,
      List.append_assoc]

theorem isAbsolute_join (base child : String) :
    isAbsolute (join base child) = (isAbsolute child || isAbsolute base) := by
  cases hchild : isAbsolute child with
  | true => rw [join_of_isAbsolute base hchild, hchild, Bool.true_or]
  | false =>
      rw [Bool.false_or]
      by_cases hbase : base = ""
      · rw [hbase, join_empty, hchild]
        rfl
      · have hbody : .root ∉ body child := fun h => (isPlain_of_mem_body h).ne_root rfl
        rw [Bool.eq_iff_iff, isAbsolute_iff, isAbsolute_iff, components_join hbase hchild, List.mem_append,
          or_iff_left hbody]

/-! ## The parent -/

theorem filterMap_dropSilent (ps : List Chars) :
    (dropSilent ps).reverse.filterMap component? = ps.reverse.filterMap component? := by
  induction ps with
  | nil => rfl
  | cons part ps ih =>
      rw [dropSilent, List.dropWhile_cons]
      split
      · next hsilent =>
          rw [← dropSilent, ih, List.reverse_cons, List.filterMap_append]
          simp [Option.isNone_iff_eq_none.mp hsilent]
      · rfl

theorem dropSilent_reverse_isPrefix (ps : List Chars) : (dropSilent ps).reverse <+: ps.reverse :=
  List.reverse_prefix.mpr (List.dropWhile_suffix _)

theorem filterMap_splitBy_joinWith {kept : List Chars} (h : ∀ part ∈ kept, '/' ∉ part) :
    (Chars.splitBy isSlash (Chars.joinWith ['/'] kept)).filterMap component? = kept.filterMap component? := by
  cases kept with
  | nil => rfl
  | cons part kept => rw [splitBy_joinWith (List.cons_ne_nil part kept) h]

/-- The first parts behind a front, put together behind it, are behind the same front again. -/
theorem front_joinWith {s : Chars} {kept : List Chars} (h : kept <+: Chars.splitBy isSlash (front s).2) :
    front (((front s).1.elim "" (·.text)).toList ++ Chars.joinWith ['/'] kept) =
      ((front s).1, Chars.joinWith ['/'] kept) := by
  have hparts : ∀ part ∈ kept, '/' ∉ part := fun part hpart =>
    slash_notMem_of_mem_splitBy (h.subset hpart)
  rcases front_cases s with ⟨r, rfl⟩ | rfl | ⟨r, rfl⟩ | ⟨hfront, hfirst⟩
  · simp [front, Component.text]
  · cases kept with
    | nil => rfl
    | cons part kept =>
        obtain ⟨rfl, hkept⟩ := List.cons_prefix_cons.mp h
        obtain rfl := List.prefix_nil.mp hkept
        rfl
  · cases kept with
    | nil => simp [front, Component.text, Chars.joinWith]
    | cons part kept =>
        have hslash : (front ('.' :: '/' :: r)).2 = '/' :: r := rfl
        rw [hslash, splitBy_slash] at h
        obtain ⟨rfl, -⟩ := List.cons_prefix_cons.mp h
        cases kept <;> simp [front, Component.text, Chars.joinWith]
  · rw [hfront] at h ⊢
    cases kept with
    | nil => rfl
    | cons part kept =>
        have hkept := frontOf_of_isPrefix h hfirst
        rw [← splitBy_joinWith (List.cons_ne_nil part kept) hparts] at hkept
        exact front_of_frontOf hkept

theorem components_ofParts {path : String} {kept : List Chars}
    (h : kept.reverse <+: Chars.splitBy isSlash (front path.toList).2) :
    components (ofParts (front path.toList).1 kept) =
      (front path.toList).1.toList ++ kept.reverse.filterMap component? := by
  have hkept : ∀ part ∈ kept.reverse, '/' ∉ part := fun part hpart =>
    slash_notMem_of_mem_splitBy (h.subset hpart)
  rw [components_eq_front, ofParts, String.toList_append, String.toList_ofList, front_joinWith h,
    filterMap_splitBy_joinWith hkept]

theorem head_bodyParts {rest last : Chars} {above : List Chars} (h : bodyParts rest = last :: above) :
    ∃ c, component? last = some c := by
  have hhead := List.head?_dropWhile_not (fun part => (component? part).isNone)
    (Chars.splitBy isSlash rest).reverse
  rw [← dropSilent, ← bodyParts, h] at hhead
  exact Option.isSome_iff_exists.mp (by simpa using hhead)

theorem parent?_of_cons {path : String} {last : Chars} {above : List Chars}
    (h : bodyParts (front path.toList).2 = last :: above) :
    parent? path = some (ofParts (front path.toList).1 (dropSilent above)) := by
  simp only [parent?, h]

/-- The directory of a path denotes that place without its last component. -/
theorem components_directoryOf (path : String) :
    components (directoryOf path) = (components path).dropLast := by
  have hpath : components path = (front path.toList).1.toList ++
      (bodyParts (front path.toList).2).reverse.filterMap component? := by
    rw [bodyParts, filterMap_dropSilent, List.reverse_reverse, components_eq_front]
  have hstart : (bodyParts (front path.toList).2).reverse <+:
      Chars.splitBy isSlash (front path.toList).2 := by
    have hdrop := dropSilent_reverse_isPrefix (Chars.splitBy isSlash (front path.toList).2).reverse
    rwa [List.reverse_reverse] at hdrop
  cases hparts : bodyParts (front path.toList).2 with
  | nil =>
      have hdirectory : directoryOf path = "" := by
        simp only [directoryOf, parent?, hparts]
        split <;> rfl
      rw [hpath, hparts, hdirectory]
      cases (front path.toList).1 <;> rfl
  | cons last above =>
      rw [hparts, List.reverse_cons] at hstart
      have habove := (dropSilent_reverse_isPrefix above).trans ((List.prefix_append _ _).trans hstart)
      obtain ⟨c, hc⟩ := head_bodyParts hparts
      have hlast : (last :: above).reverse.filterMap component? =
          above.reverse.filterMap component? ++ [c] := by
        rw [List.reverse_cons, List.filterMap_append]
        simp [hc]
      rw [hpath, hparts, hlast, ← List.append_assoc, List.dropLast_concat, directoryOf,
        parent?_of_cons hparts, ← filterMap_dropSilent]
      exact components_ofParts habove

end CodeGraph.Path
