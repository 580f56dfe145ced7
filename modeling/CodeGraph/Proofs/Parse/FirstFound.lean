import CodeGraph.OpenedModule
import Mathlib.Data.Finset.Basic
import Mathlib.Data.Finset.Dedup
import Mathlib.Data.List.Induction
import Mathlib.Data.List.Nodup

namespace CodeGraph

/-!
# Files of modules outside the input

The modules of the input are asked one after the other for the files of what they refer to. A name is found
at the first module that refers to it and has its file. One that has no file at a module is still looked for
at those behind it, and one that has a file is not looked for any more.
-/

namespace ModuleMentions

/-- The module refers to the name, and the path is that of a file in its search directory. -/
def Finds (m : ModuleMentions) (t : FileTree) (name path : String) : Prop :=
  name ∈ m.references ∧
    ∃ directory, m.searchDirectory = some directory ∧ Metadata.fileIn directory name = path ∧
      t.isFile path = true

theorem fileOf?_eq_some_iff {m : ModuleMentions} {t : FileTree} {name path : String} :
    m.fileOf? t name = some path ↔
      ∃ directory, m.searchDirectory = some directory ∧ Metadata.fileIn directory name = path ∧
        t.isFile path = true := by
  simp only [fileOf?, Option.filter_eq_some_iff, Option.map_eq_some_iff, ← exists_and_right, and_assoc]

end ModuleMentions

/-- A module outside the input that links may lead to. -/
def IsWanted (modules : Modules) (ignored : Ignored) (name : String) : Prop :=
  modules.isOpened name = false ∧ ignored.covers name = false

/-- The references of all modules in their order, each with the module it stands in. -/
def allMentions (mentioning : List ModuleMentions) : List (ModuleMentions × String) :=
  mentioning.flatMap fun m => m.references.map (m, ·)

/-- The reference is to the name, and the module that it stands in has the file. -/
def isHit (t : FileTree) (name : String) (mention : ModuleMentions × String) : Bool :=
  mention.2 == name && (mention.1.fileOf? t name).isSome

/-- The position of the reference at which a name is found. -/
def foundAt (t : FileTree) (mentioning : List ModuleMentions) (name : String) : Nat :=
  (allMentions mentioning).findIdx (isHit t name)

/-- The file at the first of the references that is a hit. -/
def firstFile? (t : FileTree) (mentions : List (ModuleMentions × String)) (name : String) : Option String :=
  mentions.findSome? fun mention => if mention.2 = name then mention.1.fileOf? t name else none

section Loop

variable (t : FileTree) (modules : Modules) (ignored : Ignored)

/-- One reference of the loop. -/
def locateNext (found : List (String × String)) (mention : ModuleMentions × String) :
    List (String × String) :=
  if modules.isOpened mention.2 || ignored.covers mention.2 || found.any (·.1 == mention.2) then found
  else found ++ (mention.1.fileOf? t mention.2).toList.map (mention.2, ·)

theorem locateExternals_eq (mentioning : List ModuleMentions) :
    locateExternals t modules ignored mentioning =
      (allMentions mentioning).foldl (locateNext t modules ignored) [] :=
  rfl

/-- What was found at the references so far. -/
structure FoundFirst (mentions : List (ModuleMentions × String)) (found : List (String × String)) :
    Prop where
  mem_iff : ∀ name path, (name, path) ∈ found ↔
    IsWanted modules ignored name ∧ firstFile? t mentions name = some path
  once : (found.map (·.1)).Nodup
  ordered : found.Pairwise fun a b =>
    mentions.findIdx (isHit t a.1) < mentions.findIdx (isHit t b.1)

end Loop

variable {t : FileTree} {modules : Modules} {ignored : Ignored}

theorem firstFile?_concat (mentions : List (ModuleMentions × String)) (mention : ModuleMentions × String)
    (name : String) : firstFile? t (mentions ++ [mention]) name =
      (firstFile? t mentions name).or (if mention.2 = name then mention.1.fileOf? t name else none) := by
  rw [firstFile?, List.findSome?_append, List.findSome?_singleton]
  rfl

theorem isSome_firstFile? (mentions : List (ModuleMentions × String)) (name : String) :
    (firstFile? t mentions name).isSome = mentions.any (isHit t name) := by
  rw [firstFile?, List.isSome_findSome?]
  congr 1
  funext mention
  by_cases h : mention.2 = name
  · simp [isHit, h]
  · simp [isHit, h]

namespace FoundFirst

variable {mentions : List (ModuleMentions × String)} {found : List (String × String)}
  {mention : ModuleMentions × String}

theorem mem_names_iff (h : FoundFirst t modules ignored mentions found) (name : String) :
    name ∈ found.map (·.1) ↔ IsWanted modules ignored name ∧ mentions.any (isHit t name) = true := by
  rw [← isSome_firstFile?, Option.isSome_iff_exists, ← exists_and_left]
  simp only [← h.mem_iff, List.mem_map, Prod.exists, exists_and_right, exists_eq_right]

theorem findIdx_lt (h : FoundFirst t modules ignored mentions found) {e : String × String}
    (he : e ∈ found) : mentions.findIdx (isHit t e.1) < mentions.length := by
  have hhit := ((h.mem_names_iff e.1).mp (List.mem_map_of_mem he)).2
  exact List.findIdx_lt_length_of_exists (List.any_eq_true.mp hhit)

/-- Where a name was found does not change with the references that follow. -/
theorem findIdx_concat (h : FoundFirst t modules ignored mentions found) {e : String × String}
    (he : e ∈ found) :
    (mentions ++ [mention]).findIdx (isHit t e.1) = mentions.findIdx (isHit t e.1) := by
  rw [List.findIdx_append, if_pos (h.findIdx_lt he)]

theorem ordered_concat (h : FoundFirst t modules ignored mentions found) :
    found.Pairwise fun a b =>
      (mentions ++ [mention]).findIdx (isHit t a.1) < (mentions ++ [mention]).findIdx (isHit t b.1) := by
  refine h.ordered.imp_of_mem fun {a b} ha hb hlt => ?_
  rwa [h.findIdx_concat ha, h.findIdx_concat hb]

/-- The reference is to no wanted name, or to one that was found before, or it finds nothing. -/
theorem skip (h : FoundFirst t modules ignored mentions found)
    (hskip : IsWanted modules ignored mention.2 → mention.2 ∉ found.map (·.1) →
      mention.1.fileOf? t mention.2 = none) :
    FoundFirst t modules ignored (mentions ++ [mention]) found := by
  refine ⟨fun name path => ?_, h.once, h.ordered_concat⟩
  rw [h.mem_iff, firstFile?_concat]
  refine and_congr_right fun hwanted => ?_
  by_cases hname : mention.2 = name
  · subst hname
    by_cases hfound : mention.2 ∈ found.map (·.1)
    · have hsome := ((h.mem_names_iff mention.2).mp hfound).2
      rw [← isSome_firstFile?] at hsome
      rw [Option.or_of_isSome hsome]
    · rw [if_pos rfl, hskip hwanted hfound, Option.or_none]
  · rw [if_neg hname, Option.or_none]

/-- The reference is the first that finds its name. -/
theorem concat (h : FoundFirst t modules ignored mentions found) {path : String}
    (hwanted : IsWanted modules ignored mention.2) (hnew : mention.2 ∉ found.map (·.1))
    (hfile : mention.1.fileOf? t mention.2 = some path) :
    FoundFirst t modules ignored (mentions ++ [mention]) (found ++ [(mention.2, path)]) := by
  have hnone : mentions.any (isHit t mention.2) = false := by
    simpa using fun hhit => hnew ((h.mem_names_iff mention.2).mpr ⟨hwanted, hhit⟩)
  constructor
  · intro name file
    rw [List.mem_append, h.mem_iff, firstFile?_concat, List.mem_singleton, Prod.mk.injEq]
    by_cases hname : mention.2 = name
    · subst hname
      have hbefore : firstFile? t mentions mention.2 = none := by
        rw [← Option.not_isSome_iff_eq_none, isSome_firstFile?, hnone]
        exact Bool.false_ne_true
      simp [hbefore, hfile, hwanted, eq_comm]
    · simp [hname, Ne.symm hname]
  · rw [List.map_append, List.map_singleton, ← List.concat_eq_append]
    exact h.once.concat hnew
  · refine List.pairwise_append.mpr ⟨h.ordered_concat, List.pairwise_singleton _ _, fun a ha b hb => ?_⟩
    obtain rfl := List.mem_singleton.mp hb
    rw [h.findIdx_concat ha]
    have hlast : ¬ mentions.findIdx (isHit t mention.2) < mentions.length := by
      rw [List.findIdx_lt_length, ← List.any_eq_true, hnone]
      exact Bool.false_ne_true
    rw [List.findIdx_append, if_neg hlast]
    exact (h.findIdx_lt ha).trans_le (Nat.le_add_left _ _)

/-- What one reference of the loop preserves. -/
theorem next (h : FoundFirst t modules ignored mentions found) :
    FoundFirst t modules ignored (mentions ++ [mention]) (locateNext t modules ignored found mention) := by
  have hfound : found.any (·.1 == mention.2) = true ↔ mention.2 ∈ found.map (·.1) := by
    simp
  by_cases hskipped : (modules.isOpened mention.2 || ignored.covers mention.2 ||
      found.any (·.1 == mention.2)) = true
  · rw [locateNext, if_pos hskipped]
    refine h.skip fun hwanted hnew => ?_
    rw [hwanted.1, hwanted.2, Bool.false_or, Bool.false_or] at hskipped
    exact absurd (hfound.mp hskipped) hnew
  · rw [locateNext, if_neg hskipped]
    simp only [Bool.or_eq_true, hfound, not_or, Bool.not_eq_true] at hskipped
    obtain ⟨hwanted, hnew⟩ := hskipped
    cases hfile : mention.1.fileOf? t mention.2 with
    | none =>
        rw [Option.toList_none, List.map_nil, List.append_nil]
        exact h.skip fun _ _ => hfile
    | some path => exact h.concat hwanted hnew hfile

end FoundFirst

/-- The loop over all references. -/
theorem foundFirst_foldl (mentions : List (ModuleMentions × String)) :
    FoundFirst t modules ignored mentions (mentions.foldl (locateNext t modules ignored) []) := by
  induction mentions using List.reverseRecOn with
  | nil => exact ⟨fun name path => by simp [firstFile?], List.nodup_nil, List.Pairwise.nil⟩
  | append_singleton mentions mention ih =>
      rw [List.foldl_append]
      exact ih.next

/-! ## Modules in their order -/

theorem firstFile?_mentions (m : ModuleMentions) (references : List String) (name : String) :
    firstFile? t (references.map (m, ·)) name = if name ∈ references then m.fileOf? t name else none := by
  induction references with
  | nil => rfl
  | cons reference references ih =>
      rw [firstFile?, List.map_cons, List.findSome?_cons, ← firstFile?, ih]
      by_cases hname : reference = name
      · cases hfile : m.fileOf? t name <;> simp [hname]
      · simp [hname, Ne.symm hname]

/-- The first reference that is a hit stands in the first module that finds the name. -/
theorem firstFile?_allMentions (mentioning : List ModuleMentions) (name : String) :
    firstFile? t (allMentions mentioning) name =
      mentioning.findSome? fun m => if name ∈ m.references then m.fileOf? t name else none := by
  induction mentioning with
  | nil => rfl
  | cons m more ih =>
      have hsplit : firstFile? t (allMentions (m :: more)) name =
          (firstFile? t (m.references.map (m, ·)) name).or (firstFile? t (allMentions more) name) := by
        rw [firstFile?, allMentions, List.flatMap_cons, List.findSome?_append]
        rfl
      rw [hsplit, firstFile?_mentions, ih, List.findSome?_cons]
      cases (if name ∈ m.references then m.fileOf? t name else none) <;> rfl

theorem ModuleMentions.finds_iff {m : ModuleMentions} {name path : String} :
    (if name ∈ m.references then m.fileOf? t name else none) = some path ↔ m.Finds t name path := by
  rw [Option.ite_none_right_eq_some, ModuleMentions.fileOf?_eq_some_iff]
  rfl

theorem isSome_firstFile?_allMentions (mentioning : List ModuleMentions) (name : String) :
    (firstFile? t (allMentions mentioning) name).isSome = true ↔
      ∃ m ∈ mentioning, ∃ path, m.Finds t name path := by
  rw [firstFile?_allMentions, List.findSome?_isSome_iff]
  simp only [Option.isSome_iff_exists, ModuleMentions.finds_iff]

/-- The names that are found are those that are wanted and that some module finds, each once. Each has the
file of the first module that finds it, and they stand in the order of the references at which they were
found. -/
theorem locateExternals_firstFound (t : FileTree) (modules : Modules) (ignored : Ignored)
    (mentioning : List ModuleMentions) :
    let found := locateExternals t modules ignored mentioning
    (found.map (·.1)).Nodup ∧
      (∀ name, name ∈ found.map (·.1) ↔
        IsWanted modules ignored name ∧ ∃ m ∈ mentioning, ∃ path, m.Finds t name path) ∧
      (∀ name path, (name, path) ∈ found →
        ∃ before m after, mentioning = before ++ m :: after ∧ m.Finds t name path ∧
          ∀ earlier ∈ before, ∀ other, ¬ earlier.Finds t name other) ∧
      found.Pairwise fun a b => foundAt t mentioning a.1 < foundAt t mentioning b.1 := by
  have hfirst : FoundFirst t modules ignored (allMentions mentioning)
      (locateExternals t modules ignored mentioning) := foundFirst_foldl (allMentions mentioning)
  refine ⟨hfirst.once, fun name => ?_, fun name path he => ?_, hfirst.ordered⟩
  · rw [hfirst.mem_names_iff, ← isSome_firstFile?, isSome_firstFile?_allMentions]
  · have hfile := ((hfirst.mem_iff name path).mp he).2
    rw [firstFile?_allMentions] at hfile
    obtain ⟨before, m, after, hsplit, hm, hbefore⟩ := List.findSome?_eq_some_iff.mp hfile
    refine ⟨before, m, after, hsplit, ModuleMentions.finds_iff.mp hm, ?_⟩
    intro earlier hearlier other hother
    have hnone := hbefore earlier hearlier
    rw [ModuleMentions.finds_iff.mpr hother] at hnone
    exact Option.some_ne_none other hnone

example :
    let tree : FileTree :=
      ⟨[(["b", "Lib.dll"], ⟨#[], 0⟩), (["c", "Lib.dll"], ⟨#[], 0⟩), (["c", "Util.dll"], ⟨#[], 0⟩)], [], []⟩
    locateExternals tree (.new Name.externals .platform) .platform
        [⟨["Lib", "System", "Util"], some "/a"⟩, ⟨["Lib", "Lib"], none⟩, ⟨["Lib"], some "/b"⟩,
          ⟨["Util", "Lib"], some "/c"⟩] =
      [("Lib", "/b/Lib.dll"), ("Util", "/c/Util.dll")] := by
  decide +kernel

/-! ## Names that are taken -/

/-- The modules found, and the names that are taken. -/
structure Search where
  found : List (String × String)
  taken : Finset String

/-- One reference of a search that takes a name before it looks for the file, and gives it back when there is
none. -/
def Search.next (t : FileTree) (modules : Modules) (ignored : Ignored) (s : Search)
    (mention : ModuleMentions × String) : Search :=
  if modules.isOpened mention.2 || ignored.covers mention.2 then s
  else if mention.2 ∈ s.taken then s
  else
    match mention.1.fileOf? t mention.2 with
    | some path => ⟨s.found ++ [(mention.2, path)], insert mention.2 s.taken⟩
    | none => ⟨s.found, (insert mention.2 s.taken).erase mention.2⟩

theorem Search.next_eq (found : List (String × String)) (mention : ModuleMentions × String) :
    Search.next t modules ignored ⟨found, (found.map (·.1)).toFinset⟩ mention =
      ⟨locateNext t modules ignored found mention,
        ((locateNext t modules ignored found mention).map (·.1)).toFinset⟩ := by
  have hfound : found.any (·.1 == mention.2) = decide (mention.2 ∈ (found.map (·.1)).toFinset) := by
    rw [Bool.eq_iff_iff]
    simp
  by_cases hunwanted : (modules.isOpened mention.2 || ignored.covers mention.2) = true
  · simp [Search.next, locateNext, hunwanted]
  · by_cases htaken : mention.2 ∈ (found.map (·.1)).toFinset
    · simp [Search.next, locateNext, hfound, htaken]
    · have hnew : ¬ (modules.isOpened mention.2 || ignored.covers mention.2 ||
          found.any (·.1 == mention.2)) = true := by
        simp [hfound, hunwanted, htaken]
      rw [Search.next, locateNext, if_neg hunwanted, if_neg htaken, if_neg hnew]
      cases hfile : mention.1.fileOf? t mention.2 with
      | some path =>
          have hinsert : insert mention.2 (found.map (·.1)).toFinset =
              (found.map (·.1) ++ [mention.2]).toFinset := by
            ext name
            rw [Finset.mem_insert, List.mem_toFinset, List.mem_toFinset, List.mem_append,
              List.mem_singleton, or_comm]
          dsimp only
          rw [Option.toList_some, List.map_singleton, List.map_append, List.map_singleton, hinsert]
      | none =>
          dsimp only
          rw [Option.toList_none, List.map_nil, List.append_nil, Finset.erase_insert htaken]

/-- The names that are taken are always those that were found, so that such a search finds the same. -/
theorem Search.foldl_next_eq (mentioning : List ModuleMentions) :
    ((allMentions mentioning).foldl (Search.next t modules ignored) ⟨[], ∅⟩).found =
      locateExternals t modules ignored mentioning := by
  have hrun : ∀ (mentions : List (ModuleMentions × String)) (found : List (String × String)),
      mentions.foldl (Search.next t modules ignored) ⟨found, (found.map (·.1)).toFinset⟩ =
        ⟨mentions.foldl (locateNext t modules ignored) found,
          ((mentions.foldl (locateNext t modules ignored) found).map (·.1)).toFinset⟩ := by
    intro mentions
    induction mentions with
    | nil => exact fun found => rfl
    | cons mention mentions ih =>
        intro found
        rw [List.foldl_cons, Search.next_eq, ih, List.foldl_cons]
  rw [locateExternals_eq]
  exact congrArg Search.found (hrun (allMentions mentioning) [])

end CodeGraph
