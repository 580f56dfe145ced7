import CodeGraph.OpenedModule
import Mathlib.Data.List.Forall2

namespace CodeGraph

/-!
# Trees with other contents

Trees that have the same files in the same places, each last changed at the same time, can differ only in
what the files hold. What is found in them is the same, and what is read is the same where the contents are.
-/

namespace FileTree

/-- Files of one place or path that were last changed at the same time. -/
def SameFile {α : Type} (f f' : α × File) : Prop :=
  f'.1 = f.1 ∧ f'.2.modified = f.2.modified

/-- The trees differ at most in the contents of their files. -/
structure Alike (t t' : FileTree) : Prop where
  files : List.Forall₂ SameFile t.files t'.files
  directories : t'.directories = t.directories
  current : t'.current = t.current

/-- The trees differ at most in the contents of files at other paths than these. -/
structure AlikeAt (paths : String → Prop) (t t' : FileTree) : Prop extends Alike t t' where
  contents : ∀ path, paths path → t'.file? path = t.file? path

variable {t t' : FileTree}

namespace Alike

variable (h : t.Alike t')

include h

/-! ## What is found -/

theorem any_files (test : Place → Bool) :
    (t'.files.any fun f => test f.1) = t.files.any fun f => test f.1 := by
  have hfiles := h.files
  generalize t.files = files at hfiles ⊢
  generalize t'.files = files' at hfiles ⊢
  induction hfiles with
  | nil => rfl
  | cons hfile _ ih => rw [List.any_cons, List.any_cons, hfile.1, ih]

theorem fileAt? (place : Place) :
    (t'.fileAt? place).map (·.modified) = (t.fileAt? place).map (·.modified) := by
  unfold FileTree.fileAt?
  have hfiles := h.files
  generalize t.files = files at hfiles ⊢
  generalize t'.files = files' at hfiles ⊢
  induction hfiles with
  | nil => rfl
  | @cons f f' _ _ hfile _ ih =>
      rw [List.lookup_cons, List.lookup_cons, hfile.1]
      cases place == f.1 with
      | true => exact congrArg some hfile.2
      | false => exact ih

theorem isSome_fileAt? (place : Place) : (t'.fileAt? place).isSome = (t.fileAt? place).isSome := by
  rw [← Option.isSome_map, h.fileAt?, Option.isSome_map]

theorem hasDirectory (place : Place) : t'.hasDirectory place = t.hasDirectory place := by
  rw [FileTree.hasDirectory, FileTree.hasDirectory, h.directories,
    h.any_files fun p => place.isPrefixOf p && p != place]

theorem follow (place : Place) (components : List Path.Component) :
    t'.follow place components = t.follow place components := by
  induction components generalizing place with
  | nil => rfl
  | cons c rest ih =>
      cases c with
      | root => exact ih []
      | _ => simp only [FileTree.follow, h.hasDirectory, h.isSome_fileAt?, ih]

theorem locate (path : String) : t'.locate path = t.locate path := by
  simp only [FileTree.locate, h.current, h.follow, h.hasDirectory, h.isSome_fileAt?]

theorem isFile (path : String) : t'.isFile path = t.isFile path := by
  rw [FileTree.isFile, FileTree.isFile, file?, file?, h.locate]
  cases t.locate path with
  | ok place => exact h.isSome_fileAt? place
  | error e => rfl

theorem isDirectory (path : String) : t'.isDirectory path = t.isDirectory path := by
  simp only [FileTree.isDirectory, h.locate, h.hasDirectory]

theorem contains (path : String) : t'.contains path = t.contains path := by
  rw [FileTree.contains, FileTree.contains, h.isFile, h.isDirectory]

theorem below (path : String) :
    List.Forall₂ SameFile (t.below path) (t'.below path) := by
  unfold FileTree.below
  rw [h.locate]
  cases t.locate path with
  | error e => exact .nil
  | ok place =>
      apply List.rel_filterMap _ h.files
      rintro ⟨p, file⟩ ⟨p', file'⟩ ⟨rfl, hmodified⟩
      dsimp only
      split
      · exact .some ⟨rfl, hmodified⟩
      · exact .none

end Alike

/-! ## What is read -/

namespace AlikeAt

variable {paths : String → Prop} (h : AlikeAt paths t t')

include h

theorem read {path : String} (hpath : paths path) : t'.read path = t.read path := by
  have hfile := h.contents path hpath
  unfold file? at hfile
  unfold FileTree.read
  rw [h.locate] at hfile ⊢
  cases hplace : t.locate path with
  | error e => rfl
  | ok place =>
      rw [hplace] at hfile
      replace hfile : t'.fileAt? place = t.fileAt? place := hfile
      simp only [bind, Except.bind, hfile, h.hasDirectory]

theorem readText {path : String} (hpath : paths path) : t'.readText path = t.readText path := by
  rw [FileTree.readText, FileTree.readText, h.read hpath]

theorem textOf {path : String} (hpath : paths path) : t'.textOf path = t.textOf path := by
  rw [FileTree.textOf, FileTree.textOf, h.readText hpath]

end AlikeAt

end FileTree

/-! ## Files of projects -/

namespace Project

open FileTree

variable {t t' : FileTree}

theorem isPreferred_eq {a b a' b' : String × File} (ha : SameFile a a') (hb : SameFile b b') :
    isPreferred a' b' = isPreferred a b := by
  rw [isPreferred, isPreferred, ha.1, ha.2, hb.1, hb.2]

theorem preferred?_rel {built built' : List (String × File)} (h : List.Forall₂ SameFile built built') :
    Option.Rel SameFile (preferred? built) (preferred? built') := by
  induction h with
  | nil => exact .none
  | @cons a a' more more' ha _ ih =>
      rw [preferred?, preferred?]
      generalize preferred? more = best at ih ⊢
      generalize preferred? more' = best' at ih ⊢
      cases ih with
      | none => exact .some ha
      | some hb =>
          dsimp only
          rw [isPreferred_eq hb ha]
          split
          · exact .some hb
          · exact .some ha

/-- Which file is preferred does not depend on what the files hold. -/
theorem map_preferred?_eq {built built' : List (String × File)} (h : List.Forall₂ SameFile built built') :
    (preferred? built').map (·.1) = (preferred? built).map (·.1) := by
  have hpreferred := preferred?_rel h
  generalize preferred? built = best at hpreferred ⊢
  generalize preferred? built' = best' at hpreferred ⊢
  cases hpreferred with
  | none => rfl
  | some hfile => exact congrArg some hfile.1

theorem buildOutput?_eq (h : t.Alike t') (p : Project) : p.buildOutput? t' = p.buildOutput? t := by
  unfold buildOutput?
  dsimp only
  apply map_preferred?_eq
  apply List.rel_filterMap _ (h.below _)
  rintro ⟨names, file⟩ ⟨_, file'⟩ ⟨rfl, hmodified⟩
  dsimp only
  split
  · exact .some ⟨rfl, hmodified⟩
  · exact .none

theorem sourceFiles_eq (h : t.Alike t') (p : Project) : p.sourceFiles t' = p.sourceFiles t := by
  unfold sourceFiles
  dsimp only
  apply congrArg Path.sort
  have hbelow := h.below p.directory
  generalize t.below p.directory = files at hbelow ⊢
  generalize t'.below p.directory = files' at hbelow ⊢
  induction hbelow with
  | nil => rfl
  | cons hfile _ ih =>
      rw [List.filter_cons, List.filter_cons, hfile.1]
      split
      · rw [List.map_cons, List.map_cons, hfile.1, ih]
      · exact ih

theorem ofFile_eq {paths : String → Prop} (h : AlikeAt paths t t') {path : String} (hpath : paths path) :
    ofFile t' path = ofFile t path := by
  rw [ofFile, ofFile, h.textOf hpath]

end Project

end CodeGraph
