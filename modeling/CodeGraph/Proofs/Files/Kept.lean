import CodeGraph.FileTree

namespace CodeGraph.FileTree

/-!
# Files that are kept

A file that is written is read under the path that it was written to, for the directories on the way stay
where they are.
-/

variable {t t' : FileTree} {place target : Place} {file : File}

theorem hasDirectory_putAt (target : Place) (file : File) (h : t.hasDirectory place = true) :
    (t.putAt target file).hasDirectory place = true := by
  simp only [hasDirectory, Bool.or_eq_true, List.any_eq_true, Bool.and_eq_true] at h ⊢
  rcases h with h | ⟨⟨p, old⟩, hmem, hbelow⟩
  · exact Or.inl h
  · by_cases hp : p = target
    · exact Or.inr ⟨(target, file), by simp [putAt], hp ▸ hbelow⟩
    · exact Or.inr ⟨(p, old), by simp [putAt, hmem, hp], hbelow⟩

theorem fileAt?_putAt (t : FileTree) (target : Place) (file : File) :
    (t.putAt target file).fileAt? target = some file := by
  have hothers : (t.files.filter (·.1 != target)).lookup target = none := by
    rw [List.lookup_eq_none_iff]
    intro entry hentry
    have hne : entry.1 ≠ target := bne_iff_ne.mp (List.mem_filter.mp hentry).2
    simpa using Ne.symm hne
  rw [fileAt?, putAt, List.lookup_append, hothers, Option.none_or, List.lookup_cons_self]

/-- Where a step leads does not depend on what is there. -/
theorem exists_follow_cons {c : Path.Component} (hc : c ≠ .root) (place : Place) (rest : List Path.Component) :
    ∃ next, ∀ t : FileTree, t.follow place (c :: rest) =
      if t.hasDirectory place then t.follow next rest
      else if (t.fileAt? place).isSome then .error .notDirectory
      else .error .notFound := by
  cases c with
  | root => exact absurd rfl hc
  | here => exact ⟨place, fun _ => rfl⟩
  | up => exact ⟨place.dropLast, fun _ => rfl⟩
  | name n => exact ⟨place ++ [n], fun _ => rfl⟩

/-- A path leads to the same place where no directory is missing. -/
theorem follow_of_hasDirectory (hmore : ∀ place, t.hasDirectory place = true → t'.hasDirectory place = true)
    {components : List Path.Component} (h : t.follow place components = .ok target) :
    t'.follow place components = .ok target := by
  induction components generalizing place with
  | nil => exact h
  | cons c rest ih =>
      by_cases hc : c = .root
      · subst hc
        exact ih h
      · obtain ⟨next, hnext⟩ := exists_follow_cons hc place rest
        rw [hnext] at h ⊢
        split at h
        · next hdirectory =>
            rw [if_pos (hmore place hdirectory)]
            exact ih h
        · split at h <;> cases h

theorem write_eq_ok_iff {path : String} :
    t.write path file = .ok t' ↔
      ∃ place, path.isEmpty = false ∧ t.follow t.current (Path.components path) = .ok place ∧
        t.hasDirectory place = false ∧ meansDirectory path = false ∧ t.putAt place file = t' := by
  rw [write]
  cases hpath : path.isEmpty with
  | true => simp [bind, Except.bind]
  | false =>
      cases hfollow : t.follow t.current (Path.components path) with
      | error e => simp [bind, Except.bind]
      | ok place =>
          cases hdirectory : t.hasDirectory place <;> cases hmeans : meansDirectory path <;>
            simp [bind, Except.bind, hdirectory, pure, Except.pure]

/-- What is written is read. -/
theorem read_write {path : String} (h : t.write path file = .ok t') : t'.read path = .ok file.data := by
  obtain ⟨place, hpath, hfollow, -, hmeans, rfl⟩ := write_eq_ok_iff.mp h
  have hsame : (t.putAt place file).follow t.current (Path.components path) = .ok place :=
    follow_of_hasDirectory (fun p => hasDirectory_putAt place file) hfollow
  have hlocate : (t.putAt place file).locate path = .ok place := by
    have hcurrent : (t.putAt place file).current = t.current := rfl
    rw [locate, hpath, if_neg Bool.false_ne_true, hcurrent, hsame, hmeans]
    rfl
  rw [read, hlocate]
  simp only [bind, Except.bind, fileAt?_putAt]
  rfl

theorem readText_write {path text : String} (h : t.write path file = .ok t')
    (htext : Text.ofUtf8? file.data.toList = some text) : t'.readText path = .ok text := by
  rw [readText, read_write h]
  simp only [bind, Except.bind, htext]
  rfl

end CodeGraph.FileTree
