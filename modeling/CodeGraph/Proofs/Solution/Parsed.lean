import CodeGraph.Proofs.Solution.FolderChains
import CodeGraph.Proofs.Solution.Written

namespace CodeGraph

open CodeGraph.Text

/-!
# Solutions that are read back

What was written of a solution is read back: its projects in their order, each with the folders around it.
A comma in a name or a path would make further fields of it.
-/

/-! ## Folders around entries -/

/-- An entry lies in a folder of the list. -/
structure Inside (entries : List WrittenEntry) (e folder : WrittenEntry) : Prop where
  mem : folder ∈ entries
  isFolder : folder.isFolder = true
  parent : ∃ parent, e.parent = some parent ∧ upperAscii parent = folder.key

/-- The names of the folders around an entry, the outermost first. -/
inductive FolderChain (entries : List WrittenEntry) : WrittenEntry → List String → Prop
  | outermost {e : WrittenEntry} (h : e.parent = none) : FolderChain entries e []
  | inside {e folder : WrittenEntry} {names : List String} (hin : Inside entries e folder)
      (h : FolderChain entries folder names) : FolderChain entries e (names ++ [folder.name])

/-- Entries that can be told apart, in folders of which none lies in itself. -/
structure WellWritten (entries : List WrittenEntry) : Prop where
  plain : ∀ e ∈ entries, e.Plain
  different : (entries.map (·.key)).Nodup
  parents : ∀ e ∈ entries, ∀ parent, e.parent = some parent →
    IsGuid parent ∧ ∃ folder, Inside entries e folder
  acyclic : ∀ e ∈ entries, ¬ Relation.TransGen (Inside entries) e e

/-- The tables say of every entry in which folder it lies, and of every folder its name. -/
structure Tabled (entries : List WrittenEntry) (parents folders : Dict String) : Prop where
  parent : ∀ e ∈ entries, parents.get? e.key = e.parent.map upperAscii
  folder : ∀ e ∈ entries, e.isFolder = true → folders.get? e.key = some e.name
  size : folders.size = (entries.filter (·.isFolder)).length

section Chain

variable {entries : List WrittenEntry} {parents folders : Dict String}

theorem eq_of_key_eq (h : WellWritten entries) {e e' : WrittenEntry} (he : e ∈ entries) (he' : e' ∈ entries)
    (hkey : e.key = e'.key) : e = e' :=
  List.inj_on_of_nodup_map h.different he he' hkey

/-- The tables know no other folders than those of the list. -/
theorem Tabled.exists_inside (ht : Tabled entries parents folders) (h : WellWritten entries)
    {e : WrittenEntry} (he : e ∈ entries) {parent : String} (hparent : parents.get? e.key = some parent) :
    ∃ folder, Inside entries e folder ∧ folder.key = parent ∧ folders.get? parent = some folder.name := by
  rw [ht.parent e he, Option.map_eq_some_iff] at hparent
  obtain ⟨written, hwritten, rfl⟩ := hparent
  obtain ⟨-, folder, hin⟩ := h.parents e he written hwritten
  obtain ⟨other, hother, hkey⟩ := hin.parent
  obtain rfl := Option.some.inj (hwritten.symm.trans hother)
  exact ⟨folder, hin, hkey.symm, hkey ▸ ht.folder folder hin.mem hin.isFolder⟩

/-- A way up through the tables is one through the entries. -/
theorem Tabled.exists_transGen (ht : Tabled entries parents folders) (h : WellWritten entries)
    {e : WrittenEntry} (he : e ∈ entries) {key : String}
    (hway : Relation.TransGen (InFolder parents folders) e.key key) :
    ∃ e' ∈ entries, Relation.TransGen (Inside entries) e e' ∧ e'.key = key := by
  induction hway with
  | single hin =>
      obtain ⟨folder, hinside, hkey, -⟩ := ht.exists_inside h he hin.1
      exact ⟨folder, hinside.mem, .single hinside, hkey⟩
  | tail _ hin ih =>
      obtain ⟨e', he', hway, rfl⟩ := ih
      obtain ⟨folder, hinside, hkey, -⟩ := ht.exists_inside h he' hin.1
      exact ⟨folder, hinside.mem, hway.tail hinside, hkey⟩

theorem Tabled.not_revisits (ht : Tabled entries parents folders) (h : WellWritten entries)
    {e : WrittenEntry} (he : e ∈ entries) : ¬ Revisits parents folders e.key := by
  rintro ⟨x, hx, hcycle⟩
  obtain ⟨e', he', rfl⟩ : ∃ e' ∈ entries, e'.key = x := by
    rcases Relation.reflTransGen_iff_eq_or_transGen.mp hx with rfl | hway
    · exact ⟨e, he, rfl⟩
    · obtain ⟨e', he', -, hkey⟩ := ht.exists_transGen h he hway
      exact ⟨e', he', hkey⟩
  obtain ⟨e'', he'', hway, hkey⟩ := ht.exists_transGen h he' hcycle
  obtain rfl := eq_of_key_eq h he'' he' hkey
  exact h.acyclic e'' he' hway

theorem Tabled.folderChain (ht : Tabled entries parents folders) (h : WellWritten entries) {key : String}
    {names : List String} (hnames : FolderNames parents folders key names) {e : WrittenEntry}
    (he : e ∈ entries) (hkey : e.key = key) : FolderChain entries e names := by
  induction hnames generalizing e with
  | outermost houtermost =>
      subst hkey
      refine .outermost (Option.eq_none_iff_forall_ne_some.mpr fun written hwritten => ?_)
      have hparent : parents.get? e.key = some (upperAscii written) := by
        rw [ht.parent e he, hwritten, Option.map_some]
      obtain ⟨folder, -, -, hname⟩ := ht.exists_inside h he hparent
      exact absurd (hname.symm.trans (houtermost _ hparent)) (Option.some_ne_none _)
  | inside hparent hname _ ih =>
      subst hkey
      obtain ⟨folder, hin, hkey, hfolder⟩ := ht.exists_inside h he hparent
      obtain rfl := Option.some.inj (hname.symm.trans hfolder)
      exact .inside hin (ih hin.mem hkey)

theorem folderChain_of_tabled (h : WellWritten entries) (ht : Tabled entries parents folders)
    {e : WrittenEntry} (he : e ∈ entries) :
    FolderChain entries e (folderChain parents folders e.key) := by
  obtain ⟨hnames, -⟩ := foldersAround_complete (folders.size + 1) (ht.not_revisits h he) List.nodup_nil
    (List.forall_mem_nil _) (List.forall_mem_nil _) rfl
  exact ht.folderChain h hnames he rfl

end Chain

/-! ## Tables -/

theorem folder?_keys_sublist (entries : List WrittenEntry) :
    ((entries.filterMap (·.folder?)).map (·.1)).Sublist (entries.map (·.key)) := by
  induction entries with
  | nil => exact .slnil
  | cons e entries ih =>
      cases hfolder : e.folder? with
      | none =>
          rw [List.filterMap_cons_none hfolder]
          exact ih.cons e.key
      | some x =>
          obtain ⟨parent, -, rfl⟩ := Option.map_eq_some_iff.mp hfolder
          rw [List.filterMap_cons_some hfolder]
          exact ih.cons_cons e.key

section Tables

variable {entries : List WrittenEntry} (h : WellWritten entries)

include h

theorem get?_parents {e : WrittenEntry} (he : e ∈ entries) :
    ((entries.filterMap (·.folder?)).foldl (fun d x => d.insert x.1 x.2) .empty : Dict String).get? e.key =
      e.parent.map upperAscii := by
  have hkeys := (folder?_keys_sublist entries).nodup h.different
  apply Option.ext
  intro parent
  rw [Dict.get?_foldl_insert Prod.fst Prod.snd hkeys]
  constructor
  · rintro ⟨x, hx, hkey, rfl⟩
    obtain ⟨e', he', hfolder⟩ := List.mem_filterMap.mp hx
    obtain ⟨p, hp, rfl⟩ := Option.map_eq_some_iff.mp hfolder
    obtain rfl := eq_of_key_eq h he' he hkey
    rw [hp]
    rfl
  · intro hparent
    obtain ⟨p, hp, rfl⟩ := Option.map_eq_some_iff.mp hparent
    refine ⟨(e.key, upperAscii p), List.mem_filterMap.mpr ⟨e, he, ?_⟩, rfl, rfl⟩
    rw [WrittenEntry.folder?, hp]
    rfl

theorem tabled {s : SolutionLines} (hentries : s.entries = entries.map (·.read))
    (hparents : s.parents = (entries.filterMap (·.folder?)).foldl (fun d x => d.insert x.1 x.2) .empty) :
    Tabled entries s.parents s.folders := by
  have hfolders : s.entries.filter (·.isFolder) = (entries.filter (·.isFolder)).map (·.read) := by
    rw [hentries, List.filter_map]
    rfl
  have hkeys : ((s.entries.filter (·.isFolder)).map (·.guid)).Nodup := by
    rw [hfolders, List.map_map]
    exact (List.filter_sublist.map _).nodup h.different
  constructor
  · intro e he
    rw [hparents]
    exact get?_parents h he
  · intro e he hfolder
    rw [SolutionLines.folders, Dict.get?_foldl_insert SolutionEntry.guid SolutionEntry.name hkeys, hfolders]
    exact ⟨e.read, List.mem_map_of_mem (List.mem_filter.mpr ⟨he, hfolder⟩), rfl, rfl⟩
  · rw [SolutionLines.folders, Dict.size,
      Dict.entries_foldl_insert SolutionEntry.guid SolutionEntry.name _ .empty hkeys, hfolders]
    simp [Dict.empty]

end Tables

/-! ## Solutions -/

/-- A project is read back as it was written, with the folders around it. -/
structure ReadBack (entries : List WrittenEntry) (directory : String) (e : WrittenEntry)
    (p : SolutionProject) : Prop where
  name : p.name = e.name
  path : p.path = Path.join directory (e.path.map fun c => if c = '\\' then '/' else c)
  guid : p.guid = upperAscii e.guid
  folders : FolderChain entries e p.folders

theorem slashed_eq (path : String) : slashed path = path.map fun c => if c = '\\' then '/' else c := by
  have hchars : ∀ s : Chars,
      Chars.replaceFrom ['\\'] ['/'] 0 s = s.map fun c => if c = '\\' then '/' else c := by
    intro s
    induction s with
    | nil => rfl
    | cons c s ih =>
        by_cases hc : c = '\\'
        · simp [Chars.replaceFrom, Chars.dropPrefix?, hc, ih]
        · simp [Chars.replaceFrom, Chars.dropPrefix?, hc, Ne.symm hc, ih]
  apply String.toList_injective
  rw [String.toList_map, ← hchars, slashed, replace, String.toList_ofList]
  rfl

/-- What is read of the lines of a written solution decides what its file is read as. -/
theorem parse_of_reads {lineBreak : String} (hbreak : lineBreak = "\n" ∨ lineBreak = "\r\n")
    {entries : List WrittenEntry} (h : WellWritten entries) {s : SolutionLines}
    (hs : SolutionLines.Reads .empty (solutionLines entries) s) (path : String) :
    Solution.parse path (unlines lineBreak (solutionLines entries)) =
      .ok ⟨path, (Path.stem? path).getD "Solution", (s.entries.filter (·.isProject)).map fun e =>
        ⟨e.name, Path.join (directoryOf path) (slashed e.path), e.guid,
          folderChain s.parents s.folders e.guid⟩⟩ := by
  have hparents : ∀ e ∈ entries, ∀ parent, e.parent = some parent → IsGuid parent :=
    fun e he parent hp => (h.parents e he parent hp).1
  rw [Solution.parse, lines_unlines hbreak (isLine_solutionLines h.plain hparents), hs.read_eq 1]

theorem WellWritten.guids {entries : List WrittenEntry} (h : WellWritten entries) :
    ∀ e ∈ entries, IsGuid e.guid ∧ ∀ parent, e.parent = some parent → IsGuid parent :=
  fun e he => ⟨(h.plain e he).guid, fun parent hp => (h.parents e he parent hp).1⟩

/-- The projects of a written solution are read back, whatever their names and paths are, as long as no
comma is in any of them. -/
theorem parse_solutionLines {lineBreak : String} (hbreak : lineBreak = "\n" ∨ lineBreak = "\r\n")
    {entries : List WrittenEntry} (h : WellWritten entries)
    (hcommas : ∀ e ∈ entries, ',' ∉ e.name.toList ∧ ',' ∉ e.path.toList) (path : String) :
    ∃ s, Solution.parse path (unlines lineBreak (solutionLines entries)) = .ok s ∧
      List.Forall₂ (ReadBack entries (directoryOf path)) (entries.filter (·.isProject)) s.projects := by
  have hread : ∀ e ∈ entries, SolutionEntry.ofLine? e.line = some e.read :=
    fun e he => WrittenEntry.ofLine?_line (h.plain e he) (hcommas e he).1 (hcommas e he).2
  have ht := tabled h (s := ⟨entries.map (·.read), _, false⟩) rfl rfl
  have hprojects : (entries.map (·.read)).filter (·.isProject) =
      (entries.filter (·.isProject)).map (·.read) := by
    rw [List.filter_map]
    rfl
  refine ⟨_, parse_of_reads hbreak h (SolutionLines.reads_solutionLines hread h.guids) path, ?_⟩
  dsimp only
  rw [hprojects, List.map_map, List.forall₂_map_right_iff]
  apply List.forall₂_same.mpr
  intro e he
  have hmem := (List.mem_filter.mp he).1
  exact ⟨rfl, by rw [← slashed_eq]; rfl, rfl, folderChain_of_tabled h ht hmem⟩

def sampleFolder : WrittenEntry :=
  ⟨SolutionEntry.folderType, "Libraries", "Libraries", "22222222-2222-2222-2222-222222222222", none⟩

def sampleProject (name : String) : WrittenEntry :=
  ⟨"FAE04EC0-301F-11D3-BF4B-00C04F79EFBC", name, "lib\\Util.csproj",
    "44444444-4444-4444-4444-444444444444", some "22222222-2222-2222-2222-222222222222"⟩

theorem sampleFolder_isFolder : sampleFolder.isFolder = true := by
  decide +kernel

theorem sampleProject_isFolder (name : String) : (sampleProject name).isFolder = false := by
  have htype : (upperAscii "FAE04EC0-301F-11D3-BF4B-00C04F79EFBC" == SolutionEntry.folderType) = false := by
    decide +kernel
  exact htype

theorem wellWritten_sample {name : String} (hname : '"' ∉ name.toList ∧ '\n' ∉ name.toList) :
    WellWritten [sampleFolder, sampleProject name] := by
  have hguid : IsGuid "44444444-4444-4444-4444-444444444444" := by decide +kernel
  have hparent : IsGuid "22222222-2222-2222-2222-222222222222" := by decide +kernel
  have hinside : ∀ {e folder : WrittenEntry}, Inside [sampleFolder, sampleProject name] e folder →
      folder = sampleFolder ∧ e.parent ≠ none := by
    rintro e folder ⟨hmem, hfolder, parent, heparent, -⟩
    refine ⟨?_, by rw [heparent]; exact Option.some_ne_none parent⟩
    rcases List.mem_cons.mp hmem with rfl | hmem
    · rfl
    · obtain rfl := List.mem_singleton.mp hmem
      rw [sampleProject_isFolder] at hfolder
      cases hfolder
  constructor
  · have hfolder : sampleFolder.Plain :=
      ⟨by decide +kernel, by decide +kernel, by decide +kernel, by decide +kernel⟩
    have htype : IsGuid "FAE04EC0-301F-11D3-BF4B-00C04F79EFBC" := by decide +kernel
    have hpath : '"' ∉ "lib\\Util.csproj".toList ∧ '\n' ∉ "lib\\Util.csproj".toList := by decide +kernel
    intro e he
    rcases List.mem_cons.mp he with rfl | he
    · exact hfolder
    · obtain rfl := List.mem_singleton.mp he
      exact ⟨htype, hguid, hname, hpath⟩
  · have hkeys : [upperAscii "22222222-2222-2222-2222-222222222222",
        upperAscii "44444444-4444-4444-4444-444444444444"].Nodup := by decide +kernel
    exact hkeys
  · intro e he parent heparent
    rcases List.mem_cons.mp he with rfl | he
    · cases heparent
    · obtain rfl := List.mem_singleton.mp he
      cases heparent
      exact ⟨hparent, sampleFolder, List.mem_cons_self, sampleFolder_isFolder, _, rfl, rfl⟩
  · intro e _ hcycle
    obtain ⟨folder, hfirst, -⟩ := Relation.TransGen.head'_iff.mp hcycle
    obtain ⟨last, -, hlast⟩ := Relation.TransGen.tail'_iff.mp hcycle
    obtain ⟨rfl, -⟩ := hinside hlast
    exact (hinside hfirst).2 rfl

theorem parse_solutionLines_util :
    (∀ e ∈ [sampleFolder, sampleProject "Util"], ',' ∉ e.name.toList ∧ ',' ∉ e.path.toList) ∧
      ∃ s, Solution.parse "/w/App.sln" (unlines "\n" (solutionLines [sampleFolder, sampleProject "Util"])) =
          .ok s ∧
        List.Forall₂ (ReadBack [sampleFolder, sampleProject "Util"] (directoryOf "/w/App.sln"))
          ([sampleFolder, sampleProject "Util"].filter (·.isProject)) s.projects := by
  have hcommas : ∀ e ∈ [sampleFolder, sampleProject "Util"],
      ',' ∉ e.name.toList ∧ ',' ∉ e.path.toList := by decide +kernel
  have hname : '"' ∉ "Util".toList ∧ '\n' ∉ "Util".toList := by decide +kernel
  exact ⟨hcommas, parse_solutionLines (.inl rfl) (wellWritten_sample hname) hcommas "/w/App.sln"⟩

/-- What is read of the sample when the project's name is `A,B`. -/
def sampleRead (e : WrittenEntry) : SolutionEntry :=
  if e.isFolder then e.read else ⟨"A", "B", "LIB\\UTIL.CSPROJ", false⟩

/-- A comma in a name ends the name: what follows it is read as the path, which is that of no project. -/
theorem parse_comma :
    WellWritten [sampleFolder, sampleProject "A,B"] ∧ (sampleProject "A,B").isProject = true ∧
      Solution.parse "/w/App.sln" (unlines "\n" (solutionLines [sampleFolder, sampleProject "A,B"])) =
        .ok ⟨"/w/App.sln", "App", []⟩ := by
  have hwritten : WellWritten [sampleFolder, sampleProject "A,B"] := wellWritten_sample (by decide +kernel)
  have hfolder : SolutionEntry.ofLine? sampleFolder.line = some sampleFolder.read :=
    WrittenEntry.ofLine?_line (hwritten.plain _ List.mem_cons_self) (by decide +kernel) (by decide +kernel)
  have hproject : SolutionEntry.ofLine? (sampleProject "A,B").line =
      some ⟨"A", "B", "LIB\\UTIL.CSPROJ", false⟩ := by decide +kernel
  have hnone : SolutionEntry.isProject ⟨"A", "B", "LIB\\UTIL.CSPROJ", false⟩ = false := by decide +kernel
  have hname : Path.stem? "/w/App.sln" = some "App" := by decide +kernel
  have hread : ∀ e ∈ [sampleFolder, sampleProject "A,B"],
      SolutionEntry.ofLine? e.line = some (sampleRead e) := by
    intro e he
    rcases List.mem_cons.mp he with rfl | he
    · rw [hfolder, sampleRead, if_pos sampleFolder_isFolder]
    · obtain rfl := List.mem_singleton.mp he
      rw [hproject, sampleRead, sampleProject_isFolder, if_neg Bool.false_ne_true]
  refine ⟨hwritten, by decide +kernel, ?_⟩
  rw [parse_of_reads (.inl rfl) hwritten (SolutionLines.reads_solutionLines hread hwritten.guids), hname]
  have hfolderRead : sampleFolder.read.isProject = false := by
    rw [SolutionEntry.isProject, WrittenEntry.read, sampleFolder_isFolder]
    rfl
  simp [sampleRead, sampleFolder_isFolder, sampleProject_isFolder, hnone, hfolderRead]

end CodeGraph
