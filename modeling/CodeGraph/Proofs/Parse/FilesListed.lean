import CodeGraph.Proofs.Parse.FilesRead
import CodeGraph.Proofs.Solution.Planned
import CodeGraph.RelevantFiles

namespace CodeGraph

open FileTree

/-!
# The files that are listed

The files that an input depends on are found apart from the parse. All that a parse reads is among them,
save for three kinds of files: projects that a source project refers to, modules outside the input where
the input is read from sources, and what lies beside the modules outside the input.
-/

namespace Path

theorem same_trans {a b c : String} (h : same a b = true) (h' : same b c = true) : same a c = true := by
  rw [same, beq_iff_eq] at h h' ⊢
  rw [h, h']

theorem exists_mem_dedup {paths : List String} {path : String} (h : path ∈ paths) :
    ∃ p ∈ dedup paths, same p path = true := by
  fun_induction dedup paths generalizing path with
  | case1 a b r hsame ih =>
      rcases List.mem_cons.mp h with rfl | h
      · exact ih List.mem_cons_self
      · rcases List.mem_cons.mp h with rfl | h
        · obtain ⟨p, hp, heq⟩ := ih (List.mem_cons_self (a := a) (l := r))
          exact ⟨p, hp, same_trans heq hsame⟩
        · exact ih (List.mem_cons_of_mem a h)
  | case2 a b r hsame ih =>
      rcases List.mem_cons.mp h with rfl | h
      · exact ⟨path, List.mem_cons_self, by rw [same, beq_self_eq_true]⟩
      · obtain ⟨p, hp, heq⟩ := ih h
        exact ⟨p, List.mem_cons_of_mem a hp, heq⟩
  | case3 l => exact ⟨path, h, by rw [same, beq_self_eq_true]⟩

end Path

/-- The path is among the paths, but for slashes and dots. -/
def Listed (files : List String) (path : String) : Prop :=
  ∃ p ∈ files, Path.same p path = true

theorem listed_of_mem {files : List String} {path : String} (h : path ∈ files) :
    Listed (Path.dedup (Path.sort files)) path :=
  Path.exists_mem_dedup (List.mem_mergeSort.mpr h)

/-! ## Modules -/

section Modules

variable {t : FileTree} {path : String}

theorem Metadata.mem_filesRead {withLocations : Bool} {p : String} (h : p ∈ filesRead withLocations path) :
    p = path ∨ p ∈ siblings path := by
  rcases List.mem_cons.mp h with h | h
  · exact .inl h
  · right
    cases withLocations with
    | true => exact h
    | false =>
        obtain rfl := List.mem_singleton.mp h
        exact List.mem_cons_of_mem _ List.mem_cons_self

theorem self_mem_moduleFiles (t : FileTree) (path : String) : path ∈ moduleFiles t path :=
  List.mem_cons_self

theorem filesRead_mem_moduleFiles {withLocations : Bool} {p : String}
    (h : p ∈ Metadata.filesRead withLocations path) (hfile : t.isFile p = true) : p ∈ moduleFiles t path := by
  rcases Metadata.mem_filesRead h with rfl | hsibling
  · exact self_mem_moduleFiles t p
  · exact List.mem_cons_of_mem _ (List.mem_filter.mpr ⟨List.mem_append_left _ hsibling, hfile⟩)

/-- What a module mentions does not depend on whether its locations are read. -/
theorem Metadata.ofFile_references {withLocations : Bool} {m : Metadata.BinaryModule}
    (h : Metadata.BinaryModule.ofFile t path withLocations = .ok m) :
    ∃ m', Metadata.BinaryModule.ofFile t path false = .ok m' ∧ m'.references = m.references := by
  unfold BinaryModule.ofFile at h ⊢
  cases hdata : t.read path with
  | error e =>
      rw [hdata] at h
      cases h
  | ok data =>
      rw [hdata] at h
      dsimp only at h ⊢
      cases hm : BinaryModule.ofBytes? path data with
      | none =>
          rw [hm] at h
          cases h
      | some m₀ =>
          rw [hm] at h
          obtain rfl := Except.ok.inj h
          exact ⟨_, rfl, rfl⟩

theorem fileIn_mem_moduleFiles {withLocations : Bool} {m : Metadata.BinaryModule}
    (h : Metadata.BinaryModule.ofFile t path withLocations = .ok m) {directory name : String}
    (hdirectory : Path.parent? path = some directory) (hname : name ∈ m.view.references)
    (hfile : t.isFile (Metadata.fileIn directory name) = true) :
    Metadata.fileIn directory name ∈ moduleFiles t path := by
  obtain ⟨m', hm', hreferences⟩ := Metadata.ofFile_references h
  have hmentioned : Metadata.fileIn directory name ∈ m'.view.references.map (Metadata.fileIn directory) := by
    change name ∈ m.references at hname
    rw [← hreferences] at hname
    exact List.mem_map_of_mem hname
  rw [moduleFiles, hdirectory, hm']
  exact List.mem_cons_of_mem _ (List.mem_filter.mpr ⟨List.mem_append_right _ hmentioned, hfile⟩)

end Modules

/-! ## Projects -/

theorem Project.path_of_ofFile {t : FileTree} {path : String} {p : Project} (h : ofFile t path = .ok p) :
    p.path = path := by
  obtain ⟨text, -, hparse⟩ := Except.exists_of_bind_eq_ok h
  unfold parse at hparse
  split at hparse
  · cases hparse
  · obtain rfl := Except.ok.inj hparse
    rfl

section Projects

variable {t : FileTree} {input : String} {mode : ParseMode} {kind : InputKind} {projects : List Project}

/-- What is listed of a project or a solution is what is listed of its projects. -/
theorem files_eq (hkind : kind ≠ .module) :
    kind.files t input mode = (kind.projects t input).bind fun ps => .ok (ps.flatMap (·.files t mode)) := by
  cases kind with
  | module => exact absurd rfl hkind
  | project =>
      unfold InputKind.files InputKind.projects
      cases Project.ofFile t input with
      | error e => rfl
      | ok p => exact congrArg Except.ok (List.append_nil _).symm
  | solution =>
      unfold InputKind.files InputKind.projects
      cases Solution.ofFile t input with
      | error e => rfl
      | ok solution => rfl

/-- A module that is read for a project. -/
inductive PlannedFor (t : FileTree) (mode : ParseMode) (p : Project) (m : PlannedModule) : Prop
  | binary {output : String} (hmode : mode = .binary) (houtput : p.buildOutput? t = some output)
      (hsource : m.source = .binary output) (hdirectory : m.searchDirectory = Path.parent? output)
  | source {name : String} {references : List String} (hmode : mode = .source)
      (hsource : m.source = .source name references (p.sourceFiles t))

theorem plannedFor {p : Project} {known : List Project} {parent : String} {m : PlannedModule}
    (h : p.planned? mode known t parent = some m) : PlannedFor t mode p m := by
  unfold Project.planned? at h
  cases mode with
  | binary =>
      cases houtput : p.buildOutput? t with
      | none =>
          rw [houtput] at h
          cases h
      | some output =>
          rw [houtput] at h
          obtain rfl := Option.some.inj h
          exact .binary rfl houtput rfl rfl
  | source =>
      obtain rfl := Option.some.inj h
      exact .source rfl rfl

theorem plannedFor_of_mem_ofProjects (solution : Solution) (projects : List Project) :
    ∀ m ∈ (Plan.ofProjects solution projects mode t).modules, ∃ p ∈ projects, PlannedFor t mode p m := by
  unfold Plan.ofProjects
  dsimp only
  refine List.foldlRecOn (motive := fun (plan : Plan) => ∀ m ∈ plan.modules,
    ∃ p ∈ projects, PlannedFor t mode p m) _ _ (List.forall_mem_nil _) ?_
  rintro plan ih ⟨entry, p⟩ hmem m hm
  dsimp only at hm
  rw [Plan.modules_addProject] at hm
  rcases List.mem_append.mp hm with hm | hm
  · exact ih m hm
  · exact ⟨p, (List.of_mem_zip hmem).2, plannedFor (Option.mem_toList.mp hm)⟩

/-- The modules of a plan are those of the input's projects. -/
theorem exists_project_of_mem_modules (hkind : InputKind.detect input = .ok kind) (hproject : kind ≠ .module)
    {plan : Plan} (hplan : Plan.ofInput t input mode = .ok plan) {m : PlannedModule} (hm : m ∈ plan.modules) :
    ∃ projects, kind.projects t input = .ok projects ∧ ∃ p ∈ projects, PlannedFor t mode p m := by
  cases kind with
  | module => exact absurd rfl hproject
  | project =>
      rw [Plan.ofInput_project hkind] at hplan
      obtain ⟨p, hp, hplanned⟩ := Except.exists_of_bind_eq_ok hplan
      refine ⟨[p], by rw [InputKind.projects, hp]; rfl, p, List.mem_cons_self, ?_⟩
      unfold Plan.ofProject at hplanned
      split at hplanned
      · next module hmodule =>
        obtain rfl := Except.ok.inj hplanned
        obtain rfl := List.mem_singleton.mp hm
        exact plannedFor hmodule
      · cases hplanned
  | solution =>
      rw [Plan.ofInput_solution hkind] at hplan
      obtain ⟨solution, hsolution, hplanned⟩ := Except.exists_of_bind_eq_ok hplan
      obtain ⟨projects, hprojects, hofProjects⟩ := Except.exists_of_bind_eq_ok hplanned
      obtain rfl := Except.ok.inj hofProjects
      refine ⟨projects, by rw [InputKind.projects, hsolution]; exact hprojects, ?_⟩
      exact plannedFor_of_mem_ofProjects solution projects m hm

end Projects

/-! ## Modules outside the input -/

namespace ModuleSet

theorem mem_internal_of_foldl {opened : List (String × OpenedModule)} {s : ModuleSet} {m : OpenedModule}
    (h : m ∈ (opened.foldl (fun s (parent, m) => (s.addInternal parent m .empty).1) s).internal) :
    m ∈ s.internal ∨ m ∈ opened.map (·.2) := by
  induction opened generalizing s with
  | nil => exact .inl h
  | cons placed more ih =>
      obtain ⟨parent, m'⟩ := placed
      rw [List.foldl_cons] at h
      rcases ih h with h | h
      · dsimp only [addInternal] at h
        split at h
        · exact .inl h
        · rcases List.mem_append.mp h with h | h
          · exact .inl h
          · exact .inr (List.mem_cons.mpr (.inl (List.mem_singleton.mp h)))
      · exact .inr (List.mem_cons_of_mem _ h)

end ModuleSet

section Externals

variable {t : FileTree} {config : Config} {input : String} {s : ModuleSet}

theorem exists_planned_of_mem_internal (h : inputModules t config input = .ok s) {m : OpenedModule}
    (hm : m ∈ s.internal) :
    ∃ plan, Plan.ofInput t input config.mode = .ok plan ∧ ∃ pm ∈ plan.modules,
      pm.source.view t config.debugSymbols = .ok m.view ∧ pm.searchDirectory = m.searchDirectory := by
  obtain ⟨plan, hplan, hread⟩ := Except.exists_of_bind_eq_ok h
  obtain ⟨opened, hopened, hset⟩ := Except.exists_of_bind_eq_ok hread
  obtain rfl := Except.ok.inj hset
  refine ⟨plan, hplan, ?_⟩
  rcases ModuleSet.mem_internal_of_foldl hm with hm | hm
  · cases hm
  · obtain ⟨placed, hplaced, rfl⟩ := List.mem_map.mp hm
    obtain ⟨pm, hpm, hplace⟩ := (Except.mapM_eq_ok hopened).2 placed hplaced
    obtain ⟨m, hread, hpair⟩ := Except.exists_of_bind_eq_ok hplace
    obtain ⟨view, hview, hmodule⟩ := Except.exists_of_bind_eq_ok hread
    obtain rfl := Except.ok.inj hpair
    obtain rfl := Except.ok.inj hmodule
    exact ⟨pm, hpm, hview, rfl⟩

end Externals

/-! ## All files -/

/-- The files that are read without being listed. -/
inductive Unlisted (t : FileTree) (config : Config) (input : String) : String → Prop
  /-- A project that is referred to and is not of the input. -/
  | referenced {kind : InputKind} {projects : List Project} {p : Project} {path : String}
      (hkind : InputKind.detect input = .ok kind) (hprojects : kind.projects t input = .ok projects)
      (hmode : config.mode = .source) (hp : p ∈ projects) (hpath : path ∈ p.projectReferences)
      (hother : ∀ p' ∈ projects, Path.same p'.path path = false) : Unlisted t config input path
  /-- A module outside an input that is read from sources. -/
  | external {s : ModuleSet} {e : String × String} (hkind : InputKind.detect input ≠ .ok .module)
      (hmode : config.mode = .source) (hexternal : config.externalReferences = true)
      (hs : inputModules t config input = .ok s) (he : e ∈ s.located t config) : Unlisted t config input e.2
  | besideExternal {s : ModuleSet} {e : String × String} {path : String}
      (hexternal : config.externalReferences = true) (hs : inputModules t config input = .ok s)
      (he : e ∈ s.located t config) (hpath : path ∈ Metadata.siblings e.2) : Unlisted t config input path

section Covering

variable {t : FileTree} {config : Config} {input : String} {kind : InputKind} {found : List String}

/-- What is listed of one of the projects is listed of the input. -/
theorem mem_files_of_project {mode : ParseMode} (hfound : kind.files t input mode = .ok found)
    {projects : List Project} (hprojects : kind.projects t input = .ok projects) {p : Project}
    (hp : p ∈ projects) {path : String} (hpath : path ∈ p.files t mode) : path ∈ found := by
  have hkind : kind ≠ .module := by
    rintro rfl
    obtain rfl := Except.ok.inj hprojects
    cases hp
  rw [files_eq hkind, hprojects] at hfound
  obtain rfl := Except.ok.inj hfound
  exact List.mem_flatMap.mpr ⟨p, hp, hpath⟩

theorem entry_mem_files {solution : Solution} {mode : ParseMode}
    (hfound : InputKind.solution.files t input mode = .ok found)
    (hsolution : Solution.ofFile t input = .ok solution) {entry : SolutionProject}
    (hentry : entry ∈ solution.projects) : entry.path ∈ found := by
  have hfiles := hfound
  rw [files_eq (by decide)] at hfiles
  obtain ⟨projects, hprojects, -⟩ := Except.exists_of_bind_eq_ok hfiles
  have hread : (solution.projects.mapM fun entry => Project.ofFile t entry.path) = .ok projects := by
    rw [InputKind.projects, hsolution] at hprojects
    exact hprojects
  obtain ⟨p, hp, hofFile⟩ := (Except.mapM_eq_ok hread).1 entry hentry
  apply mem_files_of_project hfound hprojects hp
  rw [← Project.path_of_ofFile hofFile]
  cases mode <;> exact List.mem_cons_self

/-- What a module of the input is read from is listed. -/
inductive ListedModule (t : FileTree) (config : Config) (input : String) (found : List String)
    (m : PlannedModule) : Prop
  | binary {output : String} (hsource : m.source = .binary output)
      (hdirectory : m.searchDirectory = Path.parent? output) (hfiles : moduleFiles t output ⊆ found)
  | source {name : String} {references files : List String} (hkind : InputKind.detect input ≠ .ok .module)
      (hmode : config.mode = .source) (hsource : m.source = .source name references files)
      (hfiles : files ⊆ found)

theorem listedModule (hkind : InputKind.detect input = .ok kind)
    (hfound : kind.files t input config.mode = .ok found) {plan : Plan}
    (hplan : Plan.ofInput t input config.mode = .ok plan) {m : PlannedModule} (hm : m ∈ plan.modules) :
    ListedModule t config input found m := by
  by_cases hmodule : kind = .module
  · subst hmodule
    rw [Plan.ofInput_module hkind, Plan.ofModule] at hplan
    split at hplan
    · obtain rfl := Except.ok.inj hplan
      obtain rfl := List.mem_singleton.mp hm
      obtain rfl := Except.ok.inj hfound
      exact .binary rfl rfl (List.Subset.refl _)
    · cases hplan
  · obtain ⟨projects, hprojects, p, hp, hplanned⟩ := exists_project_of_mem_modules hkind hmodule hplan hm
    have hfiles : p.files t config.mode ⊆ found := fun path => mem_files_of_project hfound hprojects hp
    cases hplanned with
    | binary hmode houtput hsource hdirectory =>
        refine .binary hsource hdirectory fun path hpath => hfiles ?_
        rw [hmode, Project.files, houtput]
        exact List.mem_cons_of_mem _ (List.mem_flatMap.mpr ⟨_, List.mem_singleton_self _, hpath⟩)
    | source hmode hsource =>
        have hother : InputKind.detect input ≠ .ok .module := by
          rw [hkind]
          exact fun heq => hmodule (Except.ok.inj heq)
        refine .source hother hmode hsource fun path hpath => hfiles ?_
        rw [hmode]
        exact List.mem_cons_of_mem _ hpath

variable {m : PlannedModule}

theorem ListedModule.mem (h : ListedModule t config input found m) {path : String}
    (hpath : path ∈ m.source.filesRead config.debugSymbols) (hfile : t.isFile path = true) : path ∈ found := by
  cases h with
  | binary hsource _ hfiles =>
      rw [hsource] at hpath
      exact hfiles (filesRead_mem_moduleFiles hpath hfile)
  | source _ _ hsource hfiles =>
      rw [hsource] at hpath
      exact hfiles hpath

/-- A module outside the input is listed beside the module of the input that mentions it, if that one is read
from a file of its own. -/
theorem ListedModule.mem_located (h : ListedModule t config input found m) {view : ModuleView}
    (hview : m.source.view t config.debugSymbols = .ok view) {e : String × String}
    (hname : e.1 ∈ view.references)
    (hfile : (ModuleMentions.mk view.references m.searchDirectory).fileOf? t e.1 = some e.2) :
    e.2 ∈ found ∨ InputKind.detect input ≠ .ok .module ∧ config.mode = .source := by
  cases h with
  | source hkind hmode => exact .inr ⟨hkind, hmode⟩
  | binary hsource hdirectory hfiles =>
      rw [hsource] at hview
      obtain ⟨b, hb, rfl⟩ := Except.exists_of_map_eq_ok hview
      obtain ⟨hlocated, hisFile⟩ := Option.filter_eq_some_iff.mp hfile
      obtain ⟨directory, hsearch, heq⟩ := Option.map_eq_some_iff.mp hlocated
      rw [← heq] at hisFile ⊢
      exact .inl (hfiles (fileIn_mem_moduleFiles hb (hdirectory.symm.trans hsearch) hname hisFile))

theorem relevantFiles_eq_ok {mode : ParseMode} {files : List String}
    (h : relevantFiles t input mode = .ok files) :
    ∃ kind found, InputKind.detect input = .ok kind ∧ kind.files t input mode = .ok found ∧
      ∀ path ∈ input :: found, Listed files path := by
  obtain ⟨kind, hkind, hfiles⟩ := Except.exists_of_bind_eq_ok h
  obtain ⟨found, hfound, hall⟩ := Except.exists_of_bind_eq_ok hfiles
  obtain rfl := Except.ok.inj hall
  exact ⟨kind, found, hkind, hfound, fun path hpath => listed_of_mem hpath⟩

theorem listed_or_unlisted {files : List String} (h : relevantFiles t input config.mode = .ok files)
    {path : String} (hread : Reads t config input path) (hfile : t.isFile path = true) :
    Listed files path ∨ Unlisted t config input path := by
  obtain ⟨kind, found, hkind, hfound, hlisted⟩ := relevantFiles_eq_ok h
  have hkinds : ∀ {kind'}, InputKind.detect input = .ok kind' → kind' = kind :=
    fun h' => Except.ok.inj (h'.symm.trans hkind)
  cases hread with
  | input => exact .inl (hlisted _ List.mem_cons_self)
  | project hsolutionKind hsolution hentry =>
      obtain rfl := hkinds hsolutionKind
      exact .inl (hlisted _ (List.mem_cons_of_mem _ (entry_mem_files hfound hsolution hentry)))
  | @referenced kind' projects p _ hkind' hprojects hmode hp hpath =>
      obtain rfl := hkinds hkind'
      by_cases hother : ∀ p' ∈ projects, Path.same p'.path path = false
      · exact .inr (.referenced hkind hprojects hmode hp hpath hother)
      · simp only [not_forall] at hother
        obtain ⟨p', hp', hsame⟩ := hother
        have hmem : p'.path ∈ found := by
          apply mem_files_of_project hfound hprojects hp'
          cases config.mode <;> exact List.mem_cons_self
        obtain ⟨q, hq, hlike⟩ := hlisted _ (List.mem_cons_of_mem _ hmem)
        exact .inl ⟨q, hq, Path.same_trans hlike (eq_true_of_ne_false hsame)⟩
  | module hplan hm hpath =>
      have hmodule := listedModule hkind hfound hplan hm
      exact .inl (hlisted _ (List.mem_cons_of_mem _ (hmodule.mem hpath hfile)))
  | @external s e _ hexternal hs he hpath =>
      rcases Metadata.mem_filesRead hpath with rfl | hsibling
      · have hlocated := (locateExternals_located t s.modules config.ignored _).2 e he
        obtain ⟨mentions, hmentions, hname, hfileOf⟩ := hlocated.file
        obtain ⟨m, hm, rfl⟩ := List.mem_map.mp hmentions
        obtain ⟨plan, hplan, pm, hpm, hview, hdirectory⟩ := exists_planned_of_mem_internal hs hm
        rw [OpenedModule.mentions, ← hdirectory] at hfileOf
        rcases (listedModule hkind hfound hplan hpm).mem_located hview hname hfileOf with hmem | ⟨hnot, hmode⟩
        · exact .inl (hlisted _ (List.mem_cons_of_mem _ hmem))
        · exact .inr (.external hnot hmode hexternal hs he)
      · exact .inr (.besideExternal hexternal hs he hsibling)

theorem ofInput_eq_error (hkind : InputKind.detect input = .ok kind) {mode : ParseMode} {e : Failure}
    (h : kind.projects t input = .error e) : Plan.ofInput t input mode = .error e := by
  cases kind with
  | module => cases h
  | project =>
      rw [Plan.ofInput_project hkind]
      rcases Except.bind_eq_error h with hp | ⟨p, -, hone⟩
      · rw [hp]
        rfl
      · cases hone
  | solution =>
      rw [Plan.ofInput_solution hkind]
      rcases Except.bind_eq_error h with hsolution | ⟨solution, hsolution, hprojects⟩
      · rw [hsolution]
        rfl
      · rw [hsolution]
        change (solution.projects.mapM fun entry => Project.ofFile t entry.path).bind _ = _
        rw [hprojects]
        rfl

/-- Where the files of an input cannot be listed, there is no plan for it either. -/
theorem ofInput_eq_error_of_relevantFiles {mode : ParseMode} {e : Failure}
    (h : relevantFiles t input mode = .error e) : Plan.ofInput t input mode = .error e := by
  rcases Except.bind_eq_error h with hkind | ⟨kind, hkind, hfiles⟩
  · unfold Plan.ofInput
    rw [hkind]
    rfl
  · rcases Except.bind_eq_error hfiles with hfound | ⟨found, -, hall⟩
    · by_cases hmodule : kind = .module
      · subst hmodule
        cases hfound
      · rw [files_eq hmodule] at hfound
        rcases Except.bind_eq_error hfound with hprojects | ⟨projects, -, hall⟩
        · exact ofInput_eq_error hkind hprojects
        · cases hall
    · cases hall

end Covering

/-- All that a parse reads is listed, or of one of the three kinds that are not. What a parse gives depends
on the contents of no other files, and where the files cannot be listed, the input cannot be parsed for the
same reason. -/
theorem relevantFiles_cover (t : FileTree) (config : Config) (input : String) :
    (∀ files, relevantFiles t input config.mode = .ok files →
      ∀ path, Reads t config input path → t.isFile path = true →
        Listed files path ∨ Unlisted t config input path) ∧
    (∀ t', AlikeAt (Reads t config input) t t' →
      ∀ stop, parse t' config input stop = parse t config input stop) ∧
    ∀ e, relevantFiles t input config.mode = .error e →
      ∀ stop, (parse t config input stop).result = .error e := by
  refine ⟨fun files h path => listed_or_unlisted h, fun t' h stop => parse_eq h stop, fun e h stop => ?_⟩
  unfold parse parsing
  rw [ofInput_eq_error_of_relevantFiles h]
  rfl

/-- A project that refers to another one, which builds a module of some name. -/
def referringTree (name : String) : FileTree :=
  let app := "<Project><ProjectReference Include=\"..\\Lib\\Lib.csproj\"/></Project>"
  let lib := "<Project><AssemblyName>" ++ name ++ "</AssemblyName></Project>"
  ⟨[(["App", "App.csproj"], ⟨(Metadata.Plain.ascii app).toArray, 0⟩),
    (["Lib", "Lib.csproj"], ⟨(Metadata.Plain.ascii lib).toArray, 0⟩)], [], []⟩

/-- The other project is read for the name of what it builds, and is not listed. -/
theorem referenced_unlisted :
    let config : Config := { Config.usual with mode := .source }
    let t := referringTree "Core"
    Reads t config "/App/App.csproj" "/Lib/Lib.csproj" ∧ t.isFile "/Lib/Lib.csproj" = true ∧
      relevantFiles t "/App/App.csproj" .source = .ok ["/App/App.csproj"] ∧
      ¬ Listed ["/App/App.csproj"] "/Lib/Lib.csproj" ∧
      Plan.ofInput t "/App/App.csproj" .source ≠
        Plan.ofInput (referringTree "Lib") "/App/App.csproj" .source := by
  intro config t
  have hkind : InputKind.detect "/App/App.csproj" = .ok .project :=
    Except.toOption_eq_some (by decide +kernel)
  have hread : (Project.ofFile t "/App/App.csproj").toOption.map
      (fun p => (p.path, p.projectReferences, p.sourceFiles t)) =
        some ("/App/App.csproj", ["/Lib/Lib.csproj"], []) := by decide +kernel
  obtain ⟨p, hp, hfacts⟩ := Option.map_eq_some_iff.mp hread
  obtain ⟨hpath, hmore⟩ := Prod.mk.inj hfacts
  obtain ⟨hreferences, hsources⟩ := Prod.mk.inj hmore
  have hprojects : InputKind.project.projects t "/App/App.csproj" = .ok [p] := by
    rw [InputKind.projects, Except.toOption_eq_some hp]
    rfl
  refine ⟨?_, by decide +kernel, ?_, ?_, ?_⟩
  · exact .referenced hkind hprojects rfl List.mem_cons_self
      (by rw [hreferences]; exact List.mem_cons_self) fun heq => InputKind.noConfusion heq
  · have hfound : InputKind.project.files t "/App/App.csproj" .source = .ok ["/App/App.csproj"] := by
      rw [files_eq (by decide), hprojects]
      change Except.ok [p.path :: p.sourceFiles t].flatten = _
      rw [hpath, hsources]
      rfl
    have hle : (Path.compare "/App/App.csproj" "/App/App.csproj").isLE = true := by decide +kernel
    have hsorted : Path.sort ["/App/App.csproj", "/App/App.csproj"] =
        ["/App/App.csproj", "/App/App.csproj"] :=
      List.mergeSort_of_pairwise (by simp [hle])
    have hlisted : relevantFiles t "/App/App.csproj" .source =
        .ok (Path.dedup (Path.sort ["/App/App.csproj", "/App/App.csproj"])) := by
      simp only [relevantFiles, hkind, hfound, bind, Except.bind]
      rfl
    rw [hlisted, hsorted]
    simp [Path.dedup, Path.same]
  · rintro ⟨path, hmem, hsame⟩
    obtain rfl := List.mem_singleton.mp hmem
    exact absurd hsame (by decide +kernel)
  · intro heq
    have hnames := congrArg (fun r : Except Failure Plan => r.toOption.map (·.modules.map (·.source))) heq
    exact absurd hnames (by decide +kernel)

end CodeGraph
