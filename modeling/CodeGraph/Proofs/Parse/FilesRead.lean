import CodeGraph.Proofs.Files.Alike
import CodeGraph.Proofs.Parse.Identity

namespace CodeGraph

open FileTree

/-!
# The files that are read

What a parse gives depends on which files there are, on when they were last changed, and on the contents of
those that it reads.
-/

/-! ## Modules -/

namespace Metadata

/-- What is read of a compiled module and of what lies beside it. -/
def filesRead (withLocations : Bool) (path : String) : List String :=
  path :: if withLocations then siblings path else [Path.withExtension path docsExtension]

variable {paths : String → Prop} {t t' : FileTree}

theorem docs_mem_filesRead (withLocations : Bool) (path : String) :
    Path.withExtension path docsExtension ∈ filesRead withLocations path := by
  cases withLocations <;> simp [filesRead, siblings]

theorem siblingDocs?_eq (h : AlikeAt paths t t') {path : String}
    (hdocs : paths (Path.withExtension path docsExtension)) : siblingDocs? t' path = siblingDocs? t path := by
  unfold siblingDocs?
  rw [h.readText hdocs]

theorem siblingPdb?_eq (h : AlikeAt paths t t') {path : String}
    (hpdb : paths (Path.withExtension path pdbExtension)) : siblingPdb? t' path = siblingPdb? t path := by
  rw [siblingPdb?, siblingPdb?, h.contents _ hpdb]

theorem ofFile_eq (h : AlikeAt paths t t') {path : String} {withLocations : Bool}
    (hpaths : ∀ p ∈ filesRead withLocations path, paths p) :
    BinaryModule.ofFile t' path withLocations = BinaryModule.ofFile t path withLocations := by
  have hsiblings : (siblings path).filter t'.contains = (siblings path).filter t.contains :=
    List.filter_congr fun p _ => h.toAlike.contains p
  have hpdb : (if withLocations then siblingPdb? t' path else none) =
      if withLocations then siblingPdb? t path else none := by
    cases withLocations with
    | false => rw [if_neg Bool.false_ne_true, if_neg Bool.false_ne_true]
    | true => exact siblingPdb?_eq h (hpaths _ (by simp [filesRead, siblings]))
  rw [BinaryModule.ofFile, BinaryModule.ofFile, h.read (hpaths path List.mem_cons_self), hsiblings, hpdb,
    siblingDocs?_eq h (hpaths _ (docs_mem_filesRead withLocations path))]

end Metadata

namespace ModuleSource

def filesRead (withLocations : Bool) : ModuleSource → List String
  | .binary path => Metadata.filesRead withLocations path
  | .source _ _ files => files

theorem view_eq {paths : String → Prop} {t t' : FileTree} (h : AlikeAt paths t t') {source : ModuleSource}
    {withLocations : Bool} (hpaths : ∀ p ∈ source.filesRead withLocations, paths p) :
    source.view t' withLocations = source.view t withLocations := by
  cases source with
  | binary path => rw [view, view, Metadata.ofFile_eq h hpaths]
  | source name references files =>
      have htexts : (files.mapM fun path => return (path, ← t'.textOf path)) =
          files.mapM fun path => return (path, ← t.textOf path) :=
        Except.mapM_congr fun path hpath => by rw [h.textOf (hpaths path hpath)]
      rw [view, view, CSharp.SourceModule.ofFiles, CSharp.SourceModule.ofFiles, htexts]

end ModuleSource

/-! ## Plans -/

/-- The projects of an input. All of them have to be readable. -/
def InputKind.projects (t : FileTree) (input : String) : InputKind → Except Failure (List Project)
  | .module => return []
  | .project => return [← Project.ofFile t input]
  | .solution => do (← Solution.ofFile t input).projects.mapM fun entry => Project.ofFile t entry.path

/-- The module with the name of the node above it. -/
def PlannedModule.place (p : PlannedModule) (t : FileTree) (withLocations : Bool) :
    Except Failure (String × OpenedModule) :=
  return (p.parent, ← p.read t withLocations)

/-- The modules of an input, when all of them could be read. -/
def inputModules (t : FileTree) (config : Config) (input : String) : Except Failure ModuleSet := do
  let plan ← Plan.ofInput t input config.mode
  let opened ← plan.modules.mapM (·.place t config.debugSymbols)
  return opened.foldl (fun s (parent, m) => (s.addInternal parent m .empty).1)
    (.empty plan.externalsRoot config.ignored)

/-- The modules outside the input that are opened, with their files. -/
def ModuleSet.located (s : ModuleSet) (t : FileTree) (config : Config) : List (String × String) :=
  locateExternals t s.modules config.ignored (s.internal.map (·.mentions))

/-- The contents of the file are read by a parse of the input. -/
inductive Reads (t : FileTree) (config : Config) (input : String) : String → Prop
  | input {kind : InputKind} (hkind : InputKind.detect input = .ok kind) : Reads t config input input
  | project {solution : Solution} {entry : SolutionProject} (hkind : InputKind.detect input = .ok .solution)
      (hsolution : Solution.ofFile t input = .ok solution) (hentry : entry ∈ solution.projects) :
      Reads t config input entry.path
  /-- A project that is referred to, for the name of what it builds. Those of one solution know each other. -/
  | referenced {kind : InputKind} {projects : List Project} {p : Project} {path : String}
      (hkind : InputKind.detect input = .ok kind) (hprojects : kind.projects t input = .ok projects)
      (hmode : config.mode = .source) (hp : p ∈ projects) (hpath : path ∈ p.projectReferences)
      (hunknown : kind = .solution → ∀ p' ∈ projects, Path.same p'.path path = false) :
      Reads t config input path
  | module {plan : Plan} {m : PlannedModule} {path : String}
      (hplan : Plan.ofInput t input config.mode = .ok plan) (hm : m ∈ plan.modules)
      (hpath : path ∈ m.source.filesRead config.debugSymbols) : Reads t config input path
  | external {s : ModuleSet} {e : String × String} {path : String}
      (hexternal : config.externalReferences = true) (hs : inputModules t config input = .ok s)
      (he : e ∈ s.located t config) (hpath : path ∈ Metadata.filesRead config.debugSymbols e.2) :
      Reads t config input path

namespace Project

variable {paths : String → Prop} {t t' : FileTree} (h : AlikeAt paths t t')

include h

theorem assemblyNameAt_eq {projects : List Project} {path : String}
    (hpath : (∀ p ∈ projects, Path.same p.path path = false) → paths path) :
    assemblyNameAt projects t' path = assemblyNameAt projects t path := by
  unfold assemblyNameAt
  cases hfind : projects.reverse.find? fun p => Path.same p.path path with
  | some p => rfl
  | none =>
      have hunknown : ∀ p ∈ projects, Path.same p.path path = false := by
        intro p hp
        have hnot := List.find?_eq_none.mp hfind p (List.mem_reverse.mpr hp)
        exact Bool.eq_false_iff.mpr hnot
      rw [ofFile_eq h (hpath hunknown)]

/-- A project is planned alike when the projects that it asks for their names hold the same. -/
theorem planned?_eq {p : Project} {mode : ParseMode} {projects : List Project}
    (hnames : mode = .source → ∀ path ∈ p.projectReferences,
      (∀ p ∈ projects, Path.same p.path path = false) → paths path) (parent : String) :
    p.planned? mode projects t' parent = p.planned? mode projects t parent := by
  unfold planned?
  rw [buildOutput?_eq h.toAlike]
  cases mode with
  | binary => rfl
  | source =>
      have hvisible : p.visibleModules projects t' = p.visibleModules projects t := by
        rw [visibleModules, visibleModules, List.map_congr_left fun path hpath =>
          assemblyNameAt_eq h (hnames rfl path hpath)]
      rw [hvisible, sourceFiles_eq h.toAlike]

end Project

theorem Solution.ofFile_eq {paths : String → Prop} {t t' : FileTree} (h : AlikeAt paths t t') {path : String}
    (hpath : paths path) : ofFile t' path = ofFile t path := by
  rw [ofFile, ofFile, h.textOf hpath]

namespace Plan

variable {t : FileTree} {input : String} {mode : ParseMode}

theorem ofInput_module (hkind : InputKind.detect input = .ok .module) :
    ofInput t input mode = ofModule input t := by
  rw [ofInput, hkind]
  rfl

theorem ofInput_project (hkind : InputKind.detect input = .ok .project) :
    ofInput t input mode = (Project.ofFile t input).bind (ofProject · mode t) := by
  rw [ofInput, hkind]
  rfl

theorem ofInput_solution (hkind : InputKind.detect input = .ok .solution) :
    ofInput t input mode = (Solution.ofFile t input).bind (ofSolution · mode t) := by
  rw [ofInput, hkind]
  rfl

variable {paths : String → Prop} {t' : FileTree}

theorem ofProject_eq (h : AlikeAt paths t t') {p : Project}
    (hnames : mode = .source → ∀ path ∈ p.projectReferences, paths path) :
    ofProject p mode t' = ofProject p mode t := by
  rw [ofProject, ofProject, Project.planned?_eq h fun hmode path hpath _ => hnames hmode path hpath]

theorem ofProjects_eq (h : AlikeAt paths t t') {solution : Solution} {projects : List Project}
    (hnames : mode = .source → ∀ p ∈ projects, ∀ path ∈ p.projectReferences,
      (∀ p ∈ projects, Path.same p.path path = false) → paths path) :
    ofProjects solution projects mode t' = ofProjects solution projects mode t := by
  unfold ofProjects
  apply List.foldl_ext
  rintro plan ⟨entry, project⟩ hmem
  have hproject := (List.of_mem_zip hmem).2
  dsimp only
  rw [Project.planned?_eq h fun hmode path hpath => hnames hmode project hproject path hpath]

theorem ofSolution_eq (h : AlikeAt paths t t') {solution : Solution}
    (hentries : ∀ entry ∈ solution.projects, paths entry.path)
    (hnames : mode = .source → ∀ projects,
      (solution.projects.mapM fun entry => Project.ofFile t entry.path) = .ok projects →
        ∀ p ∈ projects, ∀ path ∈ p.projectReferences,
          (∀ p ∈ projects, Path.same p.path path = false) → paths path) :
    ofSolution solution mode t' = ofSolution solution mode t := by
  have hread : (solution.projects.mapM fun entry => Project.ofFile t' entry.path) =
      solution.projects.mapM fun entry => Project.ofFile t entry.path :=
    Except.mapM_congr fun entry hentry => Project.ofFile_eq h (hentries entry hentry)
  rw [ofSolution, ofSolution, hread]
  apply Except.bind_congr
  intro projects hall
  exact congrArg Except.ok (ofProjects_eq h fun hmode => hnames hmode projects hall)

end Plan

section Same

variable {t t' : FileTree} {config : Config} {input : String} (h : AlikeAt (Reads t config input) t t')

include h

theorem Plan.ofInput_eq : Plan.ofInput t' input config.mode = Plan.ofInput t input config.mode := by
  cases hkind : InputKind.detect input with
  | error e => rw [ofInput, ofInput, hkind]; rfl
  | ok kind =>
      cases kind with
      | module => rw [ofInput_module hkind, ofInput_module hkind, ofModule, ofModule, h.isFile]
      | project =>
          rw [ofInput_project hkind, ofInput_project hkind, Project.ofFile_eq h (.input hkind)]
          apply Except.bind_congr
          intro p hp
          have hone : InputKind.project.projects t input = .ok [p] := by rw [InputKind.projects, hp]; rfl
          apply ofProject_eq h
          intro hmode path hpath
          exact .referenced hkind hone hmode List.mem_cons_self hpath fun heq => InputKind.noConfusion heq
      | solution =>
          rw [ofInput_solution hkind, ofInput_solution hkind, Solution.ofFile_eq h (.input hkind)]
          apply Except.bind_congr
          intro solution hsolution
          apply ofSolution_eq h
          · exact fun entry hentry => .project hkind hsolution hentry
          · intro hmode projects hall p hp path hpath hunknown
            have hmany : InputKind.solution.projects t input = .ok projects := by
              rw [InputKind.projects, hsolution]
              exact hall
            exact .referenced hkind hmany hmode hp hpath fun _ => hunknown

end Same

/-! ## Parses -/

namespace Parsing

variable {α β : Type} {p : Progress}

theorem runFrom_bind_congr {x : Parsing α} {f g : α → Parsing β}
    (h : ∀ a q, x.runFrom p = (.ok a, q) → (g a).runFrom q = (f a).runFrom q) :
    (x >>= g).runFrom p = (x >>= f).runFrom p := by
  rcases hx : x.runFrom p with ⟨e | a, q⟩
  · rw [runFrom_bind_error hx, runFrom_bind_error hx]
  · rw [runFrom_bind_ok hx, runFrom_bind_ok hx, h a q hx]

end Parsing

open Parsing

theorem readModules_eq {t t' : FileTree} {withLocations : Bool} {planned : List PlannedModule}
    (h : ∀ m ∈ planned, m.read t' withLocations = m.read t withLocations) (stop : StopRequest) :
    readModules t' withLocations stop planned = readModules t withLocations stop planned := by
  induction planned with
  | nil => rfl
  | cons m more ih =>
      obtain ⟨hm, hmore⟩ := List.forall_mem_cons.mp h
      rw [readModules, readModules, hm, ih hmore]

/-- The modules that are read one after the other are those of the plan. -/
theorem mapM_of_readModules {t : FileTree} {withLocations : Bool} {stop : StopRequest}
    {planned : List PlannedModule} {opened : List (String × OpenedModule)} {p q : Progress}
    (h : (readModules t withLocations stop planned).runFrom p = (.ok opened, q)) :
    planned.mapM (·.place t withLocations) = .ok opened := by
  induction planned generalizing opened p q with
  | nil =>
      obtain ⟨hopened, -⟩ := Prod.mk.inj h
      exact hopened
  | cons m more ih =>
      unfold readModules at h
      obtain ⟨_, p₁, -, hchecked⟩ := runFrom_bind_eq_ok h
      obtain ⟨m', p₂, hread, hmore⟩ := runFrom_bind_eq_ok hchecked
      obtain ⟨rest, p₃, hrest, hend⟩ := runFrom_bind_eq_ok hmore
      obtain ⟨hopened, -⟩ := Prod.mk.inj hend
      obtain rfl := Except.ok.inj hopened
      have hm : m.read t withLocations = .ok m' := (Prod.mk.inj hread).1
      have hplaced : m.place t withLocations = .ok (m.parent, m') := by rw [PlannedModule.place, hm]; rfl
      rw [List.mapM_cons, hplaced, ih hrest]
      rfl

namespace ModuleSet

theorem addInternal_fst (s : ModuleSet) (parent : String) (m : OpenedModule) (sink : Sink) :
    (s.addInternal parent m sink).1 = (s.addInternal parent m .empty).1 := by
  unfold addInternal
  split <;> rfl

/-- Which modules there are does not depend on what was sent. -/
theorem foldl_addInternal_fst (opened : List (String × OpenedModule)) (s : ModuleSet) (sink : Sink) :
    (opened.foldl (fun (s, sink) (parent, m) => s.addInternal parent m sink) (s, sink)).1 =
      opened.foldl (fun s (parent, m) => (s.addInternal parent m .empty).1) s := by
  induction opened generalizing s sink with
  | nil => rfl
  | cons placed more ih =>
      obtain ⟨parent, m⟩ := placed
      rw [List.foldl_cons, List.foldl_cons]
      dsimp only
      rw [← s.addInternal_fst parent m sink]
      exact ih _ _

theorem located_eq {t t' : FileTree} (h : t.Alike t') (s : ModuleSet) (config : Config) :
    s.located t' config = s.located t config := by
  have hfile : ∀ (m : ModuleMentions) name, m.fileOf? t' name = m.fileOf? t name := by
    intro m name
    rw [ModuleMentions.fileOf?, ModuleMentions.fileOf?, funext h.isFile]
  unfold located locateExternals
  simp only [hfile]

end ModuleSet

section Same

variable {t t' : FileTree} {config : Config} {input : String} (h : AlikeAt (Reads t config input) t t')

include h

theorem addExternals_eq {s : ModuleSet} (hs : inputModules t config input = .ok s) :
    s.addExternals t' config = s.addExternals t config := by
  unfold ModuleSet.addExternals
  cases hexternal : config.externalReferences with
  | false => rfl
  | true =>
      have hviews : s.externalViews t' config = s.externalViews t config := by
        change (s.located t' config).filterMap _ = (s.located t config).filterMap _
        rw [ModuleSet.located_eq h.toAlike]
        apply List.filterMap_congr
        intro e he
        have hview : (ModuleSource.binary e.2).view t' config.debugSymbols =
            (ModuleSource.binary e.2).view t config.debugSymbols :=
          ModuleSource.view_eq h fun path hpath => .external hexternal hs he hpath
        exact congrArg Except.toOption hview
      rw [hviews]

theorem openModules_eq {plan : Plan} (hplan : Plan.ofInput t input config.mode = .ok plan)
    (stop : StopRequest) (p : Progress) :
    (openModules t' config stop plan).runFrom p = (openModules t config stop plan).runFrom p := by
  have hread : ∀ m ∈ plan.modules, m.read t' config.debugSymbols = m.read t config.debugSymbols := by
    intro m hm
    rw [PlannedModule.read, PlannedModule.read,
      ModuleSource.view_eq h fun path hpath => .module hplan hm hpath]
  unfold openModules
  rw [readModules_eq hread]
  apply runFrom_bind_congr
  intro _ p₁ _
  apply runFrom_bind_congr
  intro opened p₂ hopened
  apply runFrom_bind_congr
  intro s p₃ hs
  have hset : inputModules t config input = .ok s := by
    have hfold := congrArg Prod.fst (sent_of_sending hs)
    rw [ModuleSet.foldl_addInternal_fst] at hfold
    have hplaced := mapM_of_readModules hopened
    simp only [inputModules, hplan, hplaced, bind, Except.bind]
    exact congrArg Except.ok hfold
  rw [addExternals_eq h hset]

/-- A parse of the input gives the same as long as the files that it reads hold the same. -/
theorem parse_eq (stop : StopRequest) : parse t' config input stop = parse t config input stop := by
  have hrun : parseRun t' config input stop = parseRun t config input stop := by
    unfold parseRun parsing
    rw [Plan.ofInput_eq h]
    apply runFrom_bind_congr
    intro plan p₁ hplan
    apply runFrom_bind_congr
    intro _ p₂ _
    have hofInput : Plan.ofInput t input config.mode = .ok plan := (Prod.mk.inj hplan).1
    rw [runFrom_bind, runFrom_bind, openModules_eq h hofInput]
  exact congrArg (fun r => Outcome.mk r.2.sent r.1) hrun

end Same

end CodeGraph
