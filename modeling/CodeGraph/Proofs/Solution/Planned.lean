import CodeGraph.Plan
import CodeGraph.Proofs.Name.Paths
import CodeGraph.Proofs.Results
import Mathlib.Data.List.Nodup

namespace CodeGraph

open CodeGraph.Name

/-!
# Plans of solutions

The projects of a solution are taken one after the other. Each is read below the folders around it or
skipped, and the nodes above the modules are those of the solution and of the folders around what is read.
-/

/-! ## Names of chains -/

/-- The canonical name of a chain of folders below a root, the outermost folder first. -/
def chainName (root : String) (chain : List String) : String :=
  chain.foldl (fun name folder => join name (moduleSegment folder)) root

theorem chainName_append (root : String) (chain more : List String) :
    chainName root (chain ++ more) = chainName (chainName root chain) more :=
  List.foldl_append

theorem folderParent_eq_chainName (root : String) (folders : List String) :
    folderParent root folders = chainName root folders := by
  induction folders generalizing root with
  | nil => rfl
  | cons folder more ih =>
      rw [chainName, List.foldl_cons, ← chainName, ← ih]
      unfold folderParent
      rw [folderNames, List.getLast?_cons, Option.getD_some]

theorem isWithin_chainName {root : String} (hroot : root ≠ "") (chain : List String) :
    IsWithin root (chainName root chain) := by
  have h := isWithin_foldl_join hroot (chain.map moduleSegment)
  rwa [List.foldl_map] at h

/-- No folder is called like the solution. -/
theorem chainName_concat_ne {root folder : String} (hroot : root ≠ "") (hfolder : folder ≠ "")
    (chain : List String) : chainName root (chain ++ [folder]) ≠ root := by
  have hchain : chainName root chain ≠ "" := by
    have h := foldl_join_ne_empty hroot (chain.map moduleSegment)
    rwa [List.foldl_map] at h
  intro heq
  apply not_isWithin_join hchain (moduleSegment_ne_empty hfolder)
  rw [chainName_append] at heq
  change join (chainName root chain) (moduleSegment folder) = root at heq
  rw [heq]
  exact isWithin_chainName hroot chain

/-! ## The nodes above the modules -/

/-- The node of a folder in a chain of folders. -/
def folderNode (root : String) (chain : List String) (folder : String) : Node :=
  .plain (chainName root (chain ++ [folder])) (chainName root chain) .solutionFolder

/-- The nodes are those of the solution and of the folders that lie on some of the chains. -/
structure Spans (root : String) (chains : List (List String)) (nodes : List Node) : Prop where
  head : nodes.head? = some (.plain root "" .solution)
  nodup : (nodes.map (·.name)).Nodup
  parents : ∀ before n after, nodes = before ++ n :: after → before ≠ [] →
    ∃ above ∈ before, above.name = n.parent
  folder : ∀ n ∈ nodes.tail, ∃ chain folder, n = folderNode root chain folder ∧
    ∃ c ∈ chains, chain ++ [folder] <+: c
  covers : ∀ c ∈ chains, ∀ chain, chain <+: c → ∃ n ∈ nodes, n.name = chainName root chain

namespace Spans

variable {root : String} {chains : List (List String)} {nodes : List Node}

theorem solution (root : String) : Spans root [] [.plain root "" .solution] where
  head := rfl
  nodup := List.pairwise_singleton _ _
  parents before n after h hbefore := by
    obtain ⟨first, rest, rfl⟩ := List.exists_cons_of_ne_nil hbefore
    simp at h
  folder n hn := absurd hn List.not_mem_nil
  covers c hc := absurd hc List.not_mem_nil

theorem nodes_eq (h : Spans root chains nodes) : nodes = .plain root "" .solution :: nodes.tail :=
  List.eq_cons_of_mem_head? (Option.mem_def.mpr h.head)

theorem root_mem (h : Spans root chains nodes) : ∃ n ∈ nodes, n.name = root := by
  rw [h.nodes_eq]
  exact ⟨_, List.mem_cons_self, rfl⟩

theorem kind_eq (h : Spans root chains nodes) {n : Node} (hn : n ∈ nodes) (hname : n.name ≠ root) :
    n.kind = .solutionFolder := by
  rw [h.nodes_eq] at hn
  rcases List.mem_cons.mp hn with rfl | hn
  · exact absurd rfl hname
  · obtain ⟨chain, folder, rfl, -⟩ := h.folder n hn
    rfl

/-- A chain of which all folders are there may be left out or put in. -/
theorem congr (h : Spans root chains nodes) {chains' : List (List String)}
    (hmore : ∀ c ∈ chains, ∃ c' ∈ chains', c <+: c')
    (hcovers : ∀ c ∈ chains', ∀ chain, chain <+: c → ∃ n ∈ nodes, n.name = chainName root chain) :
    Spans root chains' nodes where
  head := h.head
  nodup := h.nodup
  parents := h.parents
  folder n hn := by
    obtain ⟨chain, folder, rfl, c, hc, hchain⟩ := h.folder n hn
    obtain ⟨c', hc', hwithin⟩ := hmore c hc
    exact ⟨chain, folder, rfl, c', hc', hchain.trans hwithin⟩
  covers := hcovers

/-- The folders of a chain that goes on by one folder are there with that folder. -/
theorem covers_concat {chain : List String} {folder : String} {nodes' : List Node}
    (h : Spans root (chain :: chains) nodes) (hsub : nodes ⊆ nodes')
    (hfolder : ∃ n ∈ nodes', n.name = chainName root (chain ++ [folder])) :
    ∀ c ∈ (chain ++ [folder]) :: chains, ∀ start, start <+: c →
      ∃ n ∈ nodes', n.name = chainName root start := by
  intro c hc start hstart
  have hold : ∀ c ∈ chain :: chains, start <+: c → ∃ n ∈ nodes', n.name = chainName root start := by
    intro c hc hstart
    obtain ⟨n, hn, hname⟩ := h.covers c hc start hstart
    exact ⟨n, hsub hn, hname⟩
  rcases List.mem_cons.mp hc with rfl | hc
  · rcases List.prefix_concat_iff.mp hstart with rfl | hstart
    · exact hfolder
    · exact hold chain List.mem_cons_self hstart
  · exact hold c (List.mem_cons_of_mem chain hc) hstart

/-- A folder that is not there yet becomes the last node. -/
theorem concat (h : Spans root (chain :: chains) nodes) {folder : String}
    (hnew : ∀ n ∈ nodes, n.name ≠ chainName root (chain ++ [folder])) :
    Spans root ((chain ++ [folder]) :: chains) (nodes ++ [folderNode root chain folder]) where
  head := by
    rw [h.nodes_eq]
    rfl
  nodup := by
    rw [List.map_append, List.map_singleton, ← List.concat_eq_append]
    apply List.Nodup.concat _ h.nodup
    intro hmem
    obtain ⟨n, hn, hname⟩ := List.mem_map.mp hmem
    exact hnew n hn hname
  parents before n after hsplit hbefore := by
    rcases List.eq_nil_or_concat after with rfl | ⟨after, last, rfl⟩
    · obtain ⟨rfl, hn⟩ := List.append_inj' hsplit rfl
      obtain rfl := (List.cons.inj hn).1
      exact h.covers chain List.mem_cons_self chain List.prefix_rfl
    · rw [List.concat_eq_append, ← List.cons_append, ← List.append_assoc] at hsplit
      exact h.parents before n after (List.append_inj' hsplit rfl).1 hbefore
  folder n hn := by
    have htail : (nodes ++ [folderNode root chain folder]).tail =
        nodes.tail ++ [folderNode root chain folder] := by
      rw [h.nodes_eq]
      rfl
    rw [htail] at hn
    rcases List.mem_append.mp hn with hn | hn
    · obtain ⟨start, last, rfl, c, hc, hstart⟩ := h.folder n hn
      rcases List.mem_cons.mp hc with rfl | hc
      · exact ⟨start, last, rfl, _, List.mem_cons_self, hstart.trans (List.prefix_append c [folder])⟩
      · exact ⟨start, last, rfl, c, List.mem_cons_of_mem _ hc, hstart⟩
    · obtain rfl := List.mem_singleton.mp hn
      exact ⟨chain, folder, rfl, _, List.mem_cons_self, List.prefix_rfl⟩
  covers := by
    apply h.covers_concat (List.subset_append_left nodes _)
    exact ⟨_, List.mem_append_right nodes List.mem_cons_self, rfl⟩

/-- The folders below a chain that is there are added one after the other. -/
theorem addFolders (hroot : root ≠ "") {folders : List String} (hfolders : ∀ f ∈ folders, f ≠ "")
    {chain : List String} {plan : Plan} (h : Spans root (chain :: chains) plan.hierarchy) :
    Spans root ((chain ++ folders) :: chains)
      (plan.addFolders (chainName root chain)
        (folderNames (chainName root chain) folders)).hierarchy := by
  induction folders generalizing chain plan with
  | nil =>
      rw [List.append_nil]
      exact h
  | cons folder more ih =>
      obtain ⟨hfolder, hmore⟩ := List.forall_mem_cons.mp hfolders
      have hname : join (chainName root chain) (moduleSegment folder) =
          chainName root (chain ++ [folder]) :=
        (chainName_append root chain [folder]).symm
      rw [folderNames, hname, Plan.addFolders, List.append_cons]
      apply ih hmore
      split
      · next hthere =>
          obtain ⟨n, hn, hcheck⟩ := List.any_eq_true.mp hthere
          obtain ⟨-, hname⟩ := Bool.and_eq_true_iff.mp hcheck
          have hcovers := h.covers_concat (List.Subset.refl _) ⟨n, hn, beq_iff_eq.mp hname⟩
          apply h.congr _ hcovers
          intro c hc
          rcases List.mem_cons.mp hc with rfl | hc
          · exact ⟨_, List.mem_cons_self, List.prefix_append c [folder]⟩
          · exact ⟨c, List.mem_cons_of_mem _ hc, List.prefix_rfl⟩
      · next hnone =>
          apply h.concat
          intro n hn hsame
          have hkind := h.kind_eq hn (hsame ▸ chainName_concat_ne hroot hfolder chain)
          apply hnone
          apply List.any_eq_true.mpr
          exact ⟨n, hn, by rw [hkind, hsame, beq_self_eq_true, beq_self_eq_true, Bool.and_self]⟩

end Spans

/-! ## Projects -/

/-- In source mode every project is read, otherwise each that was built. -/
def Project.isRead (mode : ParseMode) (t : FileTree) (p : Project) : Bool :=
  mode == .source || (p.buildOutput? t).isSome

theorem Project.isSome_planned? (p : Project) (mode : ParseMode) (known : List Project) (t : FileTree)
    (parent : String) : (p.planned? mode known t parent).isSome = p.isRead mode t := by
  unfold planned? isRead
  cases mode with
  | binary => rw [Option.isSome_map, Option.isSome_map, beq_false_of_ne (by decide), Bool.false_or]
  | source => rfl

theorem Project.parent_of_planned? {p : Project} {mode : ParseMode} {known : List Project} {t : FileTree}
    {parent : String} {m : PlannedModule} (h : p.planned? mode known t parent = some m) :
    m.parent = parent := by
  obtain ⟨source, -, rfl⟩ := Option.map_eq_some_iff.mp h
  rfl

namespace Plan

/-- Folders add nodes and nothing else. -/
theorem addFolders_eq (plan : Plan) (parent : String) (names : List String) :
    plan.addFolders parent names = { plan with hierarchy := (plan.addFolders parent names).hierarchy } := by
  induction names generalizing plan parent with
  | nil => rfl
  | cons name more ih =>
      rw [Plan.addFolders, ih]
      split <;> rfl

theorem modules_addProject (plan : Plan) (root : String) (entry : SolutionProject)
    (module : Option PlannedModule) :
    (plan.addProject root entry module).modules = plan.modules ++ module.toList := by
  cases module with
  | none => exact (List.append_nil _).symm
  | some module =>
      change (plan.addFolders root _).modules ++ [module] = plan.modules ++ [module]
      rw [addFolders_eq]

/-- What a plan says about projects of a solution: which are read, and where their modules hang. -/
structure Arranged (root : String) (mode : ParseMode) (t : FileTree) (known : List Project)
    (entries : List (SolutionProject × Project)) (plan : Plan) : Prop where
  modules : List.Forall₂
    (fun e m => e.2.planned? mode known t (chainName root e.1.folders) = some m)
    (entries.filter (·.2.isRead mode t)) plan.modules
  skipped : plan.skipped = (entries.filter (! ·.2.isRead mode t)).map (·.1.name)
  hierarchy : Spans root ((entries.filter (·.2.isRead mode t)).map (·.1.folders)) plan.hierarchy

namespace Arranged

variable {root : String} {mode : ParseMode} {t : FileTree} {known : List Project}
  {entries : List (SolutionProject × Project)} {plan : Plan}

theorem addProject (hroot : root ≠ "") (h : Arranged root mode t known entries plan)
    (e : SolutionProject × Project) (hfolders : ∀ f ∈ e.1.folders, f ≠ "") :
    Arranged root mode t known (entries ++ [e])
      (plan.addProject root e.1
        (e.2.planned? mode known t (folderParent root e.1.folders))) := by
  rw [folderParent_eq_chainName]
  have hread := e.2.isSome_planned? mode known t (chainName root e.1.folders)
  cases hplanned : e.2.planned? mode known t (chainName root e.1.folders) with
  | none =>
      rw [hplanned, Option.isSome_none] at hread
      constructor
      · simpa [← hread, Plan.addProject] using h.modules
      · simp [← hread, Plan.addProject, h.skipped]
      · simpa [← hread, Plan.addProject] using h.hierarchy
  | some m =>
      rw [hplanned, Option.isSome_some] at hread
      have hkept : (entries ++ [e]).filter (·.2.isRead mode t) =
          entries.filter (·.2.isRead mode t) ++ [e] := by
        simp [← hread]
      constructor
      · rw [hkept, modules_addProject]
        exact List.rel_append h.modules (.cons hplanned .nil)
      · have hskipped : (plan.addProject root e.1 (some m)).skipped = plan.skipped := by
          change (plan.addFolders root _).skipped = _
          rw [addFolders_eq]
        rw [hskipped, h.skipped]
        simp [← hread]
      · rw [hkept, List.map_append]
        -- the chain of the new project begins with no folder at all
        have hstart : Spans root ([] :: (entries.filter (·.2.isRead mode t)).map (·.1.folders))
            plan.hierarchy := by
          apply h.hierarchy.congr
          · exact fun c hc => ⟨c, List.mem_cons_of_mem [] hc, List.prefix_rfl⟩
          · intro c hc chain hchain
            rcases List.mem_cons.mp hc with rfl | hc
            · obtain rfl := List.prefix_nil.mp hchain
              exact h.hierarchy.root_mem
            · exact h.hierarchy.covers c hc chain hchain
        have hgrown := hstart.addFolders hroot hfolders
        rw [List.nil_append] at hgrown
        apply hgrown.congr
        · intro c hc
          exact ⟨c, by simpa [or_comm] using hc, List.prefix_rfl⟩
        · intro c hc
          exact hgrown.covers c (by simpa [or_comm] using hc)

/-- A project's module hangs below a node that is there. -/
theorem parent_mem (h : Arranged root mode t known entries plan) {m : PlannedModule}
    (hm : m ∈ plan.modules) : ∃ n ∈ plan.hierarchy, n.name = m.parent := by
  obtain ⟨i, hi, rfl⟩ := List.getElem_of_mem hm
  have hplanned := h.modules.get (h.modules.length_eq ▸ hi) hi
  obtain ⟨n, hn, hname⟩ :=
    h.hierarchy.covers _ (List.mem_map_of_mem (List.get_mem _ _)) _ List.prefix_rfl
  exact ⟨n, hn, hname.trans (Project.parent_of_planned? hplanned).symm⟩

theorem folder_iff (h : Arranged root mode t known entries plan) (hroot : root ≠ "")
    (hfolders : ∀ e ∈ entries, ∀ folder ∈ e.1.folders, folder ≠ "") (name : String) :
    (∃ n ∈ plan.hierarchy, n.kind = .solutionFolder ∧ n.name = name) ↔
      ∃ e ∈ entries.filter (·.2.isRead mode t), ∃ chain, chain ≠ [] ∧ chain <+: e.1.folders ∧
        chainName root chain = name := by
  constructor
  · rintro ⟨n, hn, hkind, rfl⟩
    rw [h.hierarchy.nodes_eq] at hn
    rcases List.mem_cons.mp hn with rfl | hn
    · cases hkind
    · obtain ⟨chain, folder, rfl, c, hc, hchain⟩ := h.hierarchy.folder n hn
      obtain ⟨e, he, rfl⟩ := List.mem_map.mp hc
      exact ⟨e, he, chain ++ [folder], List.concat_ne_nil _ _, hchain, rfl⟩
  · rintro ⟨e, he, chain, hchain, hwithin, rfl⟩
    obtain ⟨n, hn, hname⟩ := h.hierarchy.covers e.1.folders (List.mem_map_of_mem he) chain hwithin
    refine ⟨n, hn, ?_, hname⟩
    apply h.hierarchy.kind_eq hn
    obtain ⟨start, folder, rfl⟩ := (List.eq_nil_or_concat chain).resolve_left hchain
    rw [List.concat_eq_append] at hwithin hname
    rw [hname]
    apply chainName_concat_ne hroot
    have hmem : folder ∈ e.1.folders := hwithin.subset (by simp)
    exact hfolders e (List.mem_filter.mp he).1 folder hmem

theorem of_source (h : Arranged root .source t known entries plan) :
    plan.skipped = [] ∧ plan.modules.length = entries.length := by
  have hall : entries.filter (·.2.isRead .source t) = entries :=
    List.filter_eq_self.mpr fun e _ => rfl
  have hmodules := h.modules.length_eq
  constructor
  · have hnone : entries.filter (! ·.2.isRead .source t) = [] :=
      List.filter_eq_nil_iff.mpr fun e _ => Bool.false_ne_true
    rw [h.skipped, hnone, List.map_nil]
  · rw [← hmodules, hall]

end Arranged

theorem arranged_foldl (solution : Solution) (projects : List Project) (mode : ParseMode)
    (t : FileTree) (hname : solution.name ≠ "") (entries : List (SolutionProject × Project))
    (hfolders : ∀ e ∈ entries, ∀ folder ∈ e.1.folders, folder ≠ "") :
    Arranged (moduleSegment solution.name) mode t projects entries
      (entries.foldl
        (fun plan (entry, project) => plan.addProject (moduleSegment solution.name) entry
          (project.planned? mode projects t (folderParent (moduleSegment solution.name) entry.folders)))
        ⟨[.plain (moduleSegment solution.name) "" .solution], [], [],
          join (moduleSegment solution.name) externals⟩) := by
  induction entries using List.reverseRecOn with
  | nil => exact ⟨.nil, rfl, .solution _⟩
  | append_singleton entries e ih =>
      rw [List.foldl_append, List.foldl_cons, List.foldl_nil]
      have hbefore := ih fun e he => hfolders e (List.mem_append_left _ he)
      exact hbefore.addProject (moduleSegment_ne_empty hname) e (hfolders e (by simp))

/-- A solution whose projects can all be read is planned: what was built becomes a module below the
folders around it, the other projects are skipped, and the nodes are those of the solution and of the
folders around what was built, each after the one above it. -/
theorem ofSolution_arranged (solution : Solution) (mode : ParseMode) (t : FileTree)
    (hname : solution.name ≠ "")
    (hfolders : ∀ e ∈ solution.projects, ∀ folder ∈ e.folders, folder ≠ "")
    (hparsed : ∀ e ∈ solution.projects, ∃ p, Project.ofFile t e.path = .ok p) :
    ∃ projects plan,
      List.Forall₂ (fun (e : SolutionProject) p => Project.ofFile t e.path = .ok p)
        solution.projects projects ∧
      ofSolution solution mode t = .ok plan ∧
      Arranged (moduleSegment solution.name) mode t projects (solution.projects.zip projects) plan ∧
      (∀ m ∈ plan.modules, ∃ n ∈ plan.hierarchy, n.name = m.parent) ∧
      (∀ name, (∃ n ∈ plan.hierarchy, n.kind = .solutionFolder ∧ n.name = name) ↔
        ∃ e ∈ (solution.projects.zip projects).filter (·.2.isRead mode t),
          ∃ chain, chain ≠ [] ∧ chain <+: e.1.folders ∧
            chainName (moduleSegment solution.name) chain = name) ∧
      (mode = .source →
        plan.skipped = [] ∧ plan.modules.length = solution.projects.length) := by
  obtain ⟨projects, hprojects, hrel⟩ := Except.exists_mapM_eq_ok hparsed
  have hentries : ∀ e ∈ solution.projects.zip projects, ∀ folder ∈ e.1.folders, folder ≠ "" :=
    fun e he => hfolders e.1 (List.of_mem_zip he).1
  have harranged := arranged_foldl solution projects mode t hname _ hentries
  refine ⟨projects, _, hrel, ?_, harranged, fun m hm => harranged.parent_mem hm,
    harranged.folder_iff (moduleSegment_ne_empty hname) hentries, ?_⟩
  · rw [ofSolution, hprojects]
    rfl
  · rintro rfl
    obtain ⟨hskipped, hlength⟩ := harranged.of_source
    rw [List.length_zip, ← hrel.length_eq, Nat.min_self] at hlength
    exact ⟨hskipped, hlength⟩

/-- Three projects, of which the second was never built. -/
def threeProjects : Solution where
  path := "/App.sln"
  name := "My.App"
  projects :=
    [⟨"Data", "/Data/Data.csproj", "{1}", ["Libs", "Data.Access"]⟩,
      ⟨"Old", "/Old/Old.csproj", "{2}", ["Libs", "Attic"]⟩, ⟨"Cli", "/Cli/Cli.csproj", "{3}", []⟩]

def threeProjectsTree : FileTree :=
  let project : File := ⟨"<Project/>".toUTF8.data, 0⟩
  ⟨[(["Data", "Data.csproj"], project), (["Data", "bin", "Data.dll"], ⟨#[], 1⟩),
    (["Old", "Old.csproj"], project), (["Cli", "Cli.csproj"], project),
    (["Cli", "bin", "Cli.exe"], ⟨#[], 1⟩)], [], []⟩

/-- The project that was never built is left out, and so is the folder that holds it alone. -/
theorem ofSolution_arranged_unbuilt :
    threeProjects.name ≠ "" ∧ (∀ e ∈ threeProjects.projects, ∀ folder ∈ e.folders, folder ≠ "") ∧
      (∀ e ∈ threeProjects.projects, ∃ p, Project.ofFile threeProjectsTree e.path = .ok p) ∧
      ∃ plan, ofSolution threeProjects .binary threeProjectsTree = .ok plan ∧
        (∀ m ∈ plan.modules, ∃ n ∈ plan.hierarchy, n.name = m.parent) ∧
        plan.modules.map (·.parent) = ["My*App.Libs.Data*Access", "My*App"] ∧
        plan.hierarchy.map (·.name) = ["My*App", "My*App.Libs", "My*App.Libs.Data*Access"] ∧
        plan.skipped = ["Old"] := by
  have hname : threeProjects.name ≠ "" := by decide
  have hfolders : ∀ e ∈ threeProjects.projects, ∀ folder ∈ e.folders, folder ≠ "" := by decide
  have hread : ∀ e ∈ threeProjects.projects,
      (Project.ofFile threeProjectsTree e.path).toOption.isSome = true := by decide +kernel
  have hparsed : ∀ e ∈ threeProjects.projects, ∃ p, Project.ofFile threeProjectsTree e.path = .ok p := by
    intro e he
    cases hfile : Project.ofFile threeProjectsTree e.path with
    | ok p => exact ⟨p, rfl⟩
    | error failure => simpa [hfile, Except.toOption] using hread e he
  obtain ⟨projects, plan, -, hplan, -, hparents, -⟩ :=
    ofSolution_arranged threeProjects .binary threeProjectsTree hname hfolders hparsed
  have hfacts : (ofSolution threeProjects .binary threeProjectsTree).toOption.map (fun plan =>
      (plan.modules.map (·.parent), plan.hierarchy.map (·.name), plan.skipped)) =
        some (["My*App.Libs.Data*Access", "My*App"],
          ["My*App", "My*App.Libs", "My*App.Libs.Data*Access"], ["Old"]) := by decide +kernel
  rw [hplan] at hfacts
  obtain ⟨hmodules, hfacts⟩ := Prod.mk.inj (Option.some.inj hfacts)
  obtain ⟨hhierarchy, hskipped⟩ := Prod.mk.inj hfacts
  exact ⟨hname, hfolders, hparsed, plan, hplan, hparents, hmodules, hhierarchy, hskipped⟩

end Plan

end CodeGraph
