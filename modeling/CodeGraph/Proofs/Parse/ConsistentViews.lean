import CodeGraph.Proofs.CSharp.BaseChains
import CodeGraph.Proofs.Parse.FilesRead

namespace CodeGraph

/-!
# What the modules of a parse see

Every module that is read exports its types under their keys, and so the index that a parse comes to has
them there. A module of sources that is kept under its name then sees a consistent index.
-/

section Read

variable {t : FileTree} {withLocations : Bool}

theorem ModuleSource.underKeys_of_view {source : ModuleSource} {view : ModuleView}
    (h : source.view t withLocations = .ok view) : view.exports.UnderKeys := by
  cases source with
  | binary path =>
      obtain ⟨m, -, rfl⟩ := Except.exists_of_map_eq_ok h
      exact m.underKeys_exports
  | source name references files =>
      obtain ⟨m, -, rfl⟩ := Except.exists_of_map_eq_ok h
      exact m.underKeys_exports

theorem PlannedModule.underKeys_of_place {p : PlannedModule} {placed : String × OpenedModule}
    (h : p.place t withLocations = .ok placed) : placed.2.view.exports.UnderKeys := by
  obtain ⟨m, hread, hpair⟩ := Except.exists_of_bind_eq_ok h
  obtain ⟨view, hview, hmodule⟩ := Except.exists_of_bind_eq_ok hread
  obtain rfl := Except.ok.inj hpair
  obtain rfl := Except.ok.inj hmodule
  exact ModuleSource.underKeys_of_view hview

end Read

namespace ModuleSet

variable {s : ModuleSet} (hs : s.index.UnderKeys)

include hs

/-! ## Modules that are added -/

theorem underKeys_addInternal (parent : String) {m : OpenedModule} (hm : m.view.exports.UnderKeys)
    (sink : Sink) : (s.addInternal parent m sink).1.index.UnderKeys := by
  rw [addInternal]
  split
  · exact hs
  · exact hs.add hm m.view.references

theorem underKeys_addAll {opened : List (String × OpenedModule)}
    (hopened : ∀ placed ∈ opened, placed.2.view.exports.UnderKeys) (sink : Sink) :
    (opened.foldl (fun (s, sink) (parent, m) => s.addInternal parent m sink) (s, sink)).1.index.UnderKeys := by
  induction opened generalizing s sink with
  | nil => exact hs
  | cons placed more ih =>
      obtain ⟨hplaced, hmore⟩ := List.forall_mem_cons.mp hopened
      exact ih (underKeys_addInternal hs placed.1 hplaced sink) hmore _

theorem underKeys_addViews {views : List ModuleView} (hviews : ∀ view ∈ views, view.exports.UnderKeys)
    (sink : Sink) :
    (views.foldl (fun (s, sink) view => s.addExternal view sink) (s, sink)).1.index.UnderKeys := by
  induction views generalizing s sink with
  | nil => exact hs
  | cons view more ih =>
      obtain ⟨hview, hmore⟩ := List.forall_mem_cons.mp hviews
      exact ih (hs.add hview view.references) hmore _

theorem underKeys_addExternals (t : FileTree) (config : Config) (sink : Sink) :
    (s.addExternals t config sink).1.index.UnderKeys := by
  have hviews : ∀ view ∈ s.externalViews t config, view.exports.UnderKeys := by
    intro view hview
    obtain ⟨e, -, hfound⟩ := List.mem_filterMap.mp hview
    exact ModuleSource.underKeys_of_view (Except.toOption_eq_some hfound)
  rw [addExternals]
  split
  · exact underKeys_addViews hs hviews sink
  · exact hs

/-! ## Modules that look things up -/

/-- A module that is kept under its name sees no other table for it than its own. -/
theorem Keeps.consistent {m : OpenedModule} (hm : s.Keeps m) {source : CSharp.SourceModule}
    (hview : m.view = source.view) :
    (⟨s.index, source.exports, source.references⟩ : CSharp.Viewpoint).Consistent where
  own := source.underKeys_exports
  index := hs
  same table htable := by
    have hname : source.exports.owner = m.name := by
      rw [OpenedModule.name, hview]
      exact source.view_ownsExports
    have htables : m.view.exports = source.exports := by rw [hview]; rfl
    rw [hname, hm.table, htables] at htable
    exact (Option.some.inj htable).symm

end ModuleSet

open Parsing in
/-- When the walks begin, the index has every type under its key. -/
theorem underKeys_openModules {t : FileTree} {config : Config} {stop : StopRequest} {plan : Plan}
    {set : ModuleSet} {p q : Progress}
    (h : (openModules t config stop plan).runFrom p = (.ok set, q)) : set.index.UnderKeys := by
  unfold openModules at h
  obtain ⟨_, p₁, -, hopening⟩ := runFrom_bind_eq_ok h
  obtain ⟨opened, p₂, hread, hadding⟩ := runFrom_bind_eq_ok hopening
  obtain ⟨input, p₃, hinput, hgoing⟩ := runFrom_bind_eq_ok hadding
  obtain ⟨_, p₄, -, hwidening⟩ := runFrom_bind_eq_ok hgoing
  obtain ⟨widened, p₅, hwidened, hlinking⟩ := runFrom_bind_eq_ok hwidening
  obtain ⟨_, p₆, -, hchecking⟩ := runFrom_bind_eq_ok hlinking
  obtain ⟨_, p₇, -, hend⟩ := runFrom_bind_eq_ok hchecking
  obtain rfl := Except.ok.inj (Prod.mk.inj hend).1
  have hplaced : ∀ placed ∈ opened, placed.2.view.exports.UnderKeys := by
    intro placed hmem
    obtain ⟨planned, -, hplace⟩ := (Except.mapM_eq_ok (mapM_of_readModules hread)).2 placed hmem
    exact PlannedModule.underKeys_of_place hplace
  have hinternal := ModuleSet.underKeys_addAll
    (s := .empty plan.externalsRoot config.ignored) ExportIndex.underKeys_empty hplaced p₂.sink
  rw [sent_of_sending hinput] at hinternal
  have hexternal := ModuleSet.underKeys_addExternals hinternal t config p₄.sink
  rwa [sent_of_sending hwidened] at hexternal

/-- A module of sources sees consistently, unless a module outside the input carries its name. -/
theorem consistent_openModules {t : FileTree} {config : Config} {stop : StopRequest} {plan : Plan}
    {set : ModuleSet} {p q : Progress}
    (h : (openModules t config stop plan).runFrom p = (.ok set, q)) {m : OpenedModule}
    (hm : m ∈ set.internal) (hname : m.name ∉ set.external.map (·.name)) {source : CSharp.SourceModule}
    (hview : m.view = source.view) :
    (⟨set.index, source.exports, source.references⟩ : CSharp.Viewpoint).Consistent :=
  (((openModules_opened h).keeps_iff m hm).mpr hname).consistent (underKeys_openModules h) hview

end CodeGraph
