import CodeGraph.Proofs.Parse.FirstFound
import CodeGraph.Proofs.Parse.Stopping
import CodeGraph.Proofs.Results
import CodeGraph.Proofs.Symbol.Keys

namespace CodeGraph

/-!
# Which module a name means

The walks find a module by its name: where its names begin, whether it belongs to the input, and what
it exports. A second module of the input under a name is left out when it is opened. A module outside
the input is found by the name of its file and then entered under the name that the file carries, and
nothing compares the two.
-/

/-- A module enters its exports under its own name. -/
def ModuleView.OwnsExports (view : ModuleView) : Prop :=
  view.exports.owner = view.name

theorem Metadata.BinaryModule.view_ownsExports (m : Metadata.BinaryModule) : m.view.OwnsExports := by
  change m.exports.owner = m.name
  rw [exports]
  exact Exports.foldl_insert_owner (fun t : ExportedType => exportKey t.ns t.nesting) id _ (.empty m.name)

theorem CSharp.SourceModule.view_ownsExports (m : CSharp.SourceModule) : m.view.OwnsExports := by
  change m.exports.owner = m.name
  rw [exports]
  exact Exports.foldl_insert_owner (fun x : DeclaredType × Nat => x.1.key)
    (fun x => exportedType m.declarations x.2 x.1) _ (.empty m.name)

theorem ModuleSource.view_ownsExports {source : ModuleSource} {t : FileTree} {withLocations : Bool}
    {view : ModuleView} (h : source.view t withLocations = .ok view) : view.OwnsExports := by
  cases source with
  | binary path =>
      obtain ⟨m, -, rfl⟩ := Except.exists_of_map_eq_ok h
      exact m.view_ownsExports
  | source name references files =>
      obtain ⟨m, -, rfl⟩ := Except.exists_of_map_eq_ok h
      exact m.view_ownsExports

theorem PlannedModule.read_ownsExports {p : PlannedModule} {t : FileTree} {withLocations : Bool}
    {m : OpenedModule} (h : p.read t withLocations = .ok m) : m.view.OwnsExports := by
  cases hview : p.source.view t withLocations with
  | error e =>
      rw [read, hview] at h
      cases h
  | ok view =>
      rw [read, hview] at h
      obtain rfl := Except.ok.inj h
      exact ModuleSource.view_ownsExports hview

open Parsing in
theorem readModules_ownsExports {t : FileTree} {withLocations : Bool} {stop : StopRequest}
    {planned : List PlannedModule} {opened : List (String × OpenedModule)} {p q : Progress}
    (h : (readModules t withLocations stop planned).runFrom p = (.ok opened, q)) :
    ∀ m ∈ opened, m.2.view.OwnsExports := by
  induction planned generalizing opened p q with
  | nil =>
      obtain ⟨hopened, -⟩ := Prod.mk.inj h
      obtain rfl := Except.ok.inj hopened
      exact List.forall_mem_nil _
  | cons planned more ih =>
      unfold readModules at h
      obtain ⟨_, p₁, -, hchecked⟩ := runFrom_bind_eq_ok h
      obtain ⟨m, p₂, hread, hmore⟩ := runFrom_bind_eq_ok hchecked
      obtain ⟨rest, p₃, hrest, hend⟩ := runFrom_bind_eq_ok hmore
      obtain ⟨hopened, -⟩ := Prod.mk.inj hend
      obtain rfl := Except.ok.inj hopened
      exact List.forall_mem_cons.mpr
        ⟨PlannedModule.read_ownsExports (Prod.mk.inj hread).1, ih hrest⟩

theorem ExportIndex.table?_add {view : ModuleView} (h : view.OwnsExports) (i : ExportIndex)
    (name : String) :
    (i.add view.exports view.references).table? name =
      if name = view.name then some view.exports else i.table? name := by
  rw [table?, add, Dict.get?_insert, h]
  rfl

theorem Modules.get?_insert (m : Modules) (name root : String) (internal : Bool) (x : String) :
    (m.insert name root internal).get? x = if x = name then some ⟨root, internal⟩ else m.get? x :=
  Dict.get?_insert _ _ _ _

theorem Modules.isOpened_iff {m : Modules} {name : String} :
    m.isOpened name = true ↔ (m.get? name).isSome := by
  rw [isOpened, get?, Dict.isSome_get?]

namespace ModuleSet

/-! ## Modules of the input -/

/-- A module is found under its name as one of the input, at its own place and with its own exports. -/
structure Keeps (s : ModuleSet) (m : OpenedModule) : Prop where
  entry : s.modules.get? m.name = some ⟨m.root, true⟩
  table : s.index.table? m.name = some m.view.exports

/-- The module has a node where its names begin. -/
def Placed (m : OpenedModule) (sink : Sink) : Prop :=
  ∃ parent, .node (.plain m.root parent .module) ∈ sink.items.toList

/-- What is there before the modules outside the input are looked for. -/
structure OfInput (s : ModuleSet) (sink : Sink) : Prop where
  external : s.external = []
  names : (s.internal.map (·.name)).Nodup
  opened : ∀ name, s.modules.isOpened name = true ↔ ∃ m ∈ s.internal, m.name = name
  keeps : ∀ m ∈ s.internal, s.Keeps m
  placed : ∀ m ∈ s.internal, Placed m sink

theorem OfInput.empty (externalsRoot : String) (ignored : Ignored) (sink : Sink) :
    OfInput (.empty externalsRoot ignored) sink where
  external := rfl
  names := List.nodup_nil
  opened := by simp [ModuleSet.empty, Modules.new, Modules.isOpened, Dict.contains, Dict.empty]
  keeps := List.forall_mem_nil _
  placed := List.forall_mem_nil _

theorem Placed.mono {m : OpenedModule} {sink sink' : Sink} (h : Placed m sink)
    (hsent : sink.items.toList <+: sink'.items.toList) : Placed m sink' :=
  h.imp fun _ hnode => hsent.subset hnode

/-- A module that is entered under a new name leaves the others alone. -/
theorem OfInput.addInternal {s : ModuleSet} {sink : Sink} (h : OfInput s sink) (parent : String)
    {m : OpenedModule} (hm : m.view.OwnsExports) :
    OfInput (s.addInternal parent m sink).1 (s.addInternal parent m sink).2 := by
  by_cases hopened : s.modules.isOpened m.name = true
  · rwa [ModuleSet.addInternal, if_pos hopened]
  · rw [ModuleSet.addInternal, if_neg hopened]
    have hfresh : ∀ m' ∈ s.internal, m'.name ≠ m.name :=
      fun m' hm' heq => hopened ((h.opened m.name).mpr ⟨m', hm', heq⟩)
    refine ⟨h.external, ?_, fun name => ?_, fun m' hm' => ?_, fun m' hm' => ?_⟩
    · rw [List.map_append, List.map_singleton, ← List.concat_eq_append]
      exact List.Nodup.concat (by simpa using hfresh) h.names
    · have hbefore := h.opened name
      rw [Modules.isOpened_iff] at hbefore
      rw [Modules.isOpened_iff, Modules.get?_insert]
      by_cases hname : name = m.name
      · simp [hname]
      · simp only [hname, if_false, hbefore, List.mem_append, List.mem_singleton]
        exact ⟨fun ⟨m', hm', heq⟩ => ⟨m', .inl hm', heq⟩, fun ⟨m', hm', heq⟩ =>
          hm'.elim (⟨m', ·, heq⟩) fun hlast => absurd (hlast ▸ heq.symm) hname⟩
    · rcases List.mem_append.mp hm' with hold | hnew
      · have hne := hfresh m' hold
        have hkeeps := h.keeps m' hold
        exact ⟨(Modules.get?_insert _ _ _ _ _).trans ((if_neg hne).trans hkeeps.entry),
          (ExportIndex.table?_add hm _ _).trans ((if_neg hne).trans hkeeps.table)⟩
      · obtain rfl := List.mem_singleton.mp hnew
        exact ⟨(Modules.get?_insert _ _ _ _ _).trans (if_pos rfl),
          (ExportIndex.table?_add hm _ _).trans (if_pos rfl)⟩
    · rcases List.mem_append.mp hm' with hold | hnew
      · exact (h.placed m' hold).mono (by simp [Sink.node])
      · obtain rfl := List.mem_singleton.mp hnew
        exact ⟨parent, by simp [Sink.node]⟩

theorem OfInput.addAll {s : ModuleSet} {sink : Sink} (h : OfInput s sink)
    {opened : List (String × OpenedModule)} (hopened : ∀ m ∈ opened, m.2.view.OwnsExports) :
    let result := opened.foldl (fun (s, sink) (parent, m) => s.addInternal parent m sink) (s, sink)
    OfInput result.1 result.2 := by
  induction opened generalizing s sink with
  | nil => exact h
  | cons m more ih =>
      obtain ⟨hm, hmore⟩ := List.forall_mem_cons.mp hopened
      exact ih (h.addInternal m.1 hm) hmore

/-! ## Modules outside the input -/

/-- The modules that are mentioned and looked for, each with what is read from a file found for it. -/
def found (s : ModuleSet) (t : FileTree) (config : Config) : List (String × ModuleView) :=
  (s.internal.map (·.mentions)).flatMap fun m =>
    (m.references.filter fun name =>
      !(s.internal.map (·.name)).contains name && !config.ignored.covers name).filterMap fun name =>
        (m.fileOf? t name).bind fun path =>
          ((ModuleSource.binary path).view t config.debugSymbols).toOption.map (name, ·)

end ModuleSet

/-- A file that was found for a module that is mentioned and looked for. -/
structure Located (t : FileTree) (modules : Modules) (ignored : Ignored)
    (mentioning : List ModuleMentions) (e : String × String) : Prop where
  notOpened : modules.isOpened e.1 = false
  notIgnored : ignored.covers e.1 = false
  file : ∃ m ∈ mentioning, e.1 ∈ m.references ∧ m.fileOf? t e.1 = some e.2

theorem locateExternals_located (t : FileTree) (modules : Modules) (ignored : Ignored)
    (mentioning : List ModuleMentions) :
    let located := locateExternals t modules ignored mentioning
    (located.map (·.1)).Nodup ∧ ∀ e ∈ located, Located t modules ignored mentioning e := by
  have hfirst : FoundFirst t modules ignored (allMentions mentioning)
      (locateExternals t modules ignored mentioning) := foundFirst_foldl (allMentions mentioning)
  refine ⟨hfirst.once, fun e he => ?_⟩
  obtain ⟨⟨hopened, hignored⟩, hfile⟩ := (hfirst.mem_iff e.1 e.2).mp he
  rw [firstFile?_allMentions] at hfile
  obtain ⟨m, hm, hfile⟩ := List.exists_of_findSome?_eq_some hfile
  exact ⟨hopened, hignored, m, hm, Option.ite_none_right_eq_some.mp hfile⟩

namespace ModuleSet

variable {s : ModuleSet} {sink : Sink} {t : FileTree} {config : Config}

/-- The modules outside the input come from files that were looked for. -/
theorem OfInput.mem_found (h : OfInput s sink) {e : String × String}
    (he : Located t s.modules config.ignored (s.internal.map (·.mentions)) e) {view : ModuleView}
    (hview : (ModuleSource.binary e.2).view t config.debugSymbols = .ok view) :
    (e.1, view) ∈ s.found t config := by
  obtain ⟨m, hmention, hname, hfile⟩ := he.file
  refine List.mem_flatMap.mpr ⟨m, hmention, List.mem_filterMap.mpr ⟨e.1, ?_, ?_⟩⟩
  · refine List.mem_filter.mpr ⟨hname, ?_⟩
    have hother : ∀ m ∈ s.internal, m.name ≠ e.1 := fun m hm heq =>
      Bool.false_ne_true (he.notOpened.symm.trans ((h.opened e.1).mpr ⟨m, hm, heq⟩))
    simpa [he.notIgnored] using hother
  · simp [hfile, hview, Except.toOption]

/-- The names of these modules are new, and each of them stands once. -/
def Apart (s : ModuleSet) (views : List ModuleView) : Prop :=
  (views.map (·.name)).Nodup ∧ ∀ m ∈ s.internal, m.name ∉ views.map (·.name)

theorem OfInput.apart_externalViews (h : OfInput s sink)
    (hnamed : ∀ r ∈ s.found t config, r.2.name = r.1) : s.Apart (s.externalViews t config) := by
  obtain ⟨hnames, hlocated⟩ :=
    locateExternals_located t s.modules config.ignored (s.internal.map (·.mentions))
  have hname : ∀ e ∈ locateExternals t s.modules config.ignored (s.internal.map (·.mentions)),
      ∀ view, ((ModuleSource.binary e.2).view t config.debugSymbols).toOption = some view →
        view.name = e.1 := by
    intro e he view hview
    exact hnamed _ (h.mem_found (hlocated e he) (Except.toOption_eq_some hview))
  unfold externalViews
  refine ⟨?_, fun m hm hmem => ?_⟩
  · rw [List.Nodup, List.pairwise_map, List.pairwise_filterMap]
    refine (List.pairwise_map.mp hnames).imp_of_mem fun {e e'} he he' hne view hview view' hview' => ?_
    rwa [hname e he view hview, hname e' he' view' hview']
  · obtain ⟨view, hview, heq⟩ := List.mem_map.mp hmem
    obtain ⟨e, he, hview⟩ := List.mem_filterMap.mp hview
    rw [hname e he view hview] at heq
    have hopened := (h.opened e.1).mpr ⟨m, hm, heq.symm⟩
    exact Bool.false_ne_true ((hlocated e he).notOpened.symm.trans hopened)

/-- The modules outside the input that are opened. -/
def viewsToOpen (s : ModuleSet) (t : FileTree) (config : Config) : List ModuleView :=
  if config.externalReferences then s.externalViews t config else []

/-- Files that carry the names by which they were found bring new names only. -/
theorem OfInput.apart_viewsToOpen (h : OfInput s sink)
    (hnamed : config.externalReferences = true → ∀ r ∈ s.found t config, r.2.name = r.1) :
    s.Apart (s.viewsToOpen t config) := by
  by_cases hexternal : config.externalReferences = true
  · rw [viewsToOpen, if_pos hexternal]
    exact h.apart_externalViews (hnamed hexternal)
  · rw [viewsToOpen, if_neg hexternal]
    exact ⟨List.nodup_nil, fun _ _ => List.not_mem_nil⟩

/-- A set to which modules outside the input were added, but do not count as opened yet. -/
structure Widens (s : ModuleSet) (views : List ModuleView) (s' : ModuleSet) : Prop where
  internal : s'.internal = s.internal
  external : s'.external = s.external ++ views.map fun view => ⟨view, s.modules.rootOf view.name, none⟩
  modules : s'.modules = s.modules
  tables : ∀ name, (∀ view ∈ views, view.name ≠ name) → s'.index.table? name = s.index.table? name

theorem widens_addExternal (s : ModuleSet) {view : ModuleView} (hview : view.OwnsExports) (sink : Sink) :
    s.Widens [view] (s.addExternal view sink).1 where
  internal := rfl
  external := rfl
  modules := rfl
  tables _ hname :=
    (ExportIndex.table?_add hview _ _).trans (if_neg (Ne.symm (hname view List.mem_cons_self)))

theorem Widens.trans {s s' s'' : ModuleSet} {views views' : List ModuleView} (h : s.Widens views s')
    (h' : s'.Widens views' s'') : s.Widens (views ++ views') s'' where
  internal := h'.internal.trans h.internal
  external := by rw [h'.external, h.external, h.modules, List.map_append, List.append_assoc]
  modules := h'.modules.trans h.modules
  tables name hname := by
    obtain ⟨hviews, hviews'⟩ := List.forall_mem_append.mp hname
    rw [h'.tables name hviews', h.tables name hviews]

theorem widens_addAll (s : ModuleSet) (sink : Sink) {views : List ModuleView}
    (hviews : ∀ view ∈ views, view.OwnsExports) :
    s.Widens views (views.foldl (fun (s, sink) view => s.addExternal view sink) (s, sink)).1 := by
  induction views generalizing s sink with
  | nil => exact ⟨rfl, (List.append_nil _).symm, rfl, fun _ _ => rfl⟩
  | cons view more ih =>
      obtain ⟨hview, hmore⟩ := List.forall_mem_cons.mp hviews
      exact (s.widens_addExternal hview sink).trans (ih _ _ hmore)

/-- Where the walks find the name of a module after others outside the input are entered. -/
theorem get?_foldl_insert {externals : List OpenedModule} {name root : String} (modules : Modules)
    (hroot : ∀ m ∈ externals, m.name = name → m.root = root) :
    (externals.foldl (fun modules m => modules.insert m.name m.root false) modules).get? name =
      if name ∈ externals.map (·.name) then some ⟨root, false⟩ else modules.get? name := by
  induction externals generalizing modules with
  | nil => simp
  | cons m more ih =>
      obtain ⟨hm, hmore⟩ := List.forall_mem_cons.mp hroot
      rw [List.foldl_cons, ih _ hmore, Modules.get?_insert]
      by_cases hname : m.name = name
      · simp [hname, hm hname]
      · simp [Ne.symm hname]

theorem externalViews_ownsExports {view : ModuleView} (h : view ∈ s.externalViews t config) :
    view.OwnsExports := by
  obtain ⟨_, -, hview⟩ := List.mem_filterMap.mp h
  exact ModuleSource.view_ownsExports (Except.toOption_eq_some hview)

/-- What holds when the modules outside the input count as opened. -/
structure Admits (s : ModuleSet) (views : List ModuleView) (s' : ModuleSet) : Prop where
  internal : s'.internal = s.internal
  external : s'.external.map (·.name) = views.map (·.name)
  entries : ∀ name, s'.modules.get? name =
    if name ∈ views.map (·.name) then some ⟨s.modules.rootOf name, false⟩ else s.modules.get? name
  tables : ∀ name, name ∉ views.map (·.name) → s'.index.table? name = s.index.table? name

theorem OfInput.admits (h : OfInput s sink) (t : FileTree) (config : Config) :
    s.Admits (s.viewsToOpen t config) (s.addExternals t config sink).1 := by
  by_cases hexternal : config.externalReferences = true
  · rw [addExternals, viewsToOpen, if_pos hexternal, if_pos hexternal]
    have hwidens := s.widens_addAll sink fun view (hview : view ∈ s.externalViews t config) =>
      externalViews_ownsExports hview
    have hadded := hwidens.external
    rw [h.external, List.nil_append] at hadded
    have hnames : ((s.externalViews t config).foldl (fun (s, sink) view => s.addExternal view sink)
        (s, sink)).1.external.map (·.name) = (s.externalViews t config).map (·.name) :=
      (congrArg (List.map OpenedModule.name) hadded).trans List.map_map
    refine ⟨hwidens.internal, hnames, fun name => ?_, fun name hname => ?_⟩
    · rw [← hnames, ← hwidens.modules]
      refine get?_foldl_insert _ fun m hm hname => ?_
      rw [hadded] at hm
      obtain ⟨view, -, rfl⟩ := List.mem_map.mp hm
      rw [hwidens.modules]
      exact congrArg s.modules.rootOf hname
    · exact hwidens.tables name fun view hview heq => hname (List.mem_map.mpr ⟨view, hview, heq⟩)
  · rw [addExternals, viewsToOpen, if_neg hexternal, if_neg hexternal]
    exact ⟨rfl, congrArg (List.map _) h.external, fun _ => rfl, fun _ _ => rfl⟩

/-! ## All modules -/

/-- What the walks rely on when they look for a module by its name. -/
structure Identified (s : ModuleSet) (sink : Sink) : Prop where
  names : (s.all.map (·.name)).Nodup
  placed : ∀ m ∈ s.internal, Placed m sink
  keeps : ∀ m ∈ s.internal, s.Keeps m

/-- How far modules can be told apart by their names when the walks begin. -/
structure Opened (s : ModuleSet) (t : FileTree) (config : Config) (sink : Sink) : Prop where
  names : (s.internal.map (·.name)).Nodup
  placed : ∀ m ∈ s.internal, Placed m sink ∧
    ∃ internal, s.modules.get? m.name = some ⟨m.root, internal⟩
  keeps_iff : ∀ m ∈ s.internal, s.Keeps m ↔ m.name ∉ s.external.map (·.name)
  identified_iff : s.Identified sink ↔ (s.all.map (·.name)).Nodup
  identified : (config.externalReferences = true → ∀ r ∈ s.found t config, r.2.name = r.1) →
    s.Identified sink

theorem found_congr {s s' : ModuleSet} (h : s'.internal = s.internal) (t : FileTree) (config : Config) :
    s'.found t config = s.found t config := by
  rw [found, found, h]

theorem Keeps.rootOf {m : OpenedModule} (h : s.Keeps m) : s.modules.rootOf m.name = m.root := by
  rw [Modules.rootOf, h.entry]

/-- A module of the input is lost exactly to a module outside it that carries its name. -/
theorem Admits.keeps_iff {s' : ModuleSet} {views : List ModuleView} (h : s.Admits views s')
    {m : OpenedModule} (hm : s.Keeps m) : s'.Keeps m ↔ m.name ∉ s'.external.map (·.name) := by
  rw [h.external]
  refine ⟨fun hkeeps hname => ?_, fun hname => ⟨?_, ?_⟩⟩
  · have hentry := hkeeps.entry
    rw [h.entries, if_pos hname] at hentry
    exact Bool.false_ne_true (congrArg ModuleEntry.internal (Option.some.inj hentry))
  · rw [h.entries, if_neg hname, hm.entry]
  · rw [h.tables _ hname, hm.table]

theorem Admits.entry {s' : ModuleSet} {views : List ModuleView} (h : s.Admits views s')
    {m : OpenedModule} (hm : s.Keeps m) :
    ∃ internal, s'.modules.get? m.name = some ⟨m.root, internal⟩ := by
  rw [h.entries, hm.rootOf, hm.entry]
  split
  · exact ⟨false, rfl⟩
  · exact ⟨true, rfl⟩

/-- As long as no two modules that are walked have one name, all of the input are kept. -/
theorem OfInput.identified_iff (h : OfInput s sink) {s' : ModuleSet} {views : List ModuleView}
    (hadmits : s.Admits views s') {sink' : Sink} (hsent : sink.items.toList <+: sink'.items.toList) :
    s'.Identified sink' ↔ (s'.all.map (·.name)).Nodup := by
  refine ⟨fun hidentified => hidentified.names, fun hnames => ⟨hnames, fun m hm => ?_, fun m hm => ?_⟩⟩
  · exact (h.placed m (hadmits.internal ▸ hm)).mono hsent
  · rw [all, List.map_append, List.nodup_append] at hnames
    have hname : m.name ∉ s'.external.map (·.name) := fun hmem =>
      hnames.2.2 m.name (List.mem_map_of_mem hm) m.name hmem rfl
    exact (hadmits.keeps_iff (h.keeps m (hadmits.internal ▸ hm))).mpr hname

theorem OfInput.nodup_all (h : OfInput s sink) {s' : ModuleSet} {views : List ModuleView}
    (hadmits : s.Admits views s') (hapart : s.Apart views) : (s'.all.map (·.name)).Nodup := by
  obtain ⟨hnodup, hfresh⟩ := hapart
  rw [all, List.map_append, hadmits.internal, hadmits.external, List.nodup_append]
  refine ⟨h.names, hnodup, fun name hname name' hname' => ?_⟩
  obtain ⟨m, hm, rfl⟩ := List.mem_map.mp hname
  exact fun heq => hfresh m hm (heq ▸ hname')

theorem OfInput.opened_addExternals (h : OfInput s sink) (t : FileTree) (config : Config)
    {sink' : Sink} (hsent : sink.items.toList <+: sink'.items.toList) :
    (s.addExternals t config sink).1.Opened t config sink' := by
  have hadmits := h.admits t config
  have hiff := h.identified_iff hadmits hsent
  refine ⟨hadmits.internal ▸ h.names, fun m hm => ?_, fun m hm => ?_, hiff, fun hnamed => ?_⟩
  · have hbefore := hadmits.internal ▸ hm
    exact ⟨(h.placed m hbefore).mono hsent, hadmits.entry (h.keeps m hbefore)⟩
  · exact hadmits.keeps_iff (h.keeps m (hadmits.internal ▸ hm))
  · rw [found_congr hadmits.internal] at hnamed
    exact hiff.mpr (h.nodup_all hadmits (h.apart_viewsToOpen hnamed))

end ModuleSet

/-!
## A file under another name

Small images without types, to put a module of any name behind the file of a module that is mentioned.
-/

namespace Metadata.Plain

def zeros (n : Nat) : Bytes :=
  List.replicate n 0

/-- A number of fixed width, lowest byte first. -/
def little (width n : Nat) : Bytes :=
  (List.range width).map fun i => .ofNat (n / Nat.pow 256 i)

def ascii (s : String) : Bytes :=
  s.toList.map fun c => .ofNat c.toNat

/-- The tables of a module with one assembly that mentions one other. -/
def tables (name : String) : Bytes :=
  -- one bit for each of the tables 0x00, 0x20 and 0x23
  let head := zeros 8 ++ little 8 0x900000001 ++ zeros 8
  let counts := little 4 1 ++ little 4 1 ++ little 4 1
  let module := zeros 2 ++ little 2 1 ++ zeros 6
  let assembly := zeros 18 ++ little 2 1 ++ zeros 2
  let mentioned := zeros 14 ++ little 2 (name.length + 2) ++ zeros 4
  head ++ counts ++ module ++ assembly ++ mentioned

def streamHead (name : String) (start length : Nat) : Bytes :=
  little 4 start ++ little 4 length ++ ascii name ++ zeros (4 - name.length % 4)

def metadata (name mentioned : String) : Bytes :=
  let strings := 0 :: ascii name ++ 0 :: ascii mentioned ++ [0]
  rootMark ++ zeros 8 ++ little 4 4 ++ zeros 6 ++ little 2 2 ++ streamHead "#~" 56 88 ++
    streamHead "#Strings" 144 strings.length ++ tables name ++ strings

/-- An image whose only section is loaded where it lies in the file. -/
def image (name mentioned : String) : Array UInt8 :=
  let data := metadata name mentioned
  -- the headers end at 64, 88, 312, 352 and 424
  let dosHeader := ascii "MZ" ++ zeros 58 ++ little 4 64
  let fileHeader := ascii "PE" ++ zeros 4 ++ little 2 1 ++ zeros 12 ++ little 2 224 ++ zeros 2
  let optionalHeader := little 2 0x10B ++ zeros 90 ++ little 4 16 ++ zeros 112 ++ little 4 352 ++ zeros 12
  let sectionHeader := zeros 8 ++ little 4 1024 ++ little 4 352 ++ zeros 4 ++ little 4 352 ++ zeros 16
  let managedHeader := zeros 8 ++ little 4 424 ++ little 4 data.length ++ zeros 56
  (dosHeader ++ fileHeader ++ optionalHeader ++ sectionHeader ++ managedHeader ++ data).toArray

def project : String :=
  "<Project><Reference Include=\"Lib\"/></Project>"

/-- A project App that mentions Lib, where the file of Lib holds a module of some name. -/
def tree (name : String) : FileTree :=
  ⟨[(["App.csproj"], ⟨(ascii project).toArray, 0⟩), (["bin", "App.dll"], ⟨#[], 0⟩),
    (["bin", "Lib.dll"], ⟨image name "App", 0⟩)], [], []⟩

def config : Config :=
  ⟨false, true, .source, none, ⟨[]⟩⟩

def plan : Plan :=
  { Plan.empty Name.externals with
    modules := [⟨"", .source "App" ["Lib"] [], some "/bin", some "App"⟩] }

end Metadata.Plain

theorem Parsing.exists_of_map {α β : Type} {r : Except Failure α × Progress} {f : α → β} {b : β}
    (h : r.1.toOption.map f = some b) : ∃ a q, r = (.ok a, q) ∧ f a = b := by
  obtain ⟨a, ha, hb⟩ := Option.map_eq_some_iff.mp h
  exact ⟨a, r.2, Prod.ext (Except.toOption_eq_some ha) rfl, hb⟩

theorem Parsing.sent_of_sending {α : Type} {send : Sink → α × Sink} {p q : Progress} {a : α}
    (h : (sending send).runFrom p = (.ok a, q)) : send p.sink = (a, q.sink) := by
  obtain ⟨hresult, rfl⟩ := Prod.mk.inj ((runFrom_sending send p).symm.trans h)
  exact Prod.ext (Except.ok.inj hresult) rfl

theorem Parsing.sink_of_goOn {stop : StopRequest} {p q : Progress}
    (h : (goOn stop).runFrom p = (.ok (), q)) : q.sink = p.sink := by
  obtain ⟨-, rfl⟩ := Prod.mk.inj ((runFrom_goOn stop p).symm.trans h)
  rfl

open Parsing in
/-- Modules of the input can be told apart when the walks begin, but for those that a module outside the
input takes the name of. -/
theorem openModules_opened {t : FileTree} {config : Config} {stop : StopRequest} {plan : Plan}
    {set : ModuleSet} {p q : Progress}
    (h : (openModules t config stop plan).runFrom p = (.ok set, q)) : set.Opened t config q.sink := by
  unfold openModules at h
  -- one step of the run for each line of its definition
  obtain ⟨_, p₁, -, hopening⟩ := runFrom_bind_eq_ok h
  obtain ⟨opened, p₂, hread, hadding⟩ := runFrom_bind_eq_ok hopening
  obtain ⟨input, p₃, hinput, hgoing⟩ := runFrom_bind_eq_ok hadding
  obtain ⟨_, p₄, hgoOn, hwidening⟩ := runFrom_bind_eq_ok hgoing
  obtain ⟨widened, p₅, hwidened, hlinking⟩ := runFrom_bind_eq_ok hwidening
  obtain ⟨_, p₆, hlinked, hchecking⟩ := runFrom_bind_eq_ok hlinking
  obtain ⟨_, p₇, hchecked, hend⟩ := runFrom_bind_eq_ok hchecking
  obtain ⟨hset, rfl⟩ := Prod.mk.inj hend
  obtain rfl := Except.ok.inj hset
  have hofInput : input.OfInput p₄.sink := by
    have hall := (ModuleSet.OfInput.empty plan.externalsRoot config.ignored p₂.sink).addAll
      (readModules_ownsExports hread)
    rw [sent_of_sending hinput] at hall
    rwa [sink_of_goOn hgoOn]
  have hadded := sent_of_sending hwidened
  have hwidens := (input.addExternals_scripted t config).items p₄.sink
  have hlinks := widened.sendReferences_scripted.items p₅.sink
  rw [hadded] at hwidens
  rw [sent_of_sending hlinked] at hlinks
  have hopened := hofInput.opened_addExternals t config (hwidens.trans hlinks)
  rwa [hadded, ← sink_of_goOn hchecked] at hopened

open Metadata.Plain in
/-- The file of Lib holds Lib. -/
theorem openModules_opened_library :
    ∃ set q, (openModules (tree "Lib") config none plan).runFrom ⟨.empty, 1⟩ = (.ok set, q) ∧
      set.all.map (·.name) = ["App", "Lib"] ∧ set.Identified q.sink := by
  have hrun : (((openModules (tree "Lib") config none plan).runFrom ⟨.empty, 1⟩).1.toOption.map
      fun set => set.all.map (·.name)) = some ["App", "Lib"] := by decide +kernel
  obtain ⟨set, q, hset, hnames⟩ := Parsing.exists_of_map hrun
  refine ⟨set, q, hset, hnames, (openModules_opened hset).identified_iff.mpr ?_⟩
  rw [hnames]
  decide

open Metadata.Plain in
/-- The file of Lib holds a second App, which takes the place of the first. -/
theorem openModules_shadowed :
    Plan.ofInput (tree "App") "/App.csproj" config.mode = .ok plan ∧
      ∃ set q, (openModules (tree "App") config none plan).runFrom ⟨.empty, 1⟩ = (.ok set, q) ∧
        set.all.map (·.name) = ["App", "App"] ∧ set.modules.get? "App" = some ⟨"App", false⟩ ∧
        ¬ set.Identified q.sink := by
  have hplan : (Plan.ofInput (tree "App") "/App.csproj" config.mode).toOption = some plan := by
    decide +kernel
  have hrun : (((openModules (tree "App") config none plan).runFrom ⟨.empty, 1⟩).1.toOption.map
      fun set => (set.all.map (·.name), set.modules.get? "App")) =
        some (["App", "App"], some ⟨"App", false⟩) := by decide +kernel
  obtain ⟨set, q, hset, hfacts⟩ := Parsing.exists_of_map hrun
  obtain ⟨hnames, hentry⟩ := Prod.mk.inj hfacts
  refine ⟨Except.toOption_eq_some hplan, set, q, hset, hnames, hentry, fun h => ?_⟩
  have hnodup := h.names
  rw [hnames] at hnodup
  exact absurd hnodup (by decide)

end CodeGraph
