import CodeGraph.Proofs.Graph.Extremes
import CodeGraph.Proofs.Name.Ancestors
import Mathlib.Data.List.Perm.Basic

namespace CodeGraph

open CodeGraph.Name

/-!
# From places to nodes

A line of a file leads to the node that is declared closest above it, and among those of one line to one of
the longest names. Where nothing is declared above it, it leads to the deepest name at or above all that is
located in the directory. The order in which the locations are kept does not count.
-/

namespace Locator

/-! ## Common ancestors -/

/-- The list is the longest one that both others begin with. -/
structure IsCommonStart (c a b : List String) : Prop where
  left : c <+: a
  right : c <+: b
  longest : ∀ d, d <+: a → d <+: b → d <+: c

theorem commonAncestor_eq {a b : List String} (ha : IsPath a) (hb : IsPath b) {steps : Nat}
    (hsteps : a.length < steps) :
    ∃ c, commonAncestor steps (pathName a) (pathName b) = pathName c ∧ IsCommonStart c a b := by
  obtain ⟨steps, rfl⟩ := Nat.exists_eq_add_one_of_ne_zero (Nat.ne_zero_of_lt hsteps)
  induction a using List.reverseRecOn generalizing steps with
  | nil => exact ⟨[], rfl, List.prefix_rfl, List.nil_prefix, fun d hd _ => hd⟩
  | append_singleton a s ih =>
      have hne : a ++ [s] ≠ [] := List.concat_ne_nil _ _
      have hempty : (pathName (a ++ [s])).isEmpty = false := by
        simpa using pathName_ne_empty ha hne
      rw [commonAncestor, hempty, Bool.false_or]
      split
      · next hthere =>
          rw [Bool.or_eq_true, beq_iff_eq, eq_or_isAbove_iff ha hne hb] at hthere
          exact ⟨_, rfl, List.prefix_rfl, hthere, fun d hd _ => hd⟩
      · next hnot =>
          rw [Bool.or_eq_true, beq_iff_eq, eq_or_isAbove_iff ha hne hb] at hnot
          rw [List.length_append, List.length_singleton] at hsteps
          obtain ⟨steps, rfl⟩ := Nat.exists_eq_add_one_of_ne_zero (n := steps) (by omega)
          rw [parent_pathName ha]
          obtain ⟨c, hc, hstart⟩ := ih ha.left steps (by omega)
          refine ⟨c, hc, hstart.left.trans (List.prefix_append a [s]), hstart.right, ?_⟩
          intro d hda hdb
          rcases List.prefix_concat_iff.mp hda with rfl | hda
          · exact absurd hdb hnot
          · exact hstart.longest d hda hdb

theorem foldl_commonAncestor_eq {a : List String} (ha : IsPath a) {paths : List (List String)}
    (hpaths : ∀ b ∈ paths, IsPath b) :
    ∃ c, (paths.map pathName).foldl (fun a b => commonAncestor (a.length + 1) a b) (pathName a) =
        pathName c ∧
      (∀ b ∈ a :: paths, c <+: b) ∧ ∀ d, (∀ b ∈ a :: paths, d <+: b) → d <+: c := by
  induction paths generalizing a with
  | nil => exact ⟨a, rfl, by simp, fun d hd => hd a List.mem_cons_self⟩
  | cons b paths ih =>
      obtain ⟨hb, hmore⟩ := List.forall_mem_cons.mp hpaths
      obtain ⟨c, hc, hstart⟩ := commonAncestor_eq ha hb (Nat.lt_succ_of_le (length_le_pathName ha))
      obtain ⟨e, he, hall, hlongest⟩ := ih (ha.of_start hstart.left) hmore
      refine ⟨e, ?_, ?_, ?_⟩
      · rw [List.map_cons, List.foldl_cons, hc, he]
      · obtain ⟨hec, hrest⟩ := List.forall_mem_cons.mp hall
        exact List.forall_mem_cons.mpr ⟨hec.trans hstart.left,
          List.forall_mem_cons.mpr ⟨hec.trans hstart.right, hrest⟩⟩
      · intro d hd
        obtain ⟨hda, hd⟩ := List.forall_mem_cons.mp hd
        obtain ⟨hdb, hd⟩ := List.forall_mem_cons.mp hd
        exact hlongest d (List.forall_mem_cons.mpr ⟨hstart.longest d hda hdb, hd⟩)

theorem exists_paths {names : List String} (h : ∀ name ∈ names, HasSegments name) :
    ∃ paths : List (List String), (∀ p ∈ paths, p ≠ [] ∧ IsPath p) ∧ paths.map pathName = names := by
  induction names with
  | nil => exact ⟨[], List.forall_mem_nil _, rfl⟩
  | cons name names ih =>
      obtain ⟨⟨p, hne, hp, rfl⟩, hmore⟩ := List.forall_mem_cons.mp h
      obtain ⟨paths, hpaths, rfl⟩ := ih hmore
      exact ⟨p :: paths, List.forall_mem_cons.mpr ⟨⟨hne, hp⟩, hpaths⟩, rfl⟩

/-! ## Locations -/

/-- The location on the last node of a name that has one. -/
def LastLocated (nodes : List Node) (name : String) (loc : SourceLocation) : Prop :=
  ∃ before n after, nodes = before ++ n :: after ∧ n.name = name ∧ n.location = some loc ∧
    ∀ m ∈ after, m.name = name → m.location = none

theorem lastLocated_concat {nodes : List Node} {n : Node} {name : String} {loc : SourceLocation} :
    LastLocated (nodes ++ [n]) name loc ↔ (n.name = name ∧ n.location = some loc) ∨
      ((n.name = name → n.location = none) ∧ LastLocated nodes name loc) := by
  constructor
  · rintro ⟨before, m, after, hsplit, hname, hloc, hafter⟩
    rcases List.eq_nil_or_concat after with rfl | ⟨after, last, rfl⟩
    · obtain ⟨-, hn⟩ := List.append_inj' hsplit rfl
      obtain rfl := (List.cons.inj hn).1
      exact .inl ⟨hname, hloc⟩
    · rw [List.concat_eq_append, ← List.cons_append, ← List.append_assoc] at hsplit
      obtain ⟨hnodes, hn⟩ := List.append_inj' hsplit rfl
      obtain rfl := (List.cons.inj hn).1
      exact .inr ⟨hafter n (by simp), before, m, after, hnodes, hname, hloc,
        fun m' hm' => hafter m' (by simp [hm'])⟩
  · rintro (⟨hname, hloc⟩ | ⟨hn, before, m, after, rfl, hname, hloc, hafter⟩)
    · exact ⟨nodes, n, [], rfl, hname, hloc, List.forall_mem_nil _⟩
    · refine ⟨before, m, after ++ [n], by simp, hname, hloc, fun m' hm' => ?_⟩
      rcases List.mem_append.mp hm' with hm' | hm'
      · exact hafter m' hm'
      · exact List.mem_singleton.mp hm' ▸ hn

/-- A node's location replaces the one that its name had. -/
def record (found : Dict SourceLocation) (n : Node) : Dict SourceLocation :=
  match n.location with
  | some l => found.insert n.name l
  | none => found

theorem locations_ofItems (items : List Item) :
    (ofItems items).locations = (items.filterMap Item.node?).foldl record .empty :=
  rfl

theorem get?_record (found : Dict SourceLocation) (n : Node) (name : String) :
    (record found n).get? name =
      if n.name = name then n.location.or (found.get? name) else found.get? name := by
  unfold record
  cases n.location with
  | none => simp
  | some l => simp [Dict.get?_insert, eq_comm]

theorem get?_foldl_record {nodes : List Node} {name : String} {loc : SourceLocation} :
    (nodes.foldl record .empty).get? name = some loc ↔ LastLocated nodes name loc := by
  induction nodes using List.reverseRecOn with
  | nil => simp [LastLocated, Dict.get?_empty]
  | append_singleton nodes n ih =>
      rw [List.foldl_append, List.foldl_cons, List.foldl_nil, get?_record, lastLocated_concat, ← ih]
      by_cases hname : n.name = name
      · cases n.location <;> simp [hname]
      · simp [hname]

theorem nodup_keys_foldl_record (nodes : List Node) : (nodes.foldl record .empty).keys.Nodup := by
  induction nodes using List.reverseRecOn with
  | nil => exact List.nodup_nil
  | append_singleton nodes n ih =>
      rw [List.foldl_append, List.foldl_cons, List.foldl_nil]
      generalize nodes.foldl record .empty = found at *
      unfold record
      cases n.location with
      | none => exact ih
      | some l => exact Dict.nodup_keys_insert ih n.name l

/-! ## Places -/

/-- The name's location in a stream: the one on its last node that has any. -/
def LocatedAt (items : List Item) (name : String) (loc : SourceLocation) : Prop :=
  LastLocated (items.filterMap Item.node?) name loc

/-- The locations are those of the items, in any order. -/
def Keeps (s : Locator) (items : List Item) : Prop :=
  s.locations.entries.Perm (ofItems items).locations.entries

theorem Keeps.mem_iff {s : Locator} {items : List Item} (h : s.Keeps items) {name : String}
    {loc : SourceLocation} : (name, loc) ∈ s.locations.entries ↔ LocatedAt items name loc := by
  unfold LocatedAt
  rw [← get?_foldl_record, Dict.get?_eq_some_iff (nodup_keys_foldl_record _), ← locations_ofItems]
  exact List.Perm.mem_iff h

theorem Keeps.get?_eq_some_iff {s : Locator} {items : List Item} (h : s.Keeps items) {name : String}
    {loc : SourceLocation} : s.locations.get? name = some loc ↔ LocatedAt items name loc := by
  have hnodup : s.locations.keys.Nodup := (h.map Prod.fst).nodup_iff.mpr (nodup_keys_foldl_record _)
  rw [Dict.get?_eq_some_iff hnodup, h.mem_iff]

theorem Keeps.get?_eq_none {s : Locator} {items : List Item} (h : s.Keeps items) {name : String}
    (hnone : ¬ ∃ loc, LocatedAt items name loc) : s.locations.get? name = none :=
  Option.eq_none_iff_forall_ne_some.mpr fun loc hloc => hnone ⟨loc, h.get?_eq_some_iff.mp hloc⟩

theorem hasSegments_of_keys {items : List Item} (paths : List (List String))
    (hpaths : ∀ p ∈ paths, p ≠ [] ∧ IsPath p) (hkeys : (ofItems items).locations.keys = paths.map pathName) :
    ∀ name loc, LocatedAt items name loc → HasSegments name := by
  have hself : (ofItems items).Keeps items := List.Perm.refl _
  intro name loc hloc
  have hmem : name ∈ (ofItems items).locations.keys :=
    List.mem_map.mpr ⟨(name, loc), hself.mem_iff.mpr hloc, rfl⟩
  rw [hkeys] at hmem
  obtain ⟨p, hp, rfl⟩ := List.mem_map.mp hmem
  exact ⟨p, (hpaths p hp).1, (hpaths p hp).2, rfl⟩

/-- The name is located in the file, at the line or above it. -/
structure InFile (items : List Item) (path : String) (line : Nat) (name : String)
    (loc : SourceLocation) : Prop where
  located : LocatedAt items name loc
  file : Path.same loc.path path = true
  line_le : loc.line ≤ line

/-- The name is located in the directory of the file. -/
def InDirectory (items : List Item) (path name : String) : Prop :=
  ∃ loc, LocatedAt items name loc ∧
    (Path.parent? loc.path).map Path.components = (Path.parent? path).map Path.components

/-- The name lies at or above all names that are located in the directory of the file, of which there is
at least one. -/
structure IsCommon (items : List Item) (path above : String) : Prop where
  some : ∃ name, InDirectory items path name
  all : ∀ name, InDirectory items path name → AtOrAbove above name

/-- How near a location is: by its line, then by the length of its name. -/
def compareNearness : String × SourceLocation → String × SourceLocation → Ordering :=
  compareLex (compareOn (·.2.line)) (compareOn (·.1.utf8ByteSize))

theorem isLE_compareNearness {a b : String × SourceLocation} :
    (compareNearness a b).isLE = true ↔
      a.2.line ≤ b.2.line ∧ (a.2.line = b.2.line → a.1.utf8ByteSize ≤ b.1.utf8ByteSize) := by
  rw [compareNearness, compareLex, Ordering.isLE_then_iff_or]
  simp only [compareOn, Nat.compare_eq_lt, Nat.compare_eq_eq, Nat.isLE_compare]
  omega

instance : Std.TransCmp compareNearness :=
  inferInstanceAs (Std.TransCmp (compareLex _ _))

/-- The entries of a file that are not below a line. -/
def entriesAbove (entries : List (String × SourceLocation)) (path : String) (line : Nat) :
    List (String × SourceLocation) :=
  entries.filter fun (_, l) => Path.same l.path path && l.line ≤ line

theorem entriesAbove_concat {entries : List (String × SourceLocation)} {path name : String} {line : Nat}
    {loc : SourceLocation} (hfile : Path.same loc.path path = true) (hline : loc.line ≤ line) :
    entriesAbove (entries ++ [(name, loc)]) path line = entriesAbove entries path line ++ [(name, loc)] := by
  simp [entriesAbove, hfile, hline]

variable {items : List Item} {s : Locator}

theorem nodeAt_eq (s : Locator) (path : String) (line : Nat) :
    s.nodeAt path line =
      match maxBy compareNearness (entriesAbove s.locations.entries path line) with
      | some (name, _) => .ok name
      | none =>
        match (s.locations.entries.filter fun (_, l) => (Path.parent? l.path).map Path.components ==
          (Path.parent? path).map Path.components).map (·.1) with
        | [] => nodeAt.missing path line
        | first :: more =>
          let ancestor := more.foldl (fun a b => commonAncestor (a.length + 1) a b) first
          if ancestor.isEmpty then nodeAt.missing path line else .ok ancestor :=
  rfl

theorem mem_inFile (hs : s.Keeps items) {path : String} {line : Nat} {name : String}
    {loc : SourceLocation} :
    (name, loc) ∈ entriesAbove s.locations.entries path line ↔ InFile items path line name loc := by
  rw [entriesAbove, List.mem_filter, hs.mem_iff, Bool.and_eq_true, decide_eq_true_eq]
  exact ⟨fun ⟨hloc, hfile, hline⟩ => ⟨hloc, hfile, hline⟩,
    fun ⟨hloc, hfile, hline⟩ => ⟨hloc, hfile, hline⟩⟩

theorem inFile_eq_nil (hs : s.Keeps items) {path : String} {line : Nat}
    (hnone : ¬ ∃ name loc, InFile items path line name loc) :
    entriesAbove s.locations.entries path line = [] := by
  apply List.eq_nil_iff_forall_not_mem.mpr
  rintro ⟨name, loc⟩ hmem
  exact hnone ⟨name, loc, (mem_inFile hs).mp hmem⟩

theorem mem_inDirectory (hs : s.Keeps items) {path name : String} :
    name ∈ (s.locations.entries.filter fun (_, l) => (Path.parent? l.path).map Path.components ==
      (Path.parent? path).map Path.components).map (·.1) ↔ InDirectory items path name := by
  rw [List.mem_map]
  constructor
  · rintro ⟨⟨name, loc⟩, hmem, rfl⟩
    obtain ⟨hmem, hdir⟩ := List.mem_filter.mp hmem
    exact ⟨loc, hs.mem_iff.mp hmem, beq_iff_eq.mp hdir⟩
  · rintro ⟨loc, hloc, hdir⟩
    exact ⟨(name, loc), List.mem_filter.mpr ⟨hs.mem_iff.mpr hloc, beq_iff_eq.mpr hdir⟩, rfl⟩

theorem nodeAt_of_inFile (hs : s.Keeps items) {path : String} {line : Nat}
    (h : ∃ name loc, InFile items path line name loc) :
    ∃ name loc, s.nodeAt path line = .ok name ∧ InFile items path line name loc ∧
      ∀ name' loc', InFile items path line name' loc' → loc'.line ≤ loc.line ∧
        (loc'.line = loc.line → name'.utf8ByteSize ≤ name.utf8ByteSize) := by
  rw [nodeAt_eq]
  cases hbest : maxBy compareNearness (entriesAbove s.locations.entries path line) with
  | none =>
      obtain ⟨name, loc, hin⟩ := h
      have hnil := maxBy_eq_none.mp hbest
      have hin' := (mem_inFile hs).mpr hin
      rw [hnil] at hin'
      cases hin'
  | some best =>
      obtain ⟨hbestmem, hgreatest⟩ := maxBy_eq_some hbest
      obtain ⟨name, loc⟩ := best
      refine ⟨name, loc, rfl, (mem_inFile hs).mp hbestmem, fun name' loc' hin => ?_⟩
      exact isLE_compareNearness.mp (hgreatest _ ((mem_inFile hs).mpr hin))

/-- Where nothing is declared above the line, the answer is the deepest common ancestor, if there is one. -/
theorem nodeAt_of_directory (hpaths : ∀ name loc, LocatedAt items name loc → HasSegments name)
    (hs : s.Keeps items) {path : String} {line : Nat}
    (hnone : ¬ ∃ name loc, InFile items path line name loc) :
    (∃ a, s.nodeAt path line = .ok a ∧ IsCommon items path a ∧
      ∀ b, IsCommon items path b → AtOrAbove b a) ∨
    (s.nodeAt path line = .error (.nodeNotFound (path ++ ":" ++ toString line)) ∧
      ¬ ∃ a, IsCommon items path a) := by
  rw [nodeAt_eq, maxBy_eq_none.mpr (inFile_eq_nil hs hnone)]
  dsimp only
  have hmem := fun name => @mem_inDirectory _ _ hs path name
  generalize (s.locations.entries.filter fun (_, l) => (Path.parent? l.path).map Path.components ==
    (Path.parent? path).map Path.components).map (·.1) = names at *
  have hnames : ∀ name ∈ names, HasSegments name := by
    intro name hname
    obtain ⟨loc, hloc, -⟩ := (hmem name).mp hname
    exact hpaths name loc hloc
  obtain ⟨paths, hall, rfl⟩ := exists_paths hnames
  cases paths with
  | nil =>
      refine .inr ⟨rfl, ?_⟩
      rintro ⟨a, ⟨name, hname⟩, -⟩
      exact absurd ((hmem name).mpr hname) List.not_mem_nil
  | cons first more =>
      obtain ⟨⟨hne, hfirst⟩, hmore⟩ := List.forall_mem_cons.mp hall
      obtain ⟨c, hc, hbegins, hlongest⟩ := foldl_commonAncestor_eq hfirst fun b hb => (hmore b hb).2
      have hcpath : IsPath c := hfirst.of_start (hbegins first List.mem_cons_self)
      -- what all names lie below is a list of segments that all of them begin with
      have hstart : ∀ a, IsCommon items path a → ∃ d, d ≠ [] ∧ d <+: c ∧ pathName d = a := by
        intro a ha
        have hbelow : ∀ p ∈ first :: more, AtOrAbove a (pathName p) := fun p hp =>
          ha.all _ ((hmem _).mp (List.mem_map_of_mem hp))
        obtain ⟨d, hd, hwithin, rfl⟩ := (hbelow first List.mem_cons_self).exists_start hfirst
        refine ⟨d, hd, hlongest d fun p hp => ?_, rfl⟩
        exact (atOrAbove_iff (hfirst.of_start hwithin) hd (hall p hp).2).mp (hbelow p hp)
      rw [List.map_cons]
      dsimp only
      rw [hc]
      by_cases hcnil : c = []
      · subst hcnil
        refine .inr ⟨rfl, ?_⟩
        rintro ⟨a, ha⟩
        obtain ⟨d, hd, hdc, -⟩ := hstart a ha
        exact hd (List.prefix_nil.mp hdc)
      · have hempty : (pathName c).isEmpty = false := by simpa using pathName_ne_empty hcpath hcnil
        rw [hempty]
        refine .inl ⟨pathName c, rfl, ⟨⟨pathName first, ?_⟩, ?_⟩, ?_⟩
        · exact (hmem _).mp (List.mem_map_of_mem List.mem_cons_self)
        · intro name hname
          obtain ⟨p, hp, rfl⟩ := List.mem_map.mp ((hmem name).mpr hname)
          exact (atOrAbove_iff hcpath hcnil (hall p hp).2).mpr (hbegins p hp)
        · intro b hb
          obtain ⟨d, hd, hdc, rfl⟩ := hstart b hb
          exact (atOrAbove_iff (hcpath.of_start hdc) hd hcpath).mpr hdc

/-- A place leads to a name that is declared in its file at the line or nearest above it, else to the
deepest name at or above all that is located in its directory, else nowhere. -/
theorem nodeAt_nearest (items : List Item)
    (hpaths : ∀ name loc, LocatedAt items name loc → HasSegments name) (path : String) (line : Nat) :
    ((∃ name loc, InFile items path line name loc) → ∀ s : Locator, s.Keeps items →
      ∃ name loc, s.nodeAt path line = .ok name ∧ InFile items path line name loc ∧
        ∀ name' loc', InFile items path line name' loc' → loc'.line ≤ loc.line ∧
          (loc'.line = loc.line → name'.utf8ByteSize ≤ name.utf8ByteSize)) ∧
    ((¬ ∃ name loc, InFile items path line name loc) → (∃ a, IsCommon items path a) →
      ∃ a, IsCommon items path a ∧ (∀ b, IsCommon items path b → AtOrAbove b a) ∧
        ∀ s : Locator, s.Keeps items → s.nodeAt path line = .ok a) ∧
    ((¬ ∃ name loc, InFile items path line name loc) → (¬ ∃ a, IsCommon items path a) →
      ∀ s : Locator, s.Keeps items →
        s.nodeAt path line = .error (.nodeNotFound (path ++ ":" ++ toString line))) := by
  refine ⟨fun hin s hs => nodeAt_of_inFile hs hin, fun hnone hsome => ?_, fun hnone hfar s hs => ?_⟩
  · have hself : (ofItems items).Keeps items := List.Perm.refl _
    rcases nodeAt_of_directory hpaths hself hnone with ⟨a, -, ha, hdeepest⟩ | ⟨-, hfar⟩
    · refine ⟨a, ha, hdeepest, fun s hs => ?_⟩
      rcases nodeAt_of_directory hpaths hs hnone with ⟨b, hb, hcommon, hdeepest'⟩ | ⟨-, hfar⟩
      · rw [hb, (hdeepest' a ha).antisymm (hdeepest b hcommon)]
      · exact absurd hsome hfar
    · exact absurd hsome hfar
  · rcases nodeAt_of_directory hpaths hs hnone with ⟨a, -, ha, -⟩ | ⟨hmissing, -⟩
    · exact absurd ⟨a, ha⟩ hfar
    · exact hmissing

/-- A namespace with two types in two files, one of which has a method. -/
def twoFiles : List Item :=
  [.node (.plain "m" "" .module),
   .node (.plain "m.N" "m" .namespacePart),
   .node { Node.plain "m.N.Foo" "m.N" .type with location := some ⟨"/d/Foo.cs", 3⟩ },
   .node { Node.ofMember "m.N.Foo.Bar(System.Int32)" "m.N.Foo" .method false with
     location := some ⟨"/d/Foo.cs", 5⟩ },
   .node { Node.plain "m.N.Baz" "m.N" .type with location := some ⟨"/d/Baz.cs", 2⟩ }]

theorem locatedAt_twoFiles {name : String} {loc : SourceLocation} :
    LocatedAt twoFiles name loc ↔ name = "m.N.Foo" ∧ loc = ⟨"/d/Foo.cs", 3⟩ ∨
      name = "m.N.Foo.Bar(System.Int32)" ∧ loc = ⟨"/d/Foo.cs", 5⟩ ∨
      name = "m.N.Baz" ∧ loc = ⟨"/d/Baz.cs", 2⟩ := by
  have hentries : (ofItems twoFiles).locations.entries = [("m.N.Foo", ⟨"/d/Foo.cs", 3⟩),
      ("m.N.Foo.Bar(System.Int32)", ⟨"/d/Foo.cs", 5⟩), ("m.N.Baz", ⟨"/d/Baz.cs", 2⟩)] := rfl
  have hself : (ofItems twoFiles).Keeps twoFiles := List.Perm.refl _
  simp [← hself.mem_iff, hentries]

/-- Line 7 of the first file is in its method. Above the first line of any file of the directory lies the
namespace. -/
theorem nodeAt_nearest_twoFiles :
    (∀ name loc, LocatedAt twoFiles name loc → HasSegments name) ∧
    ∀ s : Locator, s.Keeps twoFiles →
      s.nodeAt "/d/Foo.cs" 7 = .ok "m.N.Foo.Bar(System.Int32)" ∧
      s.nodeAt "/d/Other.cs" 1 = .ok "m.N" ∧
      s.nodeAt "/e/Foo.cs" 7 = .error (.nodeNotFound "/e/Foo.cs:7") := by
  have hpaths : ∀ name loc, LocatedAt twoFiles name loc → HasSegments name := by
    intro name loc h
    rcases locatedAt_twoFiles.mp h with ⟨rfl, -⟩ | ⟨rfl, -⟩ | ⟨rfl, -⟩
    · exact ⟨["m", "N", "Foo"], by decide, by decide, by decide⟩
    · exact ⟨["m", "N", "Foo", "Bar(System.Int32)"], by decide, by decide, by decide⟩
    · exact ⟨["m", "N", "Baz"], by decide, by decide, by decide⟩
  have hself : (ofItems twoFiles).Keeps twoFiles := List.Perm.refl _
  refine ⟨hpaths, fun s hs => ⟨?_, ?_, ?_⟩⟩
  · have hmethod : InFile twoFiles "/d/Foo.cs" 7 "m.N.Foo.Bar(System.Int32)" ⟨"/d/Foo.cs", 5⟩ :=
      ⟨locatedAt_twoFiles.mpr (.inr (.inl ⟨rfl, rfl⟩)), by decide, by decide⟩
    obtain ⟨name, loc, hname, hin, hnearest⟩ :=
      (nodeAt_nearest twoFiles hpaths "/d/Foo.cs" 7).1 ⟨_, _, hmethod⟩ s hs
    rw [hname]
    rcases locatedAt_twoFiles.mp hin.located with ⟨rfl, rfl⟩ | ⟨rfl, rfl⟩ | ⟨rfl, rfl⟩
    · exact absurd (hnearest _ _ hmethod).1 (by decide)
    · rfl
    · exact absurd hin.file (by decide)
  · have hnone : ¬ ∃ name loc, InFile twoFiles "/d/Other.cs" 1 name loc := by
      rintro ⟨name, loc, hin⟩
      rcases locatedAt_twoFiles.mp hin.located with ⟨rfl, rfl⟩ | ⟨rfl, rfl⟩ | ⟨rfl, rfl⟩
      all_goals exact absurd hin.file (by decide)
    have hcommon : IsCommon twoFiles "/d/Other.cs" "m.N" := by
      refine ⟨⟨"m.N.Baz", _, locatedAt_twoFiles.mpr (.inr (.inr ⟨rfl, rfl⟩)), by decide⟩, ?_⟩
      rintro name ⟨loc, hloc, -⟩
      rcases locatedAt_twoFiles.mp hloc with ⟨rfl, -⟩ | ⟨rfl, -⟩ | ⟨rfl, -⟩
      · exact ⟨["m", "N"], ["Foo"], by decide, by decide, by decide, by decide⟩
      · exact ⟨["m", "N"], ["Foo", "Bar(System.Int32)"], by decide, by decide, by decide, by decide⟩
      · exact ⟨["m", "N"], ["Baz"], by decide, by decide, by decide, by decide⟩
    obtain ⟨a, -, -, hall⟩ :=
      (nodeAt_nearest twoFiles hpaths "/d/Other.cs" 1).2.1 hnone ⟨_, hcommon⟩
    have hhere : (ofItems twoFiles).nodeAt "/d/Other.cs" 1 = .ok "m.N" := by decide +kernel
    rw [hall s hs, ← hall _ hself, hhere]
  · apply (nodeAt_nearest twoFiles hpaths "/e/Foo.cs" 7).2.2
    · rintro ⟨name, loc, hin⟩
      rcases locatedAt_twoFiles.mp hin.located with ⟨rfl, rfl⟩ | ⟨rfl, rfl⟩ | ⟨rfl, rfl⟩
      all_goals exact absurd hin.file (by decide)
    · rintro ⟨a, ⟨name, loc, hloc, hdir⟩, -⟩
      rcases locatedAt_twoFiles.mp hloc with ⟨rfl, rfl⟩ | ⟨rfl, rfl⟩ | ⟨rfl, rfl⟩
      all_goals exact absurd hdir (by decide)
    · exact hs

end Locator

end CodeGraph
