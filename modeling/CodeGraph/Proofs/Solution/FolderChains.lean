import CodeGraph.Solution
import Mathlib.Data.List.Nodup
import Mathlib.Data.List.Perm.Subperm
import Mathlib.Logic.Relation

namespace CodeGraph

/-!
# Chains of folders

The folders around an identifier are found by going from parent to parent, as long as these are folders.
A way up that is longer than there are folders is cut. Such a way comes back to where it was, and every
other one is followed to its end.
-/

section Nesting

variable (parents folders : Dict String)

/-- The parent of an identifier, when that is a folder. -/
def InFolder (guid parent : String) : Prop :=
  parents.get? guid = some parent ∧ ∃ name, folders.get? parent = some name

/-- There is no parent, or it is no folder. -/
def IsOutermost (guid : String) : Prop :=
  ∀ parent, parents.get? guid = some parent → folders.get? parent = none

/-- The way up from an identifier comes to some identifier twice. -/
def Revisits (guid : String) : Prop :=
  ∃ x, Relation.ReflTransGen (InFolder parents folders) guid x ∧
    Relation.TransGen (InFolder parents folders) x x

/-- The names of all parents in turn that are folders, the outermost first. -/
inductive FolderNames : String → List String → Prop
  | outermost {guid : String} (h : IsOutermost parents folders guid) : FolderNames guid []
  | inside {guid parent name : String} {names : List String} (hparent : parents.get? guid = some parent)
      (hname : folders.get? parent = some name) (h : FolderNames parent names) :
      FolderNames guid (names ++ [name])

end Nesting

variable {parents folders : Dict String} {guid parent : String}

theorem isOutermost_or_inFolder (parents folders : Dict String) (guid : String) :
    IsOutermost parents folders guid ∨ ∃ parent, InFolder parents folders guid parent := by
  by_contra! h
  obtain ⟨houtermost, hnone⟩ := h
  refine houtermost fun parent hparent => ?_
  exact Option.eq_none_iff_forall_ne_some.mpr fun name hname => hnone parent ⟨hparent, name, hname⟩

theorem foldersAround_outermost (h : IsOutermost parents folders guid) (more : Nat) :
    foldersAround parents folders more guid = [] := by
  cases more with
  | zero => rfl
  | succ more =>
      rw [foldersAround]
      cases hparent : parents.get? guid with
      | none => rfl
      | some parent =>
          dsimp only
          rw [h parent hparent]

theorem foldersAround_inside {name : String} (hparent : parents.get? guid = some parent)
    (hname : folders.get? parent = some name) (more : Nat) :
    foldersAround parents folders (more + 1) guid = name :: foldersAround parents folders more parent := by
  simp only [foldersAround, hparent, hname]

theorem length_foldersAround_le (more : Nat) (guid : String) :
    (foldersAround parents folders more guid).length ≤ more := by
  induction more generalizing guid with
  | zero => exact Nat.le_refl 0
  | succ more ih =>
      rcases isOutermost_or_inFolder parents folders guid with houtermost | ⟨parent, hparent, name, hname⟩
      · rw [foldersAround_outermost houtermost]
        exact Nat.zero_le _
      · rw [foldersAround_inside hparent hname, List.length_cons]
        exact Nat.succ_le_succ (ih parent)

/-! ## Ways that end -/

theorem Revisits.of_inFolder (h : InFolder parents folders guid parent)
    (hrevisits : Revisits parents folders parent) : Revisits parents folders guid := by
  obtain ⟨x, hx, hcycle⟩ := hrevisits
  exact ⟨x, .head h hx, hcycle⟩

/-- Different folders are no more than there are folders. -/
theorem length_le_size {passed : List String} (hnodup : passed.Nodup)
    (hfolders : ∀ x ∈ passed, ∃ name, folders.get? x = some name) : passed.length ≤ folders.size := by
  have hkeys : passed ⊆ folders.keys := by
    intro x hx
    obtain ⟨name, hname⟩ := hfolders x hx
    rw [← Dict.contains_iff_mem_keys, ← Dict.isSome_get?, hname, Option.isSome_some]
  calc passed.length ≤ folders.keys.length := (List.Nodup.subperm hnodup hkeys).length_le
    _ = folders.size := List.length_map _

/-- The folders that were passed are different from each other and from those to come, so that there is
always room left for the next one. -/
theorem foldersAround_complete (more : Nat) (hends : ¬ Revisits parents folders guid) {passed : List String}
    (hnodup : passed.Nodup) (hfolders : ∀ x ∈ passed, ∃ name, folders.get? x = some name)
    (hpassed : ∀ x ∈ passed, Relation.ReflTransGen (InFolder parents folders) x guid)
    (hmore : more + passed.length = folders.size + 1) :
    FolderNames parents folders guid (foldersAround parents folders more guid).reverse ∧
      (foldersAround parents folders more guid).length + passed.length ≤ folders.size := by
  have hroom := length_le_size hnodup hfolders
  induction more generalizing guid passed with
  | zero => omega
  | succ more ih =>
      rcases isOutermost_or_inFolder parents folders guid with houtermost | ⟨parent, hin⟩
      · rw [foldersAround_outermost houtermost, List.length_nil, Nat.zero_add]
        exact ⟨.outermost houtermost, hroom⟩
      · obtain ⟨hparent, name, hname⟩ := id hin
        have hnew : parent ∉ passed := fun hold =>
          hends ⟨parent, .single hin, .tail' (hpassed parent hold) hin⟩
        have hnodup' : (parent :: passed).Nodup := List.nodup_cons.mpr ⟨hnew, hnodup⟩
        have hfolders' := List.forall_mem_cons.mpr ⟨⟨name, hname⟩, hfolders⟩
        have hpassed' : ∀ x ∈ parent :: passed,
            Relation.ReflTransGen (InFolder parents folders) x parent :=
          List.forall_mem_cons.mpr ⟨.refl, fun x hx => (hpassed x hx).tail hin⟩
        have hmore' : more + (parent :: passed).length = folders.size + 1 := by
          rw [List.length_cons]
          omega
        have hends' : ¬ Revisits parents folders parent := fun hrevisits =>
          hends (hrevisits.of_inFolder hin)
        obtain ⟨hnames, hlength⟩ :=
          ih hends' hnodup' hfolders' hpassed' hmore' (length_le_size hnodup' hfolders')
        rw [foldersAround_inside hparent hname, List.reverse_cons, List.length_cons]
        rw [List.length_cons] at hlength
        exact ⟨.inside hparent hname hnames, by omega⟩

/-! ## Ways that come back -/

/-- Each identifier on a way that comes back lies in a folder from which the way comes back too. -/
theorem Revisits.exists_inFolder (h : Revisits parents folders guid) :
    ∃ parent, InFolder parents folders guid parent ∧ Revisits parents folders parent := by
  obtain ⟨x, hx, hcycle⟩ := h
  rcases Relation.ReflTransGen.cases_head hx with rfl | ⟨parent, hin, hrest⟩
  · obtain ⟨parent, hin, hback⟩ := Relation.TransGen.head'_iff.mp hcycle
    exact ⟨parent, hin, guid, hback, hcycle⟩
  · exact ⟨parent, hin, x, hrest, hcycle⟩

theorem IsOutermost.not_revisits (h : IsOutermost parents folders guid) :
    ¬ Revisits parents folders guid := by
  intro hrevisits
  obtain ⟨parent, ⟨hparent, name, hname⟩, -⟩ := hrevisits.exists_inFolder
  exact absurd (hname.symm.trans (h parent hparent)) (Option.some_ne_none name)

/-- There is one parent only, so that nothing else than what comes behind it can come back. -/
theorem InFolder.not_revisits (h : InFolder parents folders guid parent)
    (hparent : ¬ Revisits parents folders parent) : ¬ Revisits parents folders guid := by
  intro hrevisits
  obtain ⟨other, hin, hother⟩ := hrevisits.exists_inFolder
  obtain rfl := Option.some.inj (h.1.symm.trans hin.1)
  exact hparent hother

theorem length_foldersAround_of_revisits (more : Nat) (h : Revisits parents folders guid) :
    (foldersAround parents folders more guid).length = more := by
  induction more generalizing guid with
  | zero => rfl
  | succ more ih =>
      obtain ⟨parent, ⟨hparent, name, hname⟩, hrevisits⟩ := h.exists_inFolder
      rw [foldersAround_inside hparent hname, List.length_cons, ih hrevisits]

/-- A chain has at most one name more than there are folders. It is complete, and not longer than there are
folders, unless the way up comes to some identifier twice, and is then cut at one name more. -/
theorem folderChain_names (parents folders : Dict String) (guid : String) :
    (folderChain parents folders guid).length ≤ folders.size + 1 ∧
      (¬ Revisits parents folders guid →
        FolderNames parents folders guid (folderChain parents folders guid) ∧
          (folderChain parents folders guid).length ≤ folders.size) ∧
      (Revisits parents folders guid → (folderChain parents folders guid).length = folders.size + 1) := by
  rw [folderChain, List.length_reverse]
  refine ⟨length_foldersAround_le _ guid, ?_, length_foldersAround_of_revisits _⟩
  intro hends
  obtain ⟨hnames, hlength⟩ := foldersAround_complete (folders.size + 1) hends List.nodup_nil
    (List.forall_mem_nil _) (List.forall_mem_nil _) rfl
  exact ⟨hnames, hlength⟩

namespace Sample

/-- A project in a folder that lies in another one, beside two folders that lie in each other. The parent of
the outer folder is not listed. -/
def nestedIn : Dict String :=
  ⟨[("P", "IN"), ("IN", "OUT"), ("OUT", "GONE"), ("X", "Y"), ("Y", "X")]⟩

def folderTable : Dict String :=
  ⟨[("OUT", "Libraries"), ("IN", "Shared"), ("X", "Loop"), ("Y", "Loop")]⟩

end Sample

theorem folderChain_names_nested :
    ¬ Revisits Sample.nestedIn Sample.folderTable "P" ∧
      FolderNames Sample.nestedIn Sample.folderTable "P" ["Libraries", "Shared"] ∧
      Revisits Sample.nestedIn Sample.folderTable "X" ∧
      (folderChain Sample.nestedIn Sample.folderTable "X").length = 5 := by
  have houtermost : IsOutermost Sample.nestedIn Sample.folderTable "OUT" := by
    intro parent hparent
    obtain rfl : "GONE" = parent := Option.some.inj hparent
    rfl
  have hinner : InFolder Sample.nestedIn Sample.folderTable "IN" "OUT" := ⟨rfl, "Libraries", rfl⟩
  have hproject : InFolder Sample.nestedIn Sample.folderTable "P" "IN" := ⟨rfl, "Shared", rfl⟩
  have hends := hproject.not_revisits (hinner.not_revisits houtermost.not_revisits)
  have hback : Revisits Sample.nestedIn Sample.folderTable "X" :=
    ⟨"X", .refl, .tail (.single ⟨rfl, "Loop", rfl⟩) ⟨rfl, "Loop", rfl⟩⟩
  exact ⟨hends, ((folderChain_names Sample.nestedIn Sample.folderTable "P").2.1 hends).1, hback,
    (folderChain_names Sample.nestedIn Sample.folderTable "X").2.2 hback⟩

end CodeGraph
