import CodeGraph.Proofs.Files.Normalized

namespace CodeGraph

open CodeGraph.Path

/-!
# References between projects

A project file that is named relatively gives its references relatively. They are those that it gives under
its absolute name, as long as none of them leads out of the directory that the name is relative to by more
than one level.
-/

namespace Path

theorem eq_concat_of_fileName? {path : String} (h : (fileName? path).isSome) :
    ∃ n, components path = components (directoryOf path) ++ [.name n] := by
  rw [components_directoryOf]
  unfold fileName? at h
  split at h
  · next n hlast => exact ⟨n, (List.dropLast_append_getLast? _ hlast).symm⟩
  · cases h

/-- The relative path, seen from the directory, names the file that the other path names. -/
structure IsFileBelow (base near far : String) : Prop where
  relative : isAbsolute near = false
  nearFile : (fileName? near).isSome
  farFile : (fileName? far).isSome
  same : normalize far = normalize (join base near)

/-- What stands beside the one file stands beside the other. -/
theorem IsFileBelow.beside {base near far child : String} (h : IsFileBelow base near far)
    (hchild : isAbsolute child = false) :
    normalize (join base (join (directoryOf near) child)) = normalize (join (directoryOf far) child) := by
  obtain ⟨n, hnear⟩ := eq_concat_of_fileName? h.nearFile
  obtain ⟨m, hfar⟩ := eq_concat_of_fileName? h.farFile
  have hdirectory : isAbsolute (directoryOf near) = false := by
    rw [← Bool.not_eq_true, isAbsolute_iff]
    intro hroot
    refine root_notMem_of_relative h.relative ?_
    rw [hnear]
    exact List.mem_append_left _ hroot
  have hpath : isAbsolute (join (directoryOf near) child) = false := by
    rw [isAbsolute_join, hchild, hdirectory]
    rfl
  -- Both files are named on top of their directories, which are therefore the same.
  have hsame := normalize_eq_iff.mp h.same
  rw [resolve_join h.relative, hnear, List.foldl_concat, resolve, hfar, List.foldl_concat] at hsame
  have hplace := (List.cons.inj hsame).2
  rw [normalize_eq_iff, resolve_join hpath, foldl_step_join hchild, resolve_join hchild, ← hplace]
  rfl

end Path

namespace Project

/-- The projects that a project refers to, as it writes them. -/
def referencePaths (document : Xml.Node) : List String :=
  (includes document "ProjectReference").map slashed

theorem exists_parse {text : String} {document : Xml.Node} (h : Xml.parse? text = some document)
    (path : String) : ∃ p, parse path text = .ok p ∧
      p.projectReferences =
        (referencePaths document).map fun r => normalize (join (directoryOf path) r) := by
  simp only [parse, h, referencePaths, List.map_map]
  refine ⟨_, rfl, ?_⟩
  simp only [Function.comp_def]

/-- Normalizing a path changes nothing the second time. Seen from an absolute directory that is deep enough,
the path and its normal form lead to the same place exactly if the path leads out of the directory by one
level at most. When it is that of a project file, its references are those that it gives under an absolute
name exactly if this holds of all that are written relatively. -/
theorem normalize_keeps_place (path : String) :
    normalize (normalize path) = normalize path ∧
    (∀ base, IsBaseOf base path →
      (normalize (join base (normalize path)) = normalize (join base path) ↔ (wayOf path).out ≤ 1)) ∧
    ∀ base far text document, Xml.parse? text = some document → IsFileBelow base path far →
      (∀ r ∈ referencePaths document, isAbsolute r = false →
        IsBaseOf base (join (directoryOf path) r)) →
      ∃ p q, parse path text = .ok p ∧ parse far text = .ok q ∧
        (p.projectReferences.map (fun r => normalize (join base r)) = q.projectReferences ↔
          ∀ r ∈ referencePaths document, isAbsolute r = false →
            (wayOf (join (directoryOf path) r)).out ≤ 1) := by
  refine ⟨normalize_normalize path, fun base h => normalize_join_normalize_iff h, ?_⟩
  intro base far text document hdocument hfile hdeep
  obtain ⟨p, hp, hnear⟩ := exists_parse hdocument path
  obtain ⟨q, hq, hfar⟩ := exists_parse hdocument far
  refine ⟨p, q, hp, hq, ?_⟩
  rw [hnear, hfar, List.map_map, List.map_inj_left]
  refine forall₂_congr fun r hr => ?_
  rw [Function.comp_apply]
  cases habsolute : isAbsolute r with
  | true =>
      have hnormal : isAbsolute (normalize r) = true := (isAbsolute_normalize r).trans habsolute
      rw [join_of_isAbsolute _ habsolute, join_of_isAbsolute _ habsolute, join_of_isAbsolute _ hnormal,
        normalize_normalize]
      simp
  | false =>
      rw [← hfile.beside habsolute, normalize_join_normalize_iff (hdeep r hr habsolute)]
      simp

namespace Sample

/-- A project file that refers to a neighbour. -/
def neighbourText : String :=
  "<Project><ProjectReference Include=\"..\\Core\\Core.csproj\"/></Project>"

def neighbourDocument : Xml.Node :=
  .element "Project" [] [.element "ProjectReference" [("Include", "..\\Core\\Core.csproj")] []]

/-- A project file that refers to a project further out. -/
def outerText : String :=
  "<Project><ProjectReference Include=\"..\\..\\..\\x.csproj\"/></Project>"

end Sample

open Sample

theorem normalize_keeps_place_neighbour :
    normalize (join "/w/x" (normalize "../Cli/./../Core")) = normalize (join "/w/x" "../Cli/./../Core") ∧
      ∃ p q, parse "../Cli/Cli.csproj" neighbourText = .ok p ∧
        parse "/w/Cli/Cli.csproj" neighbourText = .ok q ∧
        p.projectReferences.map (fun r => normalize (join "/w/x" r)) = q.projectReferences := by
  have hbase : IsBaseOf "/w/x" "../Cli/./../Core" :=
    ⟨by decide +kernel, by decide +kernel, by decide +kernel, by decide +kernel⟩
  have hfile : IsFileBelow "/w/x" "../Cli/Cli.csproj" "/w/Cli/Cli.csproj" :=
    ⟨by decide +kernel, by decide +kernel, by decide +kernel, by decide +kernel⟩
  have hreferences : referencePaths neighbourDocument = ["../Core/Core.csproj"] := by decide +kernel
  have hdeep : ∀ r ∈ referencePaths neighbourDocument, isAbsolute r = false →
      IsBaseOf "/w/x" (join (directoryOf "../Cli/Cli.csproj") r) := by
    rw [hreferences]
    intro r hr _
    obtain rfl := List.mem_singleton.mp hr
    exact ⟨by decide +kernel, by decide +kernel, by decide +kernel, by decide +kernel⟩
  obtain ⟨p, q, hp, hq, hiff⟩ := (normalize_keeps_place "../Cli/Cli.csproj").2.2 _ _ neighbourText
    neighbourDocument rfl hfile hdeep
  refine ⟨((normalize_keeps_place _).2.1 _ hbase).mpr (by decide +kernel), p, q, hp, hq, hiff.mpr ?_⟩
  rw [hreferences]
  decide +kernel

/-- The second of two `..` that lead out takes back the first, and the reference stays in the directory. -/
theorem normalize_twoOut :
    IsBaseOf "/b/c/d" "p/../../../x.csproj" ∧
      normalize (join "/b/c/d" (normalize "p/../../../x.csproj")) ≠
        normalize (join "/b/c/d" "p/../../../x.csproj") ∧
      (parse "p/a.csproj" outerText).toOption.map (·.projectReferences) = some ["x.csproj"] ∧
      (parse "/b/c/d/p/a.csproj" outerText).toOption.map (·.projectReferences) = some ["/b/x.csproj"] := by
  refine ⟨⟨?_, ?_, ?_, ?_⟩, ?_, ?_, ?_⟩ <;> decide +kernel

end Project

end CodeGraph
