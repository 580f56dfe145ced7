import CodeGraph.Proofs.Graph.Nearest

namespace CodeGraph

open CodeGraph.Name

/-!
# Declarations on one line

Of several names that are declared equally near to a line and are equally long, the one is taken whose
location is kept last. Whatever the order of the locations, a place leads to the same answer if and only if
no two names tie in this way.
-/

namespace Locator

/-- The name is declared nearest above the line of the file, and none on its own line is longer. -/
def IsNearest (items : List Item) (path : String) (line : Nat) (name : String) : Prop :=
  ∃ loc, InFile items path line name loc ∧ ∀ name' loc', InFile items path line name' loc' →
    loc'.line ≤ loc.line ∧ (loc'.line = loc.line → name'.utf8ByteSize ≤ name.utf8ByteSize)

variable {items : List Item} {path : String} {line : Nat}

/-- Each of the nearest names is the answer when its location is kept last. -/
theorem exists_nodeAt_of_isNearest {name : String} (h : IsNearest items path line name) :
    ∃ s : Locator, s.Keeps items ∧ s.nodeAt path line = .ok name := by
  obtain ⟨loc, hin, hnearest⟩ := h
  have hself : (ofItems items).Keeps items := List.Perm.refl _
  obtain ⟨before, after, hentries⟩ := List.append_of_mem (hself.mem_iff.mpr hin.located)
  have hs : Keeps ⟨⟨(before ++ after) ++ [(name, loc)]⟩, []⟩ items := by
    unfold Keeps
    rw [hentries]
    exact (List.perm_append_singleton _ _).trans List.perm_middle.symm
  refine ⟨_, hs, ?_⟩
  have hlast : entriesAbove ((before ++ after) ++ [(name, loc)]) path line =
      entriesAbove (before ++ after) path line ++ [(name, loc)] := entriesAbove_concat hin.file hin.line_le
  have hgreatest : ∀ b ∈ entriesAbove (before ++ after) path line,
      (compareNearness b (name, loc)).isLE = true := by
    intro b hb
    have hother := (mem_inFile hs).mp (hlast ▸ List.mem_append_left _ hb)
    exact isLE_compareNearness.mpr (hnearest _ _ hother)
  rw [nodeAt_eq, hlast, maxBy_concat hgreatest]

/-- What is answered where nothing is declared above the line does not depend on the order. -/
theorem nodeAt_directory_eq (hpaths : ∀ name loc, LocatedAt items name loc → HasSegments name)
    {s s' : Locator} (hs : s.Keeps items) (hs' : s'.Keeps items)
    (hnone : ¬ ∃ name loc, InFile items path line name loc) : s.nodeAt path line = s'.nodeAt path line := by
  rcases nodeAt_of_directory hpaths hs hnone with ⟨a, ha, hcommon, hdeepest⟩ | ⟨hmissing, hfar⟩
  · rcases nodeAt_of_directory hpaths hs' hnone with ⟨b, hb, hcommon', hdeepest'⟩ | ⟨-, hfar⟩
    · rw [ha, hb, (hdeepest b hcommon').antisymm (hdeepest' a hcommon)]
    · exact absurd ⟨a, hcommon⟩ hfar
  · rcases nodeAt_of_directory hpaths hs' hnone with ⟨b, -, hcommon', -⟩ | ⟨hmissing', -⟩
    · exact absurd ⟨b, hcommon'⟩ hfar
    · rw [hmissing, hmissing']

/-- The answer for a place is the same in every order of the locations if and only if at most one name is
nearest to it. -/
theorem nodeAt_orderFree_iff (items : List Item)
    (hpaths : ∀ name loc, LocatedAt items name loc → HasSegments name) (path : String) (line : Nat) :
    (∀ s s' : Locator, s.Keeps items → s'.Keeps items → s.nodeAt path line = s'.nodeAt path line) ↔
      ∀ a b, IsNearest items path line a → IsNearest items path line b → a = b := by
  constructor
  · intro h a b ha hb
    obtain ⟨s, hs, hanswer⟩ := exists_nodeAt_of_isNearest ha
    obtain ⟨s', hs', hanswer'⟩ := exists_nodeAt_of_isNearest hb
    exact Except.ok.inj (hanswer.symm.trans ((h s s' hs hs').trans hanswer'))
  · intro hone s s' hs hs'
    by_cases hin : ∃ name loc, InFile items path line name loc
    · obtain ⟨a, loc, ha, hnearest⟩ := nodeAt_of_inFile hs hin
      obtain ⟨b, loc', hb, hnearest'⟩ := nodeAt_of_inFile hs' hin
      rw [ha, hb, hone a b ⟨loc, hnearest⟩ ⟨loc', hnearest'⟩]
    · exact nodeAt_directory_eq hpaths hs hs' hin

/-- A type and two fields of it, which are declared on one line. -/
def fieldsOnOneLine : List Item :=
  [.node { Node.plain "m.T" "m" .type with location := some ⟨"/d/T.cs", 1⟩ },
   .node { Node.ofMember "m.T.a" "m.T" .field false with location := some ⟨"/d/T.cs", 2⟩ },
   .node { Node.ofMember "m.T.b" "m.T" .field false with location := some ⟨"/d/T.cs", 2⟩ }]

theorem locatedAt_fieldsOnOneLine {name : String} {loc : SourceLocation} :
    LocatedAt fieldsOnOneLine name loc ↔ name = "m.T" ∧ loc = ⟨"/d/T.cs", 1⟩ ∨
      name = "m.T.a" ∧ loc = ⟨"/d/T.cs", 2⟩ ∨ name = "m.T.b" ∧ loc = ⟨"/d/T.cs", 2⟩ := by
  have hentries : (ofItems fieldsOnOneLine).locations.entries =
      [("m.T", ⟨"/d/T.cs", 1⟩), ("m.T.a", ⟨"/d/T.cs", 2⟩), ("m.T.b", ⟨"/d/T.cs", 2⟩)] := rfl
  have hself : (ofItems fieldsOnOneLine).Keeps fieldsOnOneLine := List.Perm.refl _
  simp [← hself.mem_iff, hentries]

/-- On the line above the fields there is no choice. -/
theorem nodeAt_orderFree_above_fields :
    (∀ name loc, LocatedAt fieldsOnOneLine name loc → HasSegments name) ∧
    (∀ a b, IsNearest fieldsOnOneLine "/d/T.cs" 1 a → IsNearest fieldsOnOneLine "/d/T.cs" 1 b → a = b) ∧
    ∀ s s' : Locator, s.Keeps fieldsOnOneLine → s'.Keeps fieldsOnOneLine →
      s.nodeAt "/d/T.cs" 1 = s'.nodeAt "/d/T.cs" 1 := by
  have hpaths : ∀ name loc, LocatedAt fieldsOnOneLine name loc → HasSegments name :=
    hasSegments_of_keys [["m", "T"], ["m", "T", "a"], ["m", "T", "b"]] (by decide) (by decide)
  have hone : ∀ a, IsNearest fieldsOnOneLine "/d/T.cs" 1 a → a = "m.T" := by
    rintro a ⟨loc, hin, -⟩
    rcases locatedAt_fieldsOnOneLine.mp hin.located with ⟨rfl, -⟩ | ⟨-, rfl⟩ | ⟨-, rfl⟩
    · rfl
    · exact absurd hin.line_le (by decide)
    · exact absurd hin.line_le (by decide)
  have hsame : ∀ a b, IsNearest fieldsOnOneLine "/d/T.cs" 1 a →
      IsNearest fieldsOnOneLine "/d/T.cs" 1 b → a = b := fun a b ha hb => (hone a ha).trans (hone b hb).symm
  exact ⟨hpaths, hsame, (nodeAt_orderFree_iff fieldsOnOneLine hpaths "/d/T.cs" 1).mpr hsame⟩

/-- Two fields on one line, with names of one length, are answered by the order of the locations. -/
theorem nodeAt_fieldsOnOneLine :
    ((fieldsOnOneLine.filterMap Item.node?).map (·.name)).Nodup ∧
    ∃ s s' : Locator, s.Keeps fieldsOnOneLine ∧ s'.Keeps fieldsOnOneLine ∧
      s.nodeAt "/d/T.cs" 2 = .ok "m.T.a" ∧ s'.nodeAt "/d/T.cs" 2 = .ok "m.T.b" := by
  refine ⟨by decide, ⟨⟨(ofItems fieldsOnOneLine).locations.entries.reverse⟩, []⟩,
    ofItems fieldsOnOneLine, List.reverse_perm _, List.Perm.refl _, ?_, ?_⟩ <;> decide +kernel

/-- A type with a bracket in its name, and a method of it. -/
def bracketType : List Item :=
  [.node (.plain "lib" "" .module),
   .node { Node.ofMember "lib.Op<.Run()" "lib.Op<" .method false with location := some ⟨"/d/Op.cs", 3⟩ },
   .node { Node.plain "lib.Op<" "lib" .type with location := some ⟨"/d/Op.cs", 1⟩ }]

/-- Where brackets are not balanced, the order counts for the directory as well. -/
theorem nodeAt_bracketType :
    ∃ s s' : Locator, s.Keeps bracketType ∧ s'.Keeps bracketType ∧
      s.nodeAt "/d/Other.cs" 1 = .ok "lib.Op<" ∧ s'.nodeAt "/d/Other.cs" 1 = .ok "lib" := by
  refine ⟨⟨⟨(ofItems bracketType).locations.entries.reverse⟩, []⟩,
    ofItems bracketType, List.reverse_perm _, List.Perm.refl _, ?_, ?_⟩ <;> decide +kernel

end Locator

end CodeGraph
