import CodeGraph.CSharp.Viewpoint
import CodeGraph.Proofs.Name.Segments
import CodeGraph.Proofs.Text.Cuts

namespace CodeGraph

open CodeGraph.Text

/-!
# Keys and names

A type's own name stands behind the last dot of its key. So a type that is found under a key has the name
that the key ends in.
-/

/-! ## The last part of a key -/

/-- The part behind the last dot. -/
def lastPart (key : String) : Chars :=
  Chars.behindLast '.' key.toList

/-- A name without dots, as types have it. -/
def IsOwnName (name : String) : Prop :=
  name ≠ "" ∧ '.' ∉ name.toList

theorem lastPart_of_isOwnName {name : String} (h : IsOwnName name) : lastPart name = name.toList :=
  Chars.behindLast_of_notMem h.2

theorem lastPart_append_dot (above name : String) : lastPart (above ++ "." ++ name) = lastPart name := by
  have hlist : (above ++ "." ++ name).toList = above.toList ++ '.' :: name.toList := by simp
  rw [lastPart, hlist, Chars.behindLast_append_cons, lastPart]

theorem lastPart_join {child : String} (h : child ≠ "") (above : String) :
    lastPart (Name.join above child) = lastPart child := by
  by_cases habove : above = ""
  · subst habove
    simp [Name.join, Name.joinChars]
  · rw [lastPart, Name.toList_join,
      Name.joinChars_of_ne_nil (Name.toList_ne_nil habove) (Name.toList_ne_nil h),
      Chars.behindLast_append_cons, lastPart]

theorem lastPart_joinWith {parts : List String} {last : String} (h : parts.getLast? = some last) :
    lastPart (joinWith "." parts) = lastPart last := by
  have hlast : (parts.map String.toList).getLast? = some last.toList := by
    rw [List.getLast?_map, h, Option.map_some]
  rw [lastPart, Chars.toList_joinWith]
  exact Chars.behindLast_joinWith hlast

theorem ne_empty_of_lastPart {text name : String} (h : lastPart text = name.toList)
    (hname : IsOwnName name) : text ≠ "" := by
  rintro rfl
  exact hname.1 (String.toList_eq_nil_iff.mp (h.symm.trans rfl))

/-- A dotted text below a namespace ends as the text does. -/
theorem lastPart_join_of_lastPart {text name : String} (h : lastPart text = name.toList)
    (hname : IsOwnName name) (above : String) : lastPart (Name.join above text) = name.toList := by
  rw [lastPart_join (ne_empty_of_lastPart h hname), h]

theorem lastPart_exportKey {nesting : List String} {name : String} (h : nesting.getLast? = some name)
    (hname : IsOwnName name) (ns : String) : lastPart (exportKey ns nesting) = name.toList := by
  have hnested : lastPart (joinWith "." nesting) = name.toList := by
    rw [lastPart_joinWith h, lastPart_of_isOwnName hname]
  exact lastPart_join_of_lastPart hnested hname ns

/-! ## Tables -/

/-- Every type stands under the key of its namespace and its nesting. -/
def Exports.Keyed (e : Exports) : Prop :=
  ∀ key t, e.types.get? key = some t →
    key = exportKey t.ns t.nesting ∧ ∃ name, t.nesting.getLast? = some name ∧ IsOwnName name

def ExportIndex.Keyed (i : ExportIndex) : Prop :=
  ∀ owner e, i.tables.get? owner = some e → e.Keyed

/-- All tables that a module sees are keyed. -/
structure CSharp.Viewpoint.Keyed (v : CSharp.Viewpoint) : Prop where
  own : v.own.Keyed
  index : v.index.Keyed

theorem Exports.keyed_empty (owner : String) : (Exports.empty owner).Keyed := by
  intro key t h
  rw [Exports.empty, Dict.get?_empty] at h
  cases h

theorem Exports.Keyed.insert {e : Exports} (h : e.Keyed) {t : ExportedType} {name : String}
    (hlast : t.nesting.getLast? = some name) (hname : IsOwnName name) :
    (e.insert (exportKey t.ns t.nesting) t).Keyed := by
  intro key u hu
  rw [Exports.insert, Dict.get?_insert] at hu
  split at hu
  · next hkey =>
      obtain rfl := Option.some.inj hu
      exact ⟨hkey, name, hlast, hname⟩
  · exact h key u hu

theorem ExportIndex.keyed_empty : ExportIndex.empty.Keyed := by
  intro owner e h
  rw [ExportIndex.empty, Dict.get?_empty] at h
  cases h

theorem ExportIndex.Keyed.add {i : ExportIndex} (h : i.Keyed) {e : Exports} (he : e.Keyed)
    (references : List String) : (i.add e references).Keyed := by
  intro owner f hf
  rw [ExportIndex.add, Dict.get?_insert] at hf
  split at hf
  · obtain rfl := Option.some.inj hf
    exact he
  · exact h owner f hf

theorem Exports.foldl_insert_owner {α : Type} (key : α → String) (type : α → ExportedType)
    (l : List α) (e : Exports) : (l.foldl (fun e a => e.insert (key a) (type a)) e).owner = e.owner := by
  induction l generalizing e with
  | nil => rfl
  | cons a l ih => exact ih (e.insert (key a) (type a))

theorem Exports.types_foldl_insert {α : Type} (key : α → String) (type : α → ExportedType) (l : List α)
    (e : Exports) : (l.foldl (fun e a => e.insert (key a) (type a)) e).types =
      l.foldl (fun d a => d.insert (key a) (type a)) e.types := by
  induction l generalizing e with
  | nil => rfl
  | cons a l ih => exact ih (e.insert (key a) (type a))

/-! ## Types under their keys -/

theorem Exports.Keyed.getLast? {e : Exports} (h : e.Keyed) {key name : String} {t : ExportedType}
    (hget : e.types.get? key = some t) (hkey : lastPart key = name.toList) :
    t.nesting.getLast? = some name := by
  obtain ⟨rfl, own, hlast, hown⟩ := h key t hget
  rw [lastPart_exportKey hlast hown] at hkey
  rw [hlast, String.toList_injective hkey]

theorem CSharp.Viewpoint.getLast?_of_find? {v : Viewpoint} (hv : v.Keyed) {key name : String}
    {t : NamedType} (h : v.find? key = some t) (hkey : lastPart key = name.toList) :
    t.nesting.getLast? = some name := by
  rw [find?] at h
  split at h
  · next own hown =>
      obtain rfl := Option.some.inj h
      exact hv.own.getLast? hown hkey
  · obtain ⟨⟨owner, found⟩, hfound, rfl⟩ := Option.map_eq_some_iff.mp h
    obtain ⟨e, he, hget⟩ := List.exists_of_findSome?_eq_some hfound
    obtain ⟨other, -, hother⟩ := List.mem_filterMap.mp he
    obtain ⟨found', hfound', heq⟩ := Option.map_eq_some_iff.mp hget
    obtain ⟨-, rfl⟩ := Prod.mk.inj heq
    exact (hv.index other e hother).getLast? hfound' hkey

end CodeGraph
