import CodeGraph.Graph.Item
import CodeGraph.Proofs.Text.Json
import Mathlib.Algebra.Group.Nat.Defs

namespace CodeGraph

/-!
# Items as JSON

An item is read back from the object that is written for it, as far as its line is a machine word. The
object has the tag and a key for every field that is there. So different items have different objects, and
these have different texts.
-/

/-! ## Fields -/

theorem NodeKind.ofName?_name (k : NodeKind) : ofName? k.name = some k := by
  cases k <;> rfl

theorem MemberKind.ofName?_name (k : MemberKind) : ofName? k.name = some k := by
  cases k <;> rfl

theorem LinkKind.ofName?_name (k : LinkKind) : ofName? k.name = some k := by
  cases k <;> rfl

namespace Json

variable {α : Type}

theorem lookup_field (key x : String) (value : Json) (fields : List (String × Json)) :
    ((key, value) :: fields).lookup x = if x = key then some value else fields.lookup x := by
  by_cases hx : x = key
  · simp [hx]
  · have hne : (x == key) = false := by simpa using hx
    simp [List.lookup_cons, hx, hne]

theorem lookup_present (key x : String) (value : α → Json) (a : Option α) :
    (a.toList.map fun v => (key, value v)).lookup x = if x = key then a.map value else none := by
  cases a with
  | none => simp
  | some v => simp [lookup_field]

theorem optional?_map {read : Json → Option α} {value : α → Json} (hnull : ∀ v, value v ≠ null)
    (a : Option α) : optional? read (a.map value) = a.elim (some none) fun v => (read (value v)).map some := by
  cases a with
  | none => rfl
  | some v =>
      rw [Option.map_some, Option.elim_some]
      unfold optional?
      split
      · next h => cases h
      · next h => exact absurd (Option.some.inj h) (hnull v)
      · next h => rw [Option.some.inj h]

theorem tagged?_obj {fields : List (String × Json)} (h : "item" ∉ fields.map (·.1)) (tag : String) :
    tagged? (obj (("item", str tag) :: fields)) = some (tag, obj fields) := by
  have hothers : fields.filter (·.1 != "item") = fields := by
    rw [List.filter_eq_self]
    intro e he
    have hne : e.1 ≠ "item" := fun heq => h (heq ▸ List.mem_map_of_mem he)
    simpa using hne
  simp [tagged?, text?, hothers]

end Json

/-! ## Records -/

theorem SourceLocation.ofJson?_location (l : SourceLocation) :
    ofJson? l.toJson = if l.line < 2 ^ 64 then some l else none := by
  have hread : ofJson? l.toJson =
      (if l.line < 2 ^ 64 then some l.line else none).bind fun line => some ⟨l.path, line⟩ := rfl
  rw [hread]
  split <;> rfl

namespace Node

variable (n : Node)

theorem lookup_fields (key : String) :
    n.fields.lookup key =
      if key = "name" then some (.str n.name)
      else if key = "parent" then some (.str n.parent)
      else if key = "kind" then some (.str n.kind.name)
      else if key = "member_kind" then n.memberKind.map (.str ·.name)
      else if key = "description" then n.description.map .str
      else if key = "location" then n.location.map (·.toJson) else none := by
  simp only [fields, List.lookup_append, Json.lookup_present, Json.lookup_field, List.lookup_nil]
  split_ifs <;> simp_all

/-- Only the line of the location may be refused. -/
theorem ofJson?_fields :
    ofJson? (.obj n.fields) = if ∀ l ∈ n.location, l.line < 2 ^ 64 then some n else none := by
  have hmember : Json.optional? (Json.choice? MemberKind.ofName?) (n.memberKind.map (.str ·.name)) =
      some n.memberKind := by
    rw [Json.optional?_map (by simp)]
    cases n.memberKind <;> simp [Json.choice?, MemberKind.ofName?_name]
  have hdescription : Json.optional? Json.text? (n.description.map .str) = some n.description := by
    rw [Json.optional?_map (by simp)]
    cases n.description <;> rfl
  have hlocation : Json.optional? SourceLocation.ofJson? (n.location.map (·.toJson)) =
      if ∀ l ∈ n.location, l.line < 2 ^ 64 then some n.location else none := by
    rw [Json.optional?_map (by simp [SourceLocation.toJson])]
    cases n.location with
    | none => simp
    | some l =>
        simp only [Option.elim_some, SourceLocation.ofJson?_location, Option.mem_def,
          Option.some.injEq, forall_eq']
        split <;> rfl
  have hread : ofJson? (.obj n.fields) =
      (if ∀ l ∈ n.location, l.line < 2 ^ 64 then some n.location else none).bind
        fun location => some { n with location } := by
    rw [← hlocation]
    simp [ofJson?, Json.record?, lookup_fields, Json.text?, Json.choice?, NodeKind.ofName?_name, hmember,
      hdescription]
  rw [hread]
  split <;> rfl

end Node

theorem Link.ofJson?_fields (l : Link) : ofJson? (.obj l.fields) = some l := by
  simp [ofJson?, Json.record?, fields, Json.text?, Json.choice?, NodeKind.ofName?_name,
    LinkKind.ofName?_name, Json.lookup_field]

/-! ## Items -/

namespace Item

/-- Lines are counted in machine words. -/
def LineFits (item : Item) : Prop :=
  ∀ n ∈ item.node?, ∀ l ∈ n.location, l.line < 2 ^ 64

def tag : Item → String
  | node _ => "node"
  | link _ => "link"

def fields : Item → List (String × Json)
  | node n => n.fields
  | link l => l.fields

/-- The keys of the fields that are there. -/
def presentKeys : Item → List String
  | node n =>
    ([("name", true), ("parent", true), ("kind", true), ("member_kind", n.memberKind.isSome),
      ("description", n.description.isSome), ("location", n.location.isSome)].filter (·.2)).map (·.1)
  | link _ => ["source", "target", "target_kind", "kind"]

theorem toJson_eq (item : Item) : item.toJson = .obj (("item", .str item.tag) :: item.fields) := by
  cases item <;> rfl

theorem map_fields (item : Item) : item.fields.map (·.1) = item.presentKeys := by
  cases item with
  | node n =>
      obtain ⟨name, parent, kind, memberKind, description, location⟩ := n
      cases memberKind <;> cases description <;> cases location <;> rfl
  | link l => rfl

theorem tag_notMem_presentKeys (item : Item) : "item" ∉ item.presentKeys := by
  cases item with
  | node n => simp [presentKeys]
  | link l => simp [presentKeys]

theorem ofJson?_toJson_eq_some_iff {item other : Item} :
    ofJson? item.toJson = some other ↔ item = other ∧ item.LineFits := by
  have htagged := Json.tagged?_obj (item.map_fields ▸ item.tag_notMem_presentKeys) item.tag
  rw [toJson_eq, ofJson?, htagged]
  cases item with
  | node n =>
      have hread : (Node.ofJson? (.obj n.fields)).bind (fun n => some (node n)) = some other ↔
          node n = other ∧ (node n).LineFits := by
        have hfits : (node n).LineFits ↔ ∀ l ∈ n.location, l.line < 2 ^ 64 := by
          simp [LineFits, node?]
        rw [Node.ofJson?_fields, hfits]
        split
        · next hline => exact ⟨fun h => ⟨Option.some.inj h, hline⟩, fun h => congrArg some h.1⟩
        · next hline => exact ⟨fun h => (by cases h), fun h => absurd h.2 hline⟩
      exact hread
  | link l =>
      have hread : (Link.ofJson? (.obj l.fields)).bind (fun l => some (link l)) = some other ↔
          link l = other ∧ (link l).LineFits := by
        rw [Link.ofJson?_fields]
        simp [LineFits, node?]
      exact hread

/-- An item is read back from its object, which has the tag and the fields that are there, and no other
item is written with the same text. -/
theorem ofJson?_toJson {item : Item} (h : item.LineFits) :
    ofJson? item.toJson = some item ∧
      (∃ fields, item.toJson = .obj (("item", .str item.tag) :: fields) ∧
        fields.map (·.1) = item.presentKeys) ∧
      ∀ other : Item, other.toJson.compact = item.toJson.compact → other = item := by
  have hread : ofJson? item.toJson = some item := ofJson?_toJson_eq_some_iff.mpr ⟨rfl, h⟩
  refine ⟨hread, ⟨item.fields, item.toJson_eq, item.map_fields⟩, fun other htext => ?_⟩
  rw [← Json.compact_injective htext] at hread
  exact (ofJson?_toJson_eq_some_iff.mp hread).1

/-- A node with an empty description, in the last line that there can be. -/
def sampleItem : Item :=
  .node ⟨"m.\"\\.É\n(T&)", "m", .privateMember, some .event, some "", some ⟨"/a b/é.cs", 2 ^ 64 - 1⟩⟩

theorem ofJson?_toJson_lastLine :
    sampleItem.LineFits ∧ ofJson? sampleItem.toJson = some sampleItem ∧
      sampleItem.presentKeys = ["name", "parent", "kind", "member_kind", "description", "location"] := by
  have hfits : sampleItem.LineFits := by
    intro n hn l hl
    obtain rfl := Option.some.inj hn
    obtain rfl := Option.some.inj hl
    decide
  exact ⟨hfits, (ofJson?_toJson hfits).1, rfl⟩

end Item

end CodeGraph
