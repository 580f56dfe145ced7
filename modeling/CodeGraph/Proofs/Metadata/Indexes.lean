import CodeGraph.Proofs.Parse.Identity

namespace CodeGraph.Metadata

open CodeGraph.Text

/-!
# What an opened module keeps

The lookups of a module are gathered from the rows of its image when it is opened, and stay what they were
then.
-/

namespace BinaryModule

/-- The nesting of types and the owners of members come from the rows of the module's image. -/
structure Gathered (m : BinaryModule) (types : List TypeRow) (nested : List (Nat × Nat)) : Prop where
  type_rows : (m.image.rows TableId.typeDef).mapM m.image.type? = some types
  nested_rows : m.image.pairs? TableId.nestedClass = some nested
  nesting : m.nesting = nestingOf nested
  typeMethods : m.typeMethods =
    (RowRange.ofColumn (m.image.count TableId.method) (types.map (·.firstMethod))).toArray
  typeFields : m.typeFields =
    (RowRange.ofColumn (m.image.count TableId.field) (types.map (·.firstField))).toArray
  methodOwners : m.methodOwners =
    owners (m.image.count TableId.method)
      (RowRange.ofColumn (m.image.count TableId.method) (types.map (·.firstMethod)))
  fieldOwners : m.fieldOwners =
    owners (m.image.count TableId.field)
      (RowRange.ofColumn (m.image.count TableId.field) (types.map (·.firstField)))

theorem gathered_ofBytes? {path : String} {data : Array UInt8} {m : BinaryModule}
    (h : ofBytes? path data = some m) : ∃ types nested, m.Gathered types nested := by
  unfold ofBytes? at h
  simp only [Option.bind_eq_bind, Option.bind_eq_some_iff] at h
  obtain ⟨i, -, name, -, references, -, nested, hnested, types, htypes, properties, -, events, -, accessors,
    -, interfaces, -, attributes, -, hm⟩ := h
  obtain rfl := Option.some.inj hm
  exact ⟨types, nested, htypes, hnested, rfl, rfl, rfl, rfl, rfl⟩

theorem gathered_ofFile {t : FileTree} {path : String} {withLocations : Bool} {m : BinaryModule}
    (h : ofFile t path withLocations = .ok m) : ∃ types nested, m.Gathered types nested := by
  unfold ofFile at h
  split at h
  · cases h
  · split at h
    · cases h
    · next opened hbytes =>
        obtain rfl := Except.ok.inj h
        obtain ⟨types, nested, hgathered⟩ := gathered_ofBytes? hbytes
        exact ⟨types, nested, hgathered.type_rows, hgathered.nested_rows, hgathered.nesting, hgathered.typeMethods,
          hgathered.typeFields, hgathered.methodOwners, hgathered.fieldOwners⟩

/-! ## An image with twisted rows -/

namespace Twisted

open Plain

/-- The second type first nests in itself, then in the first type, then in the third, and the third and the
fourth nest in each other. -/
def nestedRows : List (Nat × Nat) :=
  [(2, 2), (2, 1), (3, 4), (4, 3), (2, 3)]

/-- The columns of the first methods and the first fields. -/
def columns : List (Nat × Nat) :=
  [(0, 2), (2, 2), (2, 3), (9, 3)]

def strings : Bytes :=
  0 :: ascii "T" ++ [0]

/-- Four types of one name, two fields, three methods and the rows of nesting. -/
def tables : Bytes :=
  let head := zeros 8 ++ little 8 0x20000000054 ++ zeros 8
  let counts := little 4 4 ++ little 4 2 ++ little 4 3 ++ little 4 5
  let types := columns.flatMap fun (method, field) =>
    zeros 4 ++ little 2 1 ++ zeros 4 ++ little 2 field ++ little 2 method
  let members := zeros (2 * 6 + 3 * 14)
  let nesting := nestedRows.flatMap fun (nested, outer) => little 2 nested ++ little 2 outer
  head ++ counts ++ types ++ members ++ nesting

def metadata : Bytes :=
  rootMark ++ zeros 8 ++ little 4 4 ++ zeros 6 ++ little 2 2 ++ streamHead "#~" 56 tables.length ++
    streamHead "#Strings" (56 + tables.length) strings.length ++ tables ++ strings

/-- The metadata stands behind the first header, and the others behind it. The only section is loaded where
it lies in the file. -/
def image : Array UInt8 :=
  let headers := 64 + metadata.length
  let dosHeader := ascii "MZ" ++ zeros 58 ++ little 4 headers
  let fileHeader := ascii "PE" ++ zeros 4 ++ little 2 1 ++ zeros 12 ++ little 2 224 ++ zeros 2
  let optionalHeader :=
    little 2 0x10B ++ zeros 90 ++ little 4 16 ++ zeros 112 ++ little 4 (headers + 288) ++ zeros 12
  let sectionHeader := zeros 8 ++ little 4 1024 ++ little 4 64 ++ zeros 4 ++ little 4 64 ++ zeros 16
  let managedHeader := zeros 8 ++ little 4 64 ++ little 4 metadata.length ++ zeros 56
  (dosHeader ++ metadata ++ fileHeader ++ optionalHeader ++ sectionHeader ++ managedHeader).toArray

def tree : FileTree :=
  ⟨[(["T.dll"], ⟨image, 0⟩)], [], []⟩

/-- What the rows of the image say. -/
structure Reads (m : BinaryModule) : Prop where
  topLevel : m.topLevel = [1]
  nested : m.image.pairs? TableId.nestedClass = some nestedRows
  columns : ((m.image.rows TableId.typeDef).mapM m.image.type?).map
    (·.map fun type => (type.firstMethod, type.firstField)) = some columns
  methodCount : m.image.count TableId.method = 3
  fieldCount : m.image.count TableId.field = 2

theorem opened : ∃ m, ofFile tree "/T.dll" false = .ok m ∧ Reads m := by
  have hread : ((ofFile tree "/T.dll" false).toOption.any fun m =>
      decide (m.topLevel = [1] ∧ m.image.pairs? TableId.nestedClass = some nestedRows ∧
        ((m.image.rows TableId.typeDef).mapM m.image.type?).map
          (·.map fun type => (type.firstMethod, type.firstField)) = some columns ∧
        m.image.count TableId.method = 3 ∧ m.image.count TableId.field = 2)) = true := by
    decide +kernel
  obtain ⟨m, hm, hfacts⟩ := (Option.any_eq_true _ _).mp hread
  obtain ⟨htop, hnested, hcolumns, hmethods, hfields⟩ := of_decide_eq_true hfacts
  exact ⟨m, Except.toOption_eq_some hm, htop, hnested, hcolumns, hmethods, hfields⟩

end Twisted

end BinaryModule

end CodeGraph.Metadata
