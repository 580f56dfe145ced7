import CodeGraph.Metadata.OpenFile
import CodeGraph.Metadata.Reference
import CodeGraph.Proofs.Parse.Identity

namespace CodeGraph.Metadata

/-!
# What references denote

A reference to a member of its own module and the definition of that member are read from different rows.
They still agree on all that a name is made of: the member's segment and kind, and the type that holds it.
-/

/-! ## Tokens -/

namespace Token

theorem row_ofNat_lt (n : Nat) : (ofNat n).row < 0x1000000 :=
  Nat.mod_lt n (by decide)

theorem ofNat_toNat {t : Token} (h : t.row < 0x1000000) : ofNat t.toNat = t := by
  obtain ⟨table, row⟩ := t
  dsimp only at h
  have htable : (table * 0x1000000 + row) / 0x1000000 = table := by omega
  have hrow : (table * 0x1000000 + row) % 0x1000000 = row := by omega
  rw [ofNat, toNat, htable, hrow]

end Token

/-! ## Accessors -/

/-- The accessor serves a row that is as its kind says. -/
structure Accessor.IsMarked (a : Accessor) : Prop where
  row_lt : a.owner.row < 0x1000000
  kind : a.owner.table = TableId.property ∧ a.kind = .property ∨
    a.owner.table = TableId.event ∧ a.kind = .event

namespace BinaryModule

theorem isMarked_accessor? {i : Image} {row method : Nat} {a : Accessor}
    (h : accessor? i row = some (some (method, a))) : a.IsMarked := by
  unfold accessor? at h
  obtain ⟨cells, -, h⟩ := Option.bind_eq_some_iff.mp h
  split at h
  · next _ association =>
      have hrow := Token.row_ofNat_lt association
      dsimp only at h
      split_ifs at h with hproperty hevent
      · obtain ⟨-, rfl⟩ := Prod.mk.inj (Option.some.inj (Option.some.inj h))
        exact ⟨hrow, .inl ⟨hproperty, rfl⟩⟩
      · obtain ⟨-, rfl⟩ := Prod.mk.inj (Option.some.inj (Option.some.inj h))
        exact ⟨hrow, .inr ⟨hevent, rfl⟩⟩
      · cases Option.some.inj h
  · cases h

/-- All accessors of the module serve what they are said to. -/
def Marked (m : BinaryModule) : Prop :=
  ∀ entry ∈ m.accessors, entry.2.IsMarked

theorem marked_ofBytes? {path : String} {data : Array UInt8} {m : BinaryModule}
    (h : ofBytes? path data = some m) : m.Marked := by
  unfold ofBytes? at h
  simp only [Option.bind_eq_bind, Option.bind_eq_some_iff] at h
  obtain ⟨i, -, name, -, references, -, nested, -, types, -, properties, -, events, -, accessors, haccessors,
    interfaces, -, attributes, -, hm⟩ := h
  obtain rfl := Option.some.inj hm
  rintro ⟨method, a⟩ ha
  obtain ⟨found, hfound, rfl⟩ := List.mem_filterMap.mp ha
  obtain ⟨row, -, hrow⟩ := Option.exists_of_mapM haccessors hfound
  exact isMarked_accessor? hrow

theorem marked_ofFile {t : FileTree} {path : String} {withLocations : Bool} {m : BinaryModule}
    (h : ofFile t path withLocations = .ok m) : m.Marked := by
  unfold ofFile at h
  split at h
  · cases h
  · split at h
    · cases h
    · next opened hbytes =>
        obtain rfl := Except.ok.inj h
        have hopened : opened.Marked := marked_ofBytes? hbytes
        exact hopened

theorem Marked.accessorOf? {m : BinaryModule} (h : m.Marked) {method : Nat} {a : Accessor}
    (ha : m.accessorOf? method = some a) : a.IsMarked := by
  unfold BinaryModule.accessorOf? lastOf? at ha
  obtain ⟨before, after, hsplit, -⟩ := List.lookup_eq_some_iff.mp ha
  have hmem : (method, a) ∈ m.accessors.reverse := by
    rw [hsplit]
    exact List.mem_append_right before List.mem_cons_self
  exact h _ (List.mem_reverse.mp hmem)

/-! ## Symbols by token -/

theorem orMetadata_eq_ok {α : Type} {o : Option α} {a : α} : orMetadata o = .ok a ↔ o = some a := by
  cases o <;> simp [orMetadata]

theorem ownerOr_eq_ok {owners : Array Nat} {row token owner : Nat} :
    ownerOr owners row token = .ok owner ↔ ownerOf? owners row = some owner := by
  unfold ownerOr
  cases ownerOf? owners row <;> simp

theorem mappedOr_eq_ok {ranges : List (Nat × RowRange)} {row token owner : Nat} :
    mappedOr ranges row token = .ok owner ↔ mappedOwner? ranges row = some owner := by
  unfold mappedOr
  cases mappedOwner? ranges row <;> simp

variable {m : BinaryModule} {row : Nat} {s : MemberSymbol}

theorem memberSymbol_method (h : row < 0x1000000) :
    m.memberSymbol (methodToken row) = m.methodSymbol row := by
  rw [memberSymbol, methodToken, Token.ofNat_toNat h]
  rfl

theorem memberSymbol_field (h : row < 0x1000000) :
    m.memberSymbol (fieldToken row) = m.fieldSymbol row := by
  rw [memberSymbol, fieldToken, Token.ofNat_toNat h]
  rfl

theorem memberSymbol_property {t : Token} (h : t.row < 0x1000000) (ht : t.table = TableId.property) :
    m.memberSymbol t.toNat = m.propertySymbol t.row := by
  rw [memberSymbol, Token.ofNat_toNat h, ht]
  rfl

theorem memberSymbol_event {t : Token} (h : t.row < 0x1000000) (ht : t.table = TableId.event) :
    m.memberSymbol t.toNat = m.eventSymbol t.row := by
  rw [memberSymbol, Token.ofNat_toNat h, ht]
  rfl

/-! ## Agreement -/

/-- The named type is the row of the module. -/
structure IsType (m : BinaryModule) (t : NamedType) (row : Nat) : Prop where
  owner : t.owner = some m.name
  handle : t.handle = some row
  chain : m.chain? row = some (t.ns, t.nesting)

/-- The reference and the symbol make the same name in the same type. -/
structure Agree (m : BinaryModule) (target : MemberRef) (s : MemberSymbol) : Prop where
  handle : target.handle = some s.id
  segment : target.segment = s.segment
  kind : target.kind = s.kind
  isConstructor : target.isConstructor = s.isConstructor
  isImplicitCtor : target.isImplicitCtor = s.isImplicitCtor
  declaring : m.IsType target.declaring s.declaring

/-- Where the reference has a definition that can be read, it agrees with that. -/
def Denotes (m : BinaryModule) (target : MemberRef) : Prop :=
  ∀ handle s, target.handle = some handle → m.memberSymbol handle = .ok s → m.Agree target s

variable {target : MemberRef}

theorem Denotes.of_foreign (h : target.handle = none) : m.Denotes target := by
  intro handle s hhandle
  rw [h] at hhandle
  cases hhandle

/-- Type arguments do not count. -/
theorem Denotes.withArgs (h : m.Denotes target) (args typeArgs : List TypeRef) :
    m.Denotes { target with args, declaring := { target.declaring with args := typeArgs } } := by
  intro handle s hhandle hs
  have hagree := h handle s hhandle hs
  exact ⟨hagree.handle, hagree.segment, hagree.kind, hagree.isConstructor, hagree.isImplicitCtor,
    hagree.declaring.owner, hagree.declaring.handle, hagree.declaring.chain⟩

theorem IsType.of_localType? {t : NamedType} (h : m.localType? row = some t) : m.IsType t row := by
  obtain ⟨⟨ns, nesting⟩, hchain, ht⟩ := Option.bind_eq_some_iff.mp h
  obtain rfl := Option.some.inj ht
  exact ⟨rfl, rfl, hchain⟩

/-- A field, property or event as its symbol says. -/
structure IsPlain (s : MemberSymbol) (id owner : Nat) (name : String) (kind : MemberKind) : Prop where
  id : s.id = id
  declaring : s.declaring = owner
  name : s.name = name
  kind : s.kind = kind
  isConstructor : s.isConstructor = false
  isImplicitCtor : s.isImplicitCtor = false

theorem IsPlain.agree {id owner : Nat} {name : String} {kind : MemberKind} {type : NamedType}
    (h : IsPlain s id owner name kind) (hkind : kind ≠ .method) (htype : m.localType? owner = some type) :
    m.Agree { MemberRef.plain type name kind with handle := some id } s := by
  obtain ⟨rfl, rfl, rfl, rfl, hctor, himplicit⟩ := h
  refine ⟨rfl, ?_, rfl, hctor.symm, himplicit.symm, .of_localType? htype⟩
  -- the parameters of an indexer do not show
  have hnot : (s.kind == MemberKind.method) = false := beq_false_of_ne hkind
  change Name.memberSegment s.name [] (s.kind == .method) = s.segment
  rw [MemberSymbol.segment, hnot]
  rfl

theorem isPlain_fieldSymbol {owner : Nat} {field : FieldRow} {name : String}
    (howner : ownerOf? m.fieldOwners row = some owner) (hfield : m.image.field? row = some field)
    (hname : m.image.text? field.name = some name) (h : m.fieldSymbol row = .ok s) :
    IsPlain s (fieldToken row) owner name .field := by
  unfold fieldSymbol at h
  obtain ⟨owner', howner', h⟩ := Except.exists_of_bind_eq_ok h
  obtain rfl := Option.some.inj (howner.symm.trans (ownerOr_eq_ok.mp howner'))
  obtain ⟨field', hfield', h⟩ := Except.exists_of_bind_eq_ok h
  obtain rfl := Option.some.inj (hfield.symm.trans (orMetadata_eq_ok.mp hfield'))
  obtain ⟨name', hname', h⟩ := Except.exists_of_bind_eq_ok h
  obtain rfl := Option.some.inj (hname.symm.trans (orMetadata_eq_ok.mp hname'))
  obtain ⟨type, -, h⟩ := Except.exists_of_bind_eq_ok h
  obtain rfl := Except.ok.inj h
  exact ⟨rfl, rfl, rfl, rfl, rfl, rfl⟩

theorem isPlain_propertySymbol {owner : Nat} {property : PropertyRow} {name : String}
    (howner : mappedOwner? m.properties row = some owner)
    (hproperty : m.image.property? row = some property)
    (hname : m.image.text? property.name = some name) (h : m.propertySymbol row = .ok s) :
    IsPlain s (propertyToken row) owner name .property := by
  unfold propertySymbol at h
  obtain ⟨owner', howner', h⟩ := Except.exists_of_bind_eq_ok h
  obtain rfl := Option.some.inj (howner.symm.trans (mappedOr_eq_ok.mp howner'))
  obtain ⟨property', hproperty', h⟩ := Except.exists_of_bind_eq_ok h
  obtain rfl := Option.some.inj (hproperty.symm.trans (orMetadata_eq_ok.mp hproperty'))
  obtain ⟨name', hname', h⟩ := Except.exists_of_bind_eq_ok h
  obtain rfl := Option.some.inj (hname.symm.trans (orMetadata_eq_ok.mp hname'))
  obtain ⟨⟨type, params⟩, -, h⟩ := Except.exists_of_bind_eq_ok h
  obtain rfl := Except.ok.inj h
  exact ⟨rfl, rfl, rfl, rfl, rfl, rfl⟩

theorem isPlain_eventSymbol {owner : Nat} {event : EventRow} {name : String}
    (howner : mappedOwner? m.events row = some owner) (hevent : m.image.event? row = some event)
    (hname : m.image.text? event.name = some name) (h : m.eventSymbol row = .ok s) :
    IsPlain s (eventToken row) owner name .event := by
  unfold eventSymbol at h
  obtain ⟨owner', howner', h⟩ := Except.exists_of_bind_eq_ok h
  obtain rfl := Option.some.inj (howner.symm.trans (mappedOr_eq_ok.mp howner'))
  obtain ⟨event', hevent', h⟩ := Except.exists_of_bind_eq_ok h
  obtain rfl := Option.some.inj (hevent.symm.trans (orMetadata_eq_ok.mp hevent'))
  obtain ⟨name', hname', h⟩ := Except.exists_of_bind_eq_ok h
  obtain rfl := Option.some.inj (hname.symm.trans (orMetadata_eq_ok.mp hname'))
  obtain rfl := Except.ok.inj h
  exact ⟨rfl, rfl, rfl, rfl, rfl, rfl⟩

/-! ## References by kind -/

theorem denotes_fieldTarget? (hrow : row < 0x1000000) (h : m.fieldTarget? row = some target) :
    m.Denotes target := by
  unfold fieldTarget? at h
  obtain ⟨owner, howner, h⟩ := Option.bind_eq_some_iff.mp h
  obtain ⟨field, hfield, h⟩ := Option.bind_eq_some_iff.mp h
  obtain ⟨name, hname, h⟩ := Option.bind_eq_some_iff.mp h
  obtain ⟨type, htype, h⟩ := Option.bind_eq_some_iff.mp h
  obtain rfl := Option.some.inj h
  intro handle s hhandle hs
  obtain rfl := Option.some.inj hhandle
  rw [memberSymbol_field hrow] at hs
  exact (isPlain_fieldSymbol howner hfield hname hs).agree (by decide) htype

/-- An accessor refers to its property or event, whose own row gives the name. -/
theorem denotes_accessorTarget? {a : Accessor} (ha : a.IsMarked) (h : m.accessorTarget? a = some target) :
    m.Denotes target := by
  obtain ⟨⟨table, row⟩, kind⟩ := a
  obtain ⟨hrow, ⟨rfl, rfl⟩ | ⟨rfl, rfl⟩⟩ := ha
  · rw [accessorTarget?, if_pos rfl] at h
    obtain ⟨owner, howner, h⟩ := Option.bind_eq_some_iff.mp h
    obtain ⟨property, hproperty, h⟩ := Option.bind_eq_some_iff.mp h
    obtain ⟨_, hpair, h⟩ := Option.bind_eq_some_iff.mp h
    obtain rfl := Option.some.inj hpair
    obtain ⟨name, hname, h⟩ := Option.bind_eq_some_iff.mp h
    obtain ⟨type, htype, h⟩ := Option.bind_eq_some_iff.mp h
    obtain rfl := Option.some.inj h
    intro handle s hhandle hs
    obtain rfl := Option.some.inj hhandle
    rw [memberSymbol_property hrow rfl] at hs
    exact (isPlain_propertySymbol howner hproperty hname hs).agree (by decide) htype
  · have hevent : TableId.event ≠ TableId.property := by decide
    rw [accessorTarget?, if_neg hevent, if_pos rfl] at h
    obtain ⟨owner, howner, h⟩ := Option.bind_eq_some_iff.mp h
    obtain ⟨event, hevent, h⟩ := Option.bind_eq_some_iff.mp h
    obtain ⟨_, hpair, h⟩ := Option.bind_eq_some_iff.mp h
    obtain rfl := Option.some.inj hpair
    obtain ⟨name, hname, h⟩ := Option.bind_eq_some_iff.mp h
    obtain ⟨type, htype, h⟩ := Option.bind_eq_some_iff.mp h
    obtain rfl := Option.some.inj h
    intro handle s hhandle hs
    obtain rfl := Option.some.inj hhandle
    rw [memberSymbol_event hrow rfl] at hs
    exact (isPlain_eventSymbol howner hevent hname hs).agree (by decide) htype

theorem denotes_methodTarget? (hmarked : m.Marked) (hrow : row < 0x1000000)
    (h : m.methodTarget? row = some target) : m.Denotes target := by
  unfold methodTarget? at h
  split at h
  · next a ha => exact denotes_accessorTarget? (hmarked.accessorOf? ha) h
  · obtain ⟨owner, howner, h⟩ := Option.bind_eq_some_iff.mp h
    obtain ⟨method, hmethod, h⟩ := Option.bind_eq_some_iff.mp h
    obtain ⟨name, hname, h⟩ := Option.bind_eq_some_iff.mp h
    obtain ⟨types, htypes, h⟩ := Option.bind_eq_some_iff.mp h
    obtain ⟨type, htype, h⟩ := Option.bind_eq_some_iff.mp h
    obtain rfl := Option.some.inj h
    intro handle s hhandle hs
    obtain rfl := Option.some.inj hhandle
    rw [memberSymbol_method hrow] at hs
    -- the definition is read from the same rows
    unfold methodSymbol at hs
    obtain ⟨owner', howner', hs⟩ := Except.exists_of_bind_eq_ok hs
    obtain rfl := Option.some.inj (howner.symm.trans (ownerOr_eq_ok.mp howner'))
    obtain ⟨method', hmethod', hs⟩ := Except.exists_of_bind_eq_ok hs
    obtain rfl := Option.some.inj (hmethod.symm.trans (orMetadata_eq_ok.mp hmethod'))
    obtain ⟨name', hname', hs⟩ := Except.exists_of_bind_eq_ok hs
    obtain rfl := Option.some.inj (hname.symm.trans (orMetadata_eq_ok.mp hname'))
    obtain ⟨types', htypes', hs⟩ := Except.exists_of_bind_eq_ok hs
    obtain rfl := Option.some.inj (htypes.symm.trans (orMetadata_eq_ok.mp htypes'))
    obtain rfl := Except.ok.inj hs
    exact ⟨rfl, rfl, rfl, rfl, rfl, .of_localType? htype⟩

/-! ## References by name -/

theorem handle_classifyExternal (index : ExportIndex) (target : MemberRef) :
    (classifyExternal index target).handle = target.handle := by
  unfold classifyExternal
  dsimp only
  split
  · rfl
  · split
    · rfl
    · split <;> rfl

theorem denotes_mentionedTarget? (hmarked : m.Marked) {index : ExportIndex} {declaring : NamedType}
    {name : String} {signature : Bytes}
    (h : m.mentionedTarget? index declaring name signature = some target) : m.Denotes target := by
  unfold mentionedTarget? at h
  split at h
  · split at h
    · exact denotes_fieldTarget? (Token.row_ofNat_lt _) h
    · obtain rfl := Option.some.inj h
      exact .of_foreign rfl
  · obtain ⟨types, -, h⟩ := Option.bind_eq_some_iff.mp h
    dsimp only at h
    split at h
    · obtain ⟨found, hfound, h⟩ := Option.bind_eq_some_iff.mp h
      have hdenotes : m.Denotes found := denotes_methodTarget? hmarked (Token.row_ofNat_lt _) hfound
      split at h
      · obtain rfl := Option.some.inj h
        exact hdenotes.withArgs found.args declaring.args
      · obtain rfl := Option.some.inj h
        exact hdenotes
    · obtain rfl := Option.some.inj h
      exact .of_foreign (handle_classifyExternal index _)

theorem row_owner_lt {i : Image} {r : MemberRefRow} (h : i.memberRef? row = some r) :
    r.owner.row < 0x1000000 := by
  obtain ⟨cells, -, h⟩ := Option.bind_eq_some_iff.mp h
  split at h
  · next owner _ _ =>
      obtain rfl := Option.some.inj h
      exact Token.row_ofNat_lt owner
  · cases h

theorem denotes_memberRefTarget? (hmarked : m.Marked) {index : ExportIndex}
    (h : m.memberRefTarget? index row = some target) : m.Denotes target := by
  unfold memberRefTarget? at h
  obtain ⟨r, hr, h⟩ := Option.bind_eq_some_iff.mp h
  split at h
  · exact denotes_methodTarget? hmarked (row_owner_lt hr) h
  · split at h
    · split at h
      · obtain ⟨name, -, h⟩ := Option.bind_eq_some_iff.mp h
        obtain ⟨signature, -, h⟩ := Option.bind_eq_some_iff.mp h
        exact denotes_mentionedTarget? hmarked h
      · cases h
    · cases h

theorem denotes_methodSpecTarget? (hmarked : m.Marked) {index : ExportIndex}
    (h : m.methodSpecTarget? index row = some target) : m.Denotes target := by
  unfold methodSpecTarget? at h
  obtain ⟨cells, -, h⟩ := Option.bind_eq_some_iff.mp h
  split at h
  · next method arguments =>
      have hargs : ∀ found, m.Denotes found → (do
          let args ← SigType.methodArguments? m.naming (← m.image.blob? arguments)
          return { found with args : MemberRef }) = some target → m.Denotes target := by
        intro found hfound h
        obtain ⟨blob, -, h⟩ := Option.bind_eq_some_iff.mp h
        obtain ⟨args, -, h⟩ := Option.bind_eq_some_iff.mp h
        obtain rfl := Option.some.inj h
        exact hfound.withArgs args found.declaring.args
      dsimp only at h
      split at h
      · obtain ⟨found, hfound, h⟩ := Option.bind_eq_some_iff.mp h
        exact hargs found (denotes_methodTarget? hmarked (Token.row_ofNat_lt method) hfound) h
      · split at h
        · obtain ⟨found, hfound, h⟩ := Option.bind_eq_some_iff.mp h
          exact hargs found (denotes_memberRefTarget? hmarked hfound) h
        · cases h
  · cases h

/-- A reference to a member of its own module and the definition that it leads to make the same name: the
segment, the kind and the type around them are those of the definition. -/
theorem memberTarget_agree {t : FileTree} {path : String} {withLocations : Bool} {m : BinaryModule}
    (hopened : BinaryModule.ofFile t path withLocations = .ok m) (index : ExportIndex) (token : Nat)
    {target : MemberRef} (h : m.memberTarget? index (.ofNat token) = some target) {handle : Nat}
    (hhandle : target.handle = some handle) {s : MemberSymbol} (hs : m.memberSymbol handle = .ok s) :
    m.Agree target s ∧ ∀ type, m.typeSymbol s.declaring = .ok type →
      target.declaring.ns = type.ns ∧ target.declaring.nesting = type.nesting := by
  have hmarked := marked_ofFile hopened
  have hrow := Token.row_ofNat_lt token
  have hdenotes : m.Denotes target := by
    unfold memberTarget? at h
    split_ifs at h
    · exact denotes_methodTarget? hmarked hrow h
    · exact denotes_fieldTarget? hrow h
    · exact denotes_memberRefTarget? hmarked h
    · exact denotes_methodSpecTarget? hmarked h
  have hagree := hdenotes handle s hhandle hs
  refine ⟨hagree, fun type htype => ?_⟩
  unfold typeSymbol at htype
  obtain ⟨⟨ns, nesting⟩, hchain, htype⟩ := Except.exists_of_bind_eq_ok htype
  rw [orMetadata_eq_ok, hagree.declaring.chain] at hchain
  obtain ⟨rfl, rfl⟩ := Prod.mk.inj (Option.some.inj hchain)
  obtain ⟨_, -, htype⟩ := Except.exists_of_bind_eq_ok htype
  obtain rfl := Except.ok.inj htype
  exact ⟨rfl, rfl⟩

/-!
A module with a generic type that has an indexer, and a reference to the indexer's accessor on an instance
of the type.
-/

namespace Indexer

open Plain

def strings : Bytes :=
  0 :: ascii "Box`1" ++ 0 :: ascii "N" ++ 0 :: ascii "get_Item" ++ 0 :: ascii "Item" ++ [0]

/-- The signatures of the accessor and of the indexer, and the instance. -/
def blobs : Bytes :=
  [0] ++ [5, 0x20, 1, 0x13, 0, 0x08] ++ [5, 0x28, 1, 0x13, 0, 0x08] ++ [5, 0x15, 0x12, 4, 1, 0x08]

/-- One row in each of the tables 0x02, 0x06, 0x0A, 0x15, 0x17, 0x18 and 0x1B. -/
def tables : Bytes :=
  let head := zeros 8 ++ little 8 0x9A00444 ++ zeros 8
  let counts := (List.replicate 7 (little 4 1)).flatten
  let type := zeros 4 ++ little 2 1 ++ little 2 7 ++ zeros 2 ++ little 2 1 ++ little 2 1
  let accessor := zeros 8 ++ little 2 9 ++ little 2 1 ++ little 2 1
  let mention := little 2 0x0C ++ little 2 9 ++ little 2 1
  let map := little 2 1 ++ little 2 1
  let indexer := zeros 2 ++ little 2 18 ++ little 2 7
  let semantics := zeros 2 ++ little 2 1 ++ little 2 3
  let instance_ := little 2 13
  head ++ counts ++ type ++ accessor ++ mention ++ map ++ indexer ++ semantics ++ instance_

def metadata : Bytes :=
  rootMark ++ zeros 8 ++ little 4 4 ++ zeros 6 ++ little 2 3 ++ streamHead "#~" 72 104 ++
    streamHead "#Strings" 176 strings.length ++ streamHead "#Blob" 199 blobs.length ++
    tables ++ strings ++ blobs

/-- The headers end at 64, 88, 312, 352 and 424. -/
def image : Array UInt8 :=
  let dosHeader := ascii "MZ" ++ zeros 58 ++ little 4 64
  let fileHeader := ascii "PE" ++ zeros 4 ++ little 2 1 ++ zeros 12 ++ little 2 224 ++ zeros 2
  let optionalHeader := little 2 0x10B ++ zeros 90 ++ little 4 16 ++ zeros 112 ++ little 4 352 ++ zeros 12
  let sectionHeader := zeros 8 ++ little 4 1024 ++ little 4 352 ++ zeros 4 ++ little 4 352 ++ zeros 16
  let managedHeader := zeros 8 ++ little 4 424 ++ little 4 metadata.length ++ zeros 56
  (dosHeader ++ fileHeader ++ optionalHeader ++ sectionHeader ++ managedHeader ++ metadata).toArray

def tree : FileTree :=
  ⟨[(["Box.dll"], ⟨image, 0⟩)], [], []⟩

end Indexer

open Indexer in
/-- The accessor leads to the indexer, whose parameter is only known where it is defined. -/
theorem memberTarget_agree_indexer :
    ∃ m target s, BinaryModule.ofFile tree "/Box.dll" false = .ok m ∧
      m.memberTarget? .empty (.ofNat 0x0A000001) = some target ∧ target.handle = some 0x17000001 ∧
      m.memberSymbol 0x17000001 = .ok s ∧ s.segment = "Item" ∧ s.signature = ["Int32"] ∧
      m.Agree target s := by
  have hread : ((BinaryModule.ofFile tree "/Box.dll" false).toOption.map fun m =>
      ((m.memberTarget? .empty (.ofNat 0x0A000001)).map (·.handle),
        (m.memberSymbol 0x17000001).toOption.map fun s => (s.segment, s.signature))) =
      some (some (some 0x17000001), some ("Item", ["Int32"])) := by decide +kernel
  obtain ⟨m, hm, hfacts⟩ := Option.map_eq_some_iff.mp hread
  obtain ⟨htarget, hsymbol⟩ := Prod.mk.inj hfacts
  obtain ⟨target, htarget, hhandle⟩ := Option.map_eq_some_iff.mp htarget
  obtain ⟨s, hs, hshown⟩ := Option.map_eq_some_iff.mp hsymbol
  obtain ⟨hsegment, hsignature⟩ := Prod.mk.inj hshown
  have hopened := Except.toOption_eq_some hm
  have hs := Except.toOption_eq_some hs
  refine ⟨m, target, s, hopened, htarget, hhandle, hs, hsegment, hsignature, ?_⟩
  exact (memberTarget_agree hopened .empty 0x0A000001 htarget hhandle hs).1

end BinaryModule

end CodeGraph.Metadata
