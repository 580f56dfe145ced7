import CodeGraph.CSharp.Module
import CodeGraph.Metadata.Signature
import CodeGraph.Proofs.CSharp.Reading
import CodeGraph.Proofs.Name.TypeNames

namespace CodeGraph.CSharp.WrittenType

open CodeGraph.Text CodeGraph.Metadata

/-!
# Written types and their signatures

A parameter's type is shown from its text, or from the signature that a compiler writes for it. The two
agree on types of the core library, names, arrays, pointers, references, tuples and type arguments. They
differ where the signature has a type that the text does not spell: `?` behind a value type becomes a
type of its own.
-/

/-! ## What a compiler writes -/

/-- Followed at a depth, the token means a type of this raw name. -/
def Means (names : SigType.Naming) (depth : Nat) (token : Metadata.Token) (raw : String) : Prop :=
  ∃ type : NamedType, names.resolve token depth = .named type ∧ type.nesting.getLast? = some raw ∧
    type.args = []

/-- The types of keywords that signatures have an element type for. -/
def coreNames : List String :=
  coreElements.map (·.2)

section

variable (names : SigType.Naming)

mutual

/-- The signature of a type, at some depth of a signature. -/
inductive Compiles : Nat → WrittenType → SigType → Prop
  | core {depth : Nat} {name : String} (hdepth : depth ≤ SigType.maxDepth) (hname : name ∈ coreNames) :
      Compiles depth (.keyword name) (.core name)
  | decimal {depth : Nat} {token : Metadata.Token} (hdepth : depth ≤ SigType.maxDepth)
      (htoken : Means names (depth + 1) token "Decimal") :
      Compiles depth (.keyword "Decimal") (.token token)
  | named {depth : Nat} {outer : List (Segment WrittenType)} {name : String} {token : Metadata.Token}
      (hdepth : depth ≤ SigType.maxDepth) (houter : ∀ s ∈ outer, s.args = [])
      (htoken : Means names (depth + 1) token name) :
      Compiles depth (.named (outer ++ [⟨name, []⟩])) (.token token)
  | generic {depth : Nat} {outer : List (Segment WrittenType)} {name : String}
      {args : List WrittenType} {sigs : List SigType} {token : Metadata.Token}
      (hdepth : depth < SigType.maxDepth) (houter : ∀ s ∈ outer, s.args = [])
      (hname : Name.tick ∉ name.toList) (hargs : args ≠ [])
      (htoken : Means names (depth + 2) token (Segment.raw ⟨name, args⟩))
      (h : CompileAll (depth + 1) args sigs) :
      Compiles depth (.named (outer ++ [⟨name, args⟩])) (.instance (.token token) sigs)
  | array {depth : Nat} {t : WrittenType} {s : SigType} (hdepth : depth ≤ SigType.maxDepth)
      (h : Compiles (depth + 1) t s) : Compiles depth (.array t) (.array s)
  | pointer {depth : Nat} {t : WrittenType} {s : SigType} (hdepth : depth ≤ SigType.maxDepth)
      (h : Compiles (depth + 1) t s) : Compiles depth (.pointer t) (.pointer s)
  | tuple {depth : Nat} {elements : List WrittenType} {sigs : List SigType} {token : Metadata.Token}
      (hdepth : depth < SigType.maxDepth) (hcount : 2 ≤ elements.length ∧ elements.length ≤ 7)
      (htoken : Means names (depth + 2) token (Segment.raw ⟨"ValueTuple", elements⟩))
      (h : CompileAll (depth + 1) elements sigs) :
      Compiles depth (.tuple elements) (.instance (.token token) sigs)

inductive CompileAll : Nat → List WrittenType → List SigType → Prop
  | nil {depth : Nat} : CompileAll depth [] []
  | cons {depth : Nat} {t : WrittenType} {s : SigType} {ts : List WrittenType} {ss : List SigType}
      (h : Compiles depth t s) (hmore : CompileAll depth ts ss) : CompileAll depth (t :: ts) (s :: ss)

end

/-- Only a parameter as a whole is passed by reference. -/
inductive CompilesParameter : WrittenType → SigType → Prop
  | value {t : WrittenType} {s : SigType} (h : Compiles names 0 t s) : CompilesParameter t s
  | byRef {t : WrittenType} {s : SigType} (h : Compiles names 0 t s) :
      CompilesParameter (.byRef t) (.byRef s)

end

/-- The types that `?` only annotates. -/
def IsReference (classes : List (Segment WrittenType) → Prop) : WrittenType → Prop
  | .array _ => True
  | .keyword name => name = "String" ∨ name = "Object"
  | .named segments => classes segments
  | _ => False

/-- The text of a parameter's type and the signature that is written for it. -/
def Declares (names : SigType.Naming) (classes : List (Segment WrittenType) → Prop) (text : String)
    (s : SigType) : Prop :=
  ∃ t ts, CompilesParameter names t s ∧ Spells (IsReference classes) t ts ∧ Lexes ts text.toList

/-! ## How it is shown -/

theorem canonicalize_core {name : String} (h : name ∈ "Decimal" :: coreNames) :
    Name.canonicalize name = name := by
  have hall : ∀ n ∈ "Decimal" :: coreNames, Name.canonicalize n = n := by decide +kernel
  exact hall name h

theorem displayNamed_of_getLast? {type : NamedType} {raw : String} (h : type.nesting.getLast? = some raw)
    (hargs : type.args = []) : TypeRef.displayNamed type = Name.canonicalize raw := by
  obtain ⟨owner, ns, nesting, args, handle⟩ := type
  obtain rfl : args = [] := hargs
  simp only [TypeRef.displayNamed, TypeRef.displayAll]
  rw [h]
  rfl

theorem displayNamed_of_args {type : NamedType} {name suffix : String} {args : List TypeRef}
    (h : type.nesting.getLast? = some (name ++ "\x60" ++ suffix)) (hname : Name.tick ∉ name.toList)
    (hargs : args ≠ []) :
    TypeRef.displayNamed { type with args } =
      name ++ "<" ++ joinWith "," (TypeRef.displayAll args) ++ ">" := by
  obtain ⟨first, more, rfl⟩ := List.exists_cons_of_ne_nil hargs
  simp only [TypeRef.displayNamed, TypeRef.displayAll, h, Option.getD_some, Name.before_tick hname]

theorem displaySegments_append (outer : List (Segment WrittenType)) (s : Segment WrittenType) :
    displaySegments (outer ++ [s]) = displaySegments [s] := by
  induction outer with
  | nil => rfl
  | cons first outer ih =>
      cases outer with
      | nil => rfl
      | cons second outer => exact ih

theorem displaySegments_args {name : String} {args : List WrittenType} (hargs : args ≠ []) :
    displaySegments [⟨name, args⟩] = name ++ "<" ++ joinWith "," (displayAll args) ++ ">" := by
  obtain ⟨first, more, rfl⟩ := List.exists_cons_of_ne_nil hargs
  simp only [displaySegments, displayAll]

theorem raw_of_ne_nil {name : String} {args : List WrittenType} (hargs : args ≠ []) :
    Segment.raw ⟨name, args⟩ = name ++ "\x60" ++ toString args.length := by
  have hempty : args.isEmpty = false := by simpa using hargs
  simp [Segment.raw, hempty]

/-! ## Agreement -/

section

variable {names : SigType.Naming}

/-- A type with arguments is shown by its name and what is shown for the arguments. -/
theorem toTypeRef_instance {depth : Nat} {name : String} {args : List WrittenType} {sigs : List SigType}
    {refs : List TypeRef} {token : Metadata.Token} (hdepth : depth < SigType.maxDepth)
    (hname : Name.tick ∉ name.toList) (hargs : args ≠ [])
    (htoken : Means names (depth + 2) token (Segment.raw ⟨name, args⟩))
    (hrefs : SigType.allToTypeRef names (depth + 1) sigs = some refs)
    (hshown : TypeRef.displayAll refs = displayAll args) :
    ∃ r, SigType.toTypeRef names depth (.instance (.token token) sigs) = some r ∧
      r.display = name ++ "<" ++ joinWith "," (displayAll args) ++ ">" := by
  obtain ⟨type, hresolve, hlast, -⟩ := htoken
  rw [raw_of_ne_nil hargs] at hlast
  have hne : refs ≠ [] := by
    rintro rfl
    obtain ⟨first, more, rfl⟩ := List.exists_cons_of_ne_nil hargs
    simp [TypeRef.displayAll, displayAll] at hshown
  refine ⟨.named { type with args := refs }, ?_, ?_⟩
  · have hinner : SigType.toTypeRef names (depth + 1) (.token token) = some (.named type) := by
      rw [SigType.toTypeRef, if_neg (by omega), hresolve]
    rw [SigType.toTypeRef, if_neg (by omega), hinner, hrefs]
  · rw [TypeRef.display, displayNamed_of_args hlast hname hne, hshown]

mutual

theorem Compiles.display_eq {depth : Nat} {t : WrittenType} {s : SigType}
    (h : Compiles names depth t s) :
    ∃ r, SigType.toTypeRef names depth s = some r ∧ r.display = t.display := by
  cases h with
  | @core _ name hdepth hname =>
      have hlast : [name].getLast? = some name := rfl
      refine ⟨_, by rw [SigType.toTypeRef, if_neg (by omega)], ?_⟩
      rw [TypeRef.display, Named.simple, displayNamed_of_getLast? hlast rfl, display,
        canonicalize_core (List.mem_cons_of_mem _ hname)]
  | decimal hdepth htoken =>
      obtain ⟨type, hresolve, hlast, hargs⟩ := htoken
      refine ⟨.named type, by rw [SigType.toTypeRef, if_neg (by omega), hresolve], ?_⟩
      rw [TypeRef.display, displayNamed_of_getLast? hlast hargs, display,
        canonicalize_core List.mem_cons_self]
  | named hdepth houter htoken =>
      obtain ⟨type, hresolve, hlast, hargs⟩ := htoken
      refine ⟨.named type, by rw [SigType.toTypeRef, if_neg (by omega), hresolve], ?_⟩
      rw [TypeRef.display, displayNamed_of_getLast? hlast hargs, display, displaySegments_append]
      rfl
  | generic hdepth houter hname hargs htoken h =>
      obtain ⟨refs, hrefs, hshown⟩ := h.display_eq
      obtain ⟨r, hr, hdisplay⟩ := toTypeRef_instance hdepth hname hargs htoken hrefs hshown
      refine ⟨r, hr, ?_⟩
      rw [hdisplay, display, displaySegments_append, displaySegments_args hargs]
  | array hdepth h =>
      obtain ⟨r, hr, hdisplay⟩ := h.display_eq
      refine ⟨.array r, by rw [SigType.toTypeRef, if_neg (by omega), hr]; rfl, ?_⟩
      rw [TypeRef.display, hdisplay, display]
  | pointer hdepth h =>
      obtain ⟨r, hr, hdisplay⟩ := h.display_eq
      refine ⟨.pointer r, by rw [SigType.toTypeRef, if_neg (by omega), hr]; rfl, ?_⟩
      rw [TypeRef.display, hdisplay, display]
  | @tuple _ elements _ _ hdepth hcount htoken h =>
      obtain ⟨refs, hrefs, hshown⟩ := h.display_eq
      have hne : elements ≠ [] := List.ne_nil_of_length_pos (by omega)
      obtain ⟨r, hr, hdisplay⟩ := toTypeRef_instance hdepth (by decide) hne htoken hrefs hshown
      refine ⟨r, hr, ?_⟩
      rw [hdisplay, display]
      rfl

theorem CompileAll.display_eq {depth : Nat} {ts : List WrittenType} {ss : List SigType}
    (h : CompileAll names depth ts ss) :
    ∃ rs, SigType.allToTypeRef names depth ss = some rs ∧ TypeRef.displayAll rs = displayAll ts := by
  cases h with
  | nil => exact ⟨[], rfl, rfl⟩
  | cons h hmore =>
      obtain ⟨r, hr, hdisplay⟩ := h.display_eq
      obtain ⟨rs, hrs, hshown⟩ := hmore.display_eq
      refine ⟨r :: rs, by rw [SigType.allToTypeRef, hr, hrs], ?_⟩
      rw [TypeRef.displayAll, displayAll, hdisplay, hshown]

end

theorem CompilesParameter.display_eq {t : WrittenType} {s : SigType} (h : CompilesParameter names t s) :
    ∃ r, SigType.parameterType names s = some r ∧ r.display = t.display := by
  cases h with
  | value h =>
      obtain ⟨r, hr, hdisplay⟩ := h.display_eq
      refine ⟨r, ?_, hdisplay⟩
      cases h <;> exact hr
  | byRef h =>
      obtain ⟨r, hr, hdisplay⟩ := h.display_eq
      refine ⟨.byRef r, by rw [SigType.parameterType, hr]; rfl, ?_⟩
      rw [TypeRef.display, hdisplay, display]

/-- A parameter is shown alike from its signature and from its text. -/
theorem Declares.display_eq {classes : List (Segment WrittenType) → Prop} {text : String} {s : SigType}
    (h : Declares names classes text s) :
    ∃ r, SigType.parameterType names s = some r ∧ r.display = displayText text := by
  obtain ⟨t, ts, hcompiles, hspells, hlex⟩ := h
  obtain ⟨r, hr, hdisplay⟩ := hcompiles.display_eq
  refine ⟨r, hr, ?_⟩
  rw [hdisplay, displayText, parse?_eq_some hspells hlex]

theorem mapM_parameterType {classes : List (Segment WrittenType) → Prop} {texts : List String}
    {sigs : List SigType} (h : List.Forall₂ (Declares names classes) texts sigs) :
    ∃ refs, sigs.mapM (SigType.parameterType names) = some refs ∧
      refs.map TypeRef.display = texts.map displayText := by
  induction h with
  | nil => exact ⟨[], rfl, rfl⟩
  | cons h _ ih =>
      obtain ⟨r, hr, hdisplay⟩ := h.display_eq
      obtain ⟨refs, hrefs, hshown⟩ := ih
      refine ⟨r :: refs, ?_, ?_⟩
      · rw [List.mapM_cons, hr, hrefs]
        rfl
      · rw [List.map_cons, List.map_cons, hdisplay, hshown]

/-- A method whose parameters are compiled as they are written has one signature and one segment, whether
it is read from its text or from its module. -/
theorem member_segment_eq {classes : List (Segment WrittenType) → Prop} {texts : List String}
    {blob rest : Bytes} {method : SigType.Method} {result : TypeRef}
    (hblob : SigType.readMethod blob = some (method, rest))
    (hresult : SigType.parameterType names method.result = some result)
    (hparams : List.Forall₂ (Declares names classes) texts method.parameters) (name : String) :
    ∃ types, SigType.methodTypes? names blob = some types ∧
      types.parameters.map TypeRef.display = texts.map displayText ∧
      Name.memberSegment name (types.parameters.map TypeRef.display) true =
        Name.memberSegment name (texts.map displayText) true := by
  obtain ⟨refs, hrefs, hshown⟩ := mapM_parameterType hparams
  refine ⟨⟨method.hasThis, method.genericCount, result, refs⟩, ?_, hshown, by rw [hshown]⟩
  rw [SigType.methodTypes?, hblob]
  simp [hresult, hrefs]

/-- A mark behind a value type is a type of its own in the signature, and leaves no trace in what is
shown for the text. -/
theorem display_nullable {Annotated : WrittenType → Prop} {t : WrittenType} {ts : List Token}
    {text : String} {s : SigType} {token : Metadata.Token} (hspells : Spells Annotated t ts)
    (hlex : Lexes ts text.toList) (h : Compiles names 1 t s) (htoken : Means names 2 token "Nullable\x601") :
    (SigType.parameterType names (.instance (.token token) [s])).map TypeRef.display =
      some ("Nullable<" ++ displayText text ++ ">") := by
  obtain ⟨r, hr, hdisplay⟩ := h.display_eq
  have hrefs : SigType.allToTypeRef names 1 [s] = some [r] := by
    rw [SigType.allToTypeRef, SigType.allToTypeRef, hr]
  have hshown : TypeRef.displayAll [r] = displayAll [t] := by
    rw [TypeRef.displayAll, TypeRef.displayAll, displayAll, displayAll, hdisplay]
  have hraw : Segment.raw ⟨"Nullable", [t]⟩ = "Nullable\x601" := by
    rw [raw_of_ne_nil (List.cons_ne_nil t []), List.length_singleton]
    decide
  rw [← hraw] at htoken
  obtain ⟨q, hq, hqdisplay⟩ :=
    toTypeRef_instance (by decide) (by decide) (List.cons_ne_nil t []) htoken hrefs hshown
  have htext : displayText text = t.display := by rw [displayText, parse?_eq_some hspells hlex]
  rw [SigType.parameterType, hq, Option.map_some, hqdisplay, htext]
  · rfl
  · intro u hu
    cases hu

end

/-- The tokens of a module that mentions three types. -/
def sampleNaming : SigType.Naming :=
  ⟨fun token _ => .named (.simple none "" (if token.row = 1 then "List\x601" else
    if token.row = 2 then "Node" else "ValueTuple\x602")), "System.Private.CoreLib"⟩

theorem spells_int : Spells (IsReference fun _ => True) (.keyword "Int32") [.word "int"] :=
  .plain (List.nil_subset _) (.keyword (by decide)) .nil

theorem declares_string : Declares sampleNaming (fun _ => True) "string?" (.core "String") := by
  have htokens : tokens "string?".toList = [.word "string", .mark '?'] := by decide +kernel
  have hspells : Spells (IsReference fun _ => True) (.keyword "String") [.word "string", .mark '?'] :=
    .plain (List.nil_subset _) (.keyword (by decide)) (.annotated (Or.inl rfl) .nil)
  exact ⟨_, _, .value (.core (by decide) (by decide)), hspells, htokens ▸ lexes_tokens _⟩

theorem declares_list : Declares sampleNaming (fun _ => True) "List<int>[,]"
    (.array (.instance (.token ⟨1, 1⟩) [.core "Int32"])) := by
  have htokens : tokens "List<int>[,]".toList =
      [.word "List", .mark '<', .word "int", .mark '>', .mark '[', .mark ',', .mark ']'] := by
    decide +kernel
  have hname : SpellsPrimary (IsReference fun _ => True) (.named [⟨"List", [.keyword "Int32"]⟩])
      [.word "List", .mark '<', .word "int", .mark '>'] :=
    .named ⟨by decide, by decide, by decide⟩ (.last (.some (.last spells_int)))
  have hspells : Spells (IsReference fun _ => True) (.array (.named [⟨"List", [.keyword "Int32"]⟩]))
      [.word "List", .mark '<', .word "int", .mark '>', .mark '[', .mark ',', .mark ']'] :=
    .plain (List.nil_subset _) hname (.array 1 .nil)
  have hcompiles : Compiles sampleNaming 1 (.named ([] ++ [⟨"List", [.keyword "Int32"]⟩]))
      (.instance (.token ⟨1, 1⟩) [.core "Int32"]) :=
    .generic (by decide) (by simp) (by decide) (by simp) ⟨_, rfl, rfl, rfl⟩
      (.cons (.core (by decide) (by decide)) .nil)
  exact ⟨_, _, .value (.array (by decide) hcompiles), hspells, htokens ▸ lexes_tokens _⟩

theorem declares_tuple : Declares sampleNaming (fun _ => True) "ref (int a, N.Node b)"
    (.byRef (.instance (.token ⟨1, 3⟩) [.core "Int32", .token ⟨1, 2⟩])) := by
  have htokens : tokens "ref (int a, N.Node b)".toList = ["ref"].map .word ++
      [.mark '(', .word "int", .word "a", .mark ',', .word "N", .mark '.', .word "Node", .word "b",
        .mark ')'] := by
    decide +kernel
  have hnode : Spells (IsReference fun _ => True) (.named [⟨"N", []⟩, ⟨"Node", []⟩])
      [.word "N", .mark '.', .word "Node"] :=
    .plain (List.nil_subset _)
      (.named ⟨by decide, by decide, by decide⟩ (.cons .none (.last .none))) .nil
  have helements : SpellsPrimary (IsReference fun _ => True)
      (.tuple [.keyword "Int32", .named [⟨"N", []⟩, ⟨"Node", []⟩]])
      [.mark '(', .word "int", .word "a", .mark ',', .word "N", .mark '.', .word "Node", .word "b",
        .mark ')'] :=
    .tuple (.cons (some "a") spells_int (.last (some "b") hnode))
  have hcompiles : Compiles sampleNaming 1 (.named ([⟨"N", []⟩] ++ [⟨"Node", []⟩])) (.token ⟨1, 2⟩) :=
    .named (by decide) (by simp) ⟨_, rfl, rfl, rfl⟩
  exact ⟨_, _, .byRef (.tuple (by decide) (by decide) ⟨_, rfl, rfl, rfl⟩
    (.cons (.core (by decide) (by decide)) (.cons hcompiles .nil))),
    .byRef (by decide) (by decide) helements .nil, htokens ▸ lexes_tokens _⟩

/-- The method `M(string?, List<int>[,], ref (int a, N.Node b))`. -/
theorem member_segment_of_method :
    ∃ types, SigType.methodTypes? sampleNaming [0x20, 3, 0x01, 0x0E, 0x14, 0x15, 0x12, 5, 1, 0x08, 2, 0, 2,
        0, 0, 0x10, 0x15, 0x11, 13, 2, 0x08, 0x12, 9] = some types ∧
      types.parameters.map TypeRef.display =
        ["string?", "List<int>[,]", "ref (int a, N.Node b)"].map displayText ∧
      Name.memberSegment "M" (types.parameters.map TypeRef.display) true =
        Name.memberSegment "M" (["string?", "List<int>[,]", "ref (int a, N.Node b)"].map displayText)
          true := by
  have hblob : SigType.readMethod [0x20, 3, 0x01, 0x0E, 0x14, 0x15, 0x12, 5, 1, 0x08, 2, 0, 2, 0, 0, 0x10,
      0x15, 0x11, 13, 2, 0x08, 0x12, 9] = some (⟨true, 0, .core "Void", [.core "String",
        .array (.instance (.token ⟨1, 1⟩) [.core "Int32"]),
        .byRef (.instance (.token ⟨1, 3⟩) [.core "Int32", .token ⟨1, 2⟩])]⟩, []) := rfl
  exact member_segment_eq hblob rfl
    (.cons declares_string (.cons declares_list (.cons declares_tuple .nil))) "M"

/-- Behind a value type, `?` gives another parameter in the signature than in the text. -/
theorem display_nullable_ne :
    ∃ token, Means ⟨fun _ _ => .named (.simple none "System" "Nullable\x601"), "System.Private.CoreLib"⟩ 2
        token "Nullable\x601" ∧
      (SigType.parameterType ⟨fun _ _ => .named (.simple none "System" "Nullable\x601"),
        "System.Private.CoreLib"⟩ (.instance (.token token) [.core "Int32"])).map TypeRef.display ≠
          some (displayText "int?") := by
  have htokens : tokens "int?".toList = [.word "int", .mark '?'] := by decide +kernel
  have hspells : Spells (fun _ => True) (.keyword "Int32") [.word "int", .mark '?'] :=
    .plain (List.nil_subset _) (.keyword (by decide)) (.annotated trivial .nil)
  have htext : displayText "int?" = "Int32" := by
    rw [displayText, parse?_eq_some hspells (htokens ▸ lexes_tokens _)]
    rfl
  refine ⟨⟨1, 1⟩, ⟨_, rfl, rfl, rfl⟩, ?_⟩
  rw [htext]
  decide +kernel

end CodeGraph.CSharp.WrittenType
