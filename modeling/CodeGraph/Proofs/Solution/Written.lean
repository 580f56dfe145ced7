import CodeGraph.Proofs.Text.Fields
import CodeGraph.Solution

namespace CodeGraph

open CodeGraph.Text

/-!
# Written solutions

A solution is written with one line for each project and each folder, and with a section that says which
folder each of them lies in.
-/

/-- The characters of identifiers: hexadecimal digits and dashes. -/
def isGuidChar (c : Char) : Bool :=
  c.isDigit || ('a' ≤ c && c ≤ 'f') || ('A' ≤ c && c ≤ 'F') || c == '-'

def IsGuid (guid : String) : Prop :=
  ∀ c ∈ guid.toList, isGuidChar c = true

instance : DecidablePred IsGuid :=
  fun guid => List.decidableBAll (isGuidChar · = true) guid.toList

def quoted (text : String) : String :=
  "\"" ++ text ++ "\""

def braced (guid : String) : String :=
  "\x7b" ++ guid ++ "\x7d"

/-- A project or a folder as it is written, with the folder around it. -/
structure WrittenEntry where
  type : String
  name : String
  path : String
  guid : String
  parent : Option String
  deriving DecidableEq

namespace WrittenEntry

/-- Identifiers are the same without regard to case. -/
def key (e : WrittenEntry) : String :=
  upperAscii e.guid

def isFolder (e : WrittenEntry) : Bool :=
  upperAscii e.type == SolutionEntry.folderType

def isProject (e : WrittenEntry) : Bool :=
  !e.isFolder && (Path.extension? (slashed e.path)).any fun x =>
    ["csproj", "vbproj", "fsproj"].any (eqIgnoreCase x)

def line (e : WrittenEntry) : String :=
  "Project(" ++ quoted (braced e.type) ++ ") = " ++ quoted e.name ++ ", " ++ quoted e.path ++ ", " ++
    quoted (braced e.guid)

/-- The line that says in which folder an entry lies. -/
def nesting? (e : WrittenEntry) : Option String :=
  e.parent.map fun parent => "\t\t" ++ braced e.guid ++ " = " ++ braced parent

end WrittenEntry

def solutionLines (entries : List WrittenEntry) : List String :=
  ["", "Microsoft Visual Studio Solution File, Format Version 12.00"] ++
    entries.flatMap (fun e => [e.line, "EndProject"]) ++
    ["Global", "\tGlobalSection(NestedProjects) = preSolution"] ++ entries.filterMap (·.nesting?) ++
    ["\tEndGlobalSection", "EndGlobal"]

/-! ## Identifiers -/

theorem IsGuid.ne {guid : String} (h : IsGuid guid) {c d : Char} (hc : c ∈ guid.toList)
    (hd : isGuidChar d = false) : c ≠ d := by
  rintro rfl
  rw [h c hc] at hd
  cases hd

@[simp] theorem toList_quoted (text : String) : (quoted text).toList = '"' :: (text.toList ++ ['"']) := by
  simp [quoted]

@[simp] theorem toList_braced (guid : String) :
    (braced guid).toList = '\x7b' :: (guid.toList ++ ['\x7d']) := by
  simp [braced]

theorem isTrimmed_quoted (text : String) : Chars.IsTrimmed (quoted text).toList := by
  rw [toList_quoted]
  exact Chars.isTrimmed_enclosed (by decide) (by decide) _

theorem isTrimmed_braced (guid : String) : Chars.IsTrimmed (braced guid).toList := by
  rw [toList_braced]
  exact Chars.isTrimmed_enclosed (by decide) (by decide) _

theorem trimMatches_quoted {text : String} (h : '"' ∉ text.toList) :
    trimMatches (· == '"') (quoted text) = text := by
  rw [← String.ofList_toList (s := quoted text), toList_quoted, trimMatches_enclosed (by decide) (by decide),
    String.ofList_toList]
  intro c hc
  rw [beq_eq_false_iff_ne]
  rintro rfl
  exact h hc

theorem notMem_braced {guid : String} (h : IsGuid guid) {d : Char} (hd : isGuidChar d = false)
    (hbrace : SolutionEntry.isBrace d = false) : d ∉ (braced guid).toList := by
  rw [toList_braced]
  intro hmem
  rcases List.mem_cons.mp hmem with rfl | hmem
  · exact absurd hbrace (by decide)
  · rcases List.mem_append.mp hmem with hmem | hmem
    · exact h.ne hmem hd rfl
    · obtain rfl := List.mem_singleton.mp hmem
      exact absurd hbrace (by decide)

/-- An identifier is read without its braces and without what is around them. -/
theorem guidOf_braced {guid text : String} (h : IsGuid guid)
    (htext : Chars.trim text.toList = (braced guid).toList) :
    SolutionEntry.guidOf text = upperAscii guid := by
  have hbraces : ∀ c ∈ guid.toList, SolutionEntry.isBrace c = false := by
    intro c hc
    simp [SolutionEntry.isBrace, h.ne hc (d := '\x7b') (by decide), h.ne hc (d := '\x7d') (by decide)]
  rw [SolutionEntry.guidOf, trim, htext, toList_braced, trimMatches_enclosed (by decide) (by decide) hbraces,
    String.ofList_toList]

/-! ## Lines of entries -/

/-- A field in quotes is read without them and without the blank before it. -/
theorem field_quoted {text : String} (h : '"' ∉ text.toList) :
    trimMatches (· == '"') (trim (.ofList (' ' :: (quoted text).toList))) = text := by
  rw [trim, String.toList_ofList, Chars.trim_cons (by decide), Chars.trim_eq_self (isTrimmed_quoted text),
    String.ofList_toList, trimMatches_quoted h]

namespace WrittenEntry

/-- The texts of an entry are such that its line can be taken apart. -/
structure Plain (e : WrittenEntry) : Prop where
  type : IsGuid e.type
  guid : IsGuid e.guid
  name : '"' ∉ e.name.toList ∧ '\n' ∉ e.name.toList
  path : '"' ∉ e.path.toList ∧ '\n' ∉ e.path.toList

/-- What is read of an entry's line. -/
def read (e : WrittenEntry) : SolutionEntry :=
  ⟨e.name, e.path, e.key, e.isFolder⟩

def opening : Chars :=
  ['P', 'r', 'o', 'j', 'e', 'c', 't', '(']

/-- The identifiers of an entry and of the folder around it. -/
def folder? (e : WrittenEntry) : Option (String × String) :=
  e.parent.map fun parent => (e.key, upperAscii parent)

def head (e : WrittenEntry) : Chars :=
  opening ++ '"' :: ((braced e.type).toList ++ ['"', ')', ' '])

def fields (e : WrittenEntry) : Chars :=
  ' ' :: (quoted e.name).toList ++ ',' :: (' ' :: (quoted e.path).toList ++ ',' ::
    ' ' :: (quoted (braced e.guid)).toList)

theorem toList_line (e : WrittenEntry) : e.line.toList = e.head ++ '=' :: e.fields := by
  have hopening : "Project(".toList = opening := rfl
  have hclosing : ") = ".toList = [')', ' ', '=', ' '] := rfl
  have hcomma : ", ".toList = [',', ' '] := rfl
  unfold line head fields
  simp only [String.toList_append, toList_quoted, hopening, hclosing, hcomma, List.append_assoc,
    List.cons_append, List.nil_append]

variable {e : WrittenEntry}

theorem splitBy_head (h : IsGuid e.type) :
    Chars.splitBy (· == '"') e.head = [opening, (braced e.type).toList, [')', ' ']] := by
  have hopening : ∀ c ∈ opening, (c == '"') = false := by simp [opening]
  have hbraced : ∀ c ∈ (braced e.type).toList, (c == '"') = false := by
    intro c hc
    rw [beq_eq_false_iff_ne]
    rintro rfl
    exact notMem_braced h (by decide) (by decide) hc
  rw [head, Chars.splitBy_append hopening (by decide), Chars.splitBy_append hbraced (by decide)]
  rfl

theorem equals_notMem_head (h : IsGuid e.type) : ∀ c ∈ e.head, (c == '=') = false := by
  intro c hc
  rw [beq_eq_false_iff_ne]
  rintro rfl
  rcases List.mem_append.mp hc with hc | hc
  · exact absurd hc (by decide)
  · rcases List.mem_cons.mp hc with hc | hc
    · exact absurd hc (by decide)
    · rcases List.mem_append.mp hc with hc | hc
      · exact notMem_braced h (by decide) (by decide) hc
      · exact absurd hc (by decide)

theorem comma_notMem_field {text : String} (h : ',' ∉ text.toList) :
    ∀ c ∈ ' ' :: (quoted text).toList, (c == ',') = false := by
  intro c hc
  rw [beq_eq_false_iff_ne]
  rintro rfl
  simp [h] at hc

theorem splitBy_fields (hguid : IsGuid e.guid) (hname : ',' ∉ e.name.toList) (hpath : ',' ∉ e.path.toList) :
    Chars.splitBy (· == ',') e.fields = [' ' :: (quoted e.name).toList, ' ' :: (quoted e.path).toList,
      ' ' :: (quoted (braced e.guid)).toList] := by
  have hbraced := comma_notMem_field (notMem_braced hguid (d := ',') (by decide) (by decide))
  rw [fields, Chars.splitBy_append (comma_notMem_field hname) (by decide),
    Chars.splitBy_append (comma_notMem_field hpath) (by decide), Chars.splitBy_eq_self hbraced]

theorem ofLine?_line (h : e.Plain) (hname : ',' ∉ e.name.toList) (hpath : ',' ∉ e.path.toList) :
    SolutionEntry.ofLine? e.line = some e.read := by
  have hcut : Chars.cut? (· == '=') e.line.toList = some (e.head, '=', e.fields) := by
    rw [toList_line, Chars.cut?_append (equals_notMem_head h.type) (by decide)]
  have hquote : '"' ∉ (braced e.guid).toList := notMem_braced h.guid (by decide) (by decide)
  have htype : SolutionEntry.guidOf (.ofList (braced e.type).toList) = upperAscii e.type := by
    apply guidOf_braced h.type
    rw [String.toList_ofList, Chars.trim_eq_self (isTrimmed_braced e.type)]
  have hguid : SolutionEntry.guidOf (braced e.guid) = e.key :=
    guidOf_braced h.guid (Chars.trim_eq_self (isTrimmed_braced e.guid))
  simp only [SolutionEntry.ofLine?, hcut, splitBy_head h.type, splitBy_fields h.guid hname hpath,
    List.map_cons, List.map_nil, field_quoted h.name.1, field_quoted h.path.1, field_quoted hquote,
    Option.bind_eq_bind, Option.bind_some, List.getElem?_cons_succ, List.getElem?_cons_zero, htype, hguid]
  rfl

end WrittenEntry

/-! ## Reading lines -/

namespace SolutionLines

variable {s s' s'' : SolutionLines} {l : String} {ls ls' : List String}

/-- The lines are read one after the other. -/
inductive Reads : SolutionLines → List String → SolutionLines → Prop
  | nil (s : SolutionLines) : Reads s [] s
  | cons {s s' s'' : SolutionLines} {l : String} {ls : List String} (hl : s.add? l = some s')
      (h : Reads s' ls s'') : Reads s (l :: ls) s''

theorem Reads.read_eq (h : Reads s ls s') (number : Nat) : s.read number ls = .ok s' := by
  induction h generalizing number with
  | nil s => rfl
  | cons hl h ih =>
      unfold read
      rw [hl]
      exact ih (number + 1)

theorem Reads.append (h : Reads s ls s') (h' : Reads s' ls' s'') : Reads s (ls ++ ls') s'' := by
  induction h with
  | nil s => exact h'
  | cons hl h ih => exact .cons hl (ih h')

/-- Outside the section on folders only entries count. -/
theorem add?_other (hs : s.inNesting = false) (hproject : startsWith "Project(" (trim l) = false)
    (hopen : startsWith "GlobalSection(NestedProjects)" (trim l) = false)
    (hclose : startsWith "EndGlobalSection" (trim l) = false) : s.add? l = some s := by
  rw [add?]
  simp only [hproject, hopen, hclose, hs, if_neg, Bool.false_eq_true, not_false_eq_true]

theorem isTrimmed_line (e : WrittenEntry) : Chars.IsTrimmed e.line.toList := by
  have hends : e.line.toList = 'P' :: (WrittenEntry.opening.tail ++ '"' :: ((braced e.type).toList ++
      '"' :: ')' :: ' ' :: '=' :: ' ' :: ((quoted e.name).toList ++ ',' :: ' ' :: ((quoted e.path).toList ++
        ',' :: ' ' :: '"' :: (braced e.guid).toList))) ++ ['"']) := by
    rw [WrittenEntry.toList_line, WrittenEntry.head, WrittenEntry.fields, toList_quoted (braced e.guid)]
    simp only [WrittenEntry.opening, List.tail_cons, List.append_assoc, List.cons_append, List.nil_append]
  rw [hends]
  exact Chars.isTrimmed_enclosed (by decide) (by decide) _

theorem add?_line {e : WrittenEntry} {r : SolutionEntry} (h : SolutionEntry.ofLine? e.line = some r) :
    s.add? e.line = some { s with entries := s.entries ++ [r] } := by
  have htrim : trim e.line = e.line := by
    rw [trim, Chars.trim_eq_self (isTrimmed_line e), String.ofList_toList]
  have hstart : startsWith "Project(" e.line = true := by
    rw [startsWith, WrittenEntry.toList_line, WrittenEntry.head, List.append_assoc, Option.isSome_iff_exists]
    exact ⟨_, Chars.dropPrefix?_eq_some_iff.mpr rfl⟩
  rw [add?]
  simp only [htrim, hstart, if_true, h, Option.map_some]

/-- The line of an entry in the section on folders, without what indents it. -/
def nested (guid parent : String) : Chars :=
  (braced guid).toList ++ ' ' :: '=' :: ' ' :: (braced parent).toList

theorem toList_nesting (guid parent : String) :
    ("\t\t" ++ braced guid ++ " = " ++ braced parent).toList = '\t' :: '\t' :: nested guid parent := by
  have hindent : "\t\t".toList = ['\t', '\t'] := rfl
  have hequals : " = ".toList = [' ', '=', ' '] := rfl
  simp only [nested, String.toList_append, hindent, hequals, List.append_assoc, List.cons_append,
    List.nil_append]

theorem isTrimmed_nested (guid parent : String) : Chars.IsTrimmed (nested guid parent) := by
  have hends : nested guid parent = '\x7b' :: (guid.toList ++ '\x7d' :: ' ' :: '=' :: ' ' :: '\x7b' ::
      parent.toList ++ ['\x7d']) := by
    simp only [nested, toList_braced, List.append_assoc, List.cons_append, List.nil_append]
  rw [hends]
  exact Chars.isTrimmed_enclosed (by decide) (by decide) _

theorem trim_nesting (guid parent : String) :
    (trim ("\t\t" ++ braced guid ++ " = " ++ braced parent)).toList = nested guid parent := by
  rw [trim, String.toList_ofList, toList_nesting, Chars.trim_cons (by decide), Chars.trim_cons (by decide),
    Chars.trim_eq_self (isTrimmed_nested guid parent)]

theorem cut?_nested {guid : String} (h : IsGuid guid) (parent : String) :
    Chars.cut? (· == '=') (nested guid parent) =
      some ((braced guid).toList ++ [' '], '=', ' ' :: (braced parent).toList) := by
  have hequals : ∀ c ∈ (braced guid).toList ++ [' '], (c == '=') = false := by
    intro c hc
    rw [beq_eq_false_iff_ne]
    rintro rfl
    rcases List.mem_append.mp hc with hc | hc
    · exact notMem_braced h (by decide) (by decide) hc
    · exact absurd hc (by decide)
  have hsplit : nested guid parent =
      ((braced guid).toList ++ [' ']) ++ '=' :: (' ' :: (braced parent).toList) := by
    rw [nested, List.append_assoc, List.singleton_append]
  rw [hsplit, Chars.cut?_append hequals (by decide)]

theorem add?_nesting (hs : s.inNesting = true) {e : WrittenEntry} (he : IsGuid e.guid) {parent : String}
    (hparent : IsGuid parent) :
    s.add? ("\t\t" ++ braced e.guid ++ " = " ++ braced parent) =
      some { s with parents := s.parents.insert e.key (upperAscii parent) } := by
  have hhead : (trim ("\t\t" ++ braced e.guid ++ " = " ++ braced parent)).toList.head? = some '\x7b' := by
    rw [trim_nesting, nested, toList_braced]
    rfl
  have hchild : SolutionEntry.guidOf (.ofList ((braced e.guid).toList ++ [' '])) = e.key := by
    apply guidOf_braced he
    rw [String.toList_ofList, Chars.trim_concat (by decide) (isTrimmed_braced e.guid)]
  have hfolder : SolutionEntry.guidOf (.ofList (' ' :: (braced parent).toList)) = upperAscii parent := by
    apply guidOf_braced hparent
    rw [String.toList_ofList, Chars.trim_cons (by decide), Chars.trim_eq_self (isTrimmed_braced parent)]
  have hproject := startsWith_eq_false "Project(" (a := 'P') rfl hhead (by decide)
  have hopen := startsWith_eq_false "GlobalSection(NestedProjects)" (a := 'G') rfl hhead (by decide)
  have hclose := startsWith_eq_false "EndGlobalSection" (a := 'E') rfl hhead (by decide)
  rw [add?]
  simp only [hproject, hopen, hclose, Bool.false_eq_true, if_false, hs, if_true, trim_nesting,
    cut?_nested he, hchild, hfolder]

theorem reads_entries {entries : List WrittenEntry} {read : WrittenEntry → SolutionEntry}
    (hs : s.inNesting = false) (h : ∀ e ∈ entries, SolutionEntry.ofLine? e.line = some (read e)) :
    Reads s (entries.flatMap fun e => [e.line, "EndProject"])
      { s with entries := s.entries ++ entries.map read } := by
  induction entries generalizing s with
  | nil =>
      rw [List.map_nil, List.append_nil]
      exact .nil s
  | cons e entries ih =>
      obtain ⟨he, hmore⟩ := List.forall_mem_cons.mp h
      have hend : ∀ {s : SolutionLines}, s.inNesting = false → s.add? "EndProject" = some s :=
        fun hs => add?_other hs (by decide +kernel) (by decide +kernel) (by decide +kernel)
      have hafter : ({ s with entries := s.entries ++ [read e] } : SolutionLines).inNesting = false := hs
      have hrest := ih hafter hmore
      rw [List.append_assoc, List.singleton_append] at hrest
      exact .cons (add?_line he) (.cons (hend hs) hrest)

theorem reads_nestings {entries : List WrittenEntry} (hs : s.inNesting = true)
    (h : ∀ e ∈ entries, IsGuid e.guid ∧ ∀ parent, e.parent = some parent → IsGuid parent) :
    Reads s (entries.filterMap (·.nesting?))
      { s with
        parents := (entries.filterMap (·.folder?)).foldl (fun d x => d.insert x.1 x.2) s.parents } := by
  induction entries generalizing s with
  | nil => exact .nil s
  | cons e entries ih =>
      obtain ⟨⟨he, hparent⟩, hmore⟩ := List.forall_mem_cons.mp h
      cases hp : e.parent with
      | none =>
          rw [List.filterMap_cons_none, List.filterMap_cons_none]
          · exact ih hs hmore
          · rw [WrittenEntry.folder?, hp]; rfl
          · rw [WrittenEntry.nesting?, hp]; rfl
      | some parent =>
          have hnesting : e.nesting? = some ("\t\t" ++ braced e.guid ++ " = " ++ braced parent) := by
            rw [WrittenEntry.nesting?, hp]; rfl
          have hfolder : e.folder? = some (e.key, upperAscii parent) := by
            rw [WrittenEntry.folder?, hp]; rfl
          rw [List.filterMap_cons_some hnesting, List.filterMap_cons_some hfolder]
          exact .cons (add?_nesting hs he (hparent parent hp)) (ih hs hmore)

theorem add?_section (s : SolutionLines) :
    s.add? "\tGlobalSection(NestedProjects) = preSolution" = some { s with inNesting := true } := by
  have htrim : trim "\tGlobalSection(NestedProjects) = preSolution" =
      "GlobalSection(NestedProjects) = preSolution" := by decide +kernel
  have hproject : startsWith "Project(" "GlobalSection(NestedProjects) = preSolution" = false := by
    decide +kernel
  have hopen : startsWith "GlobalSection(NestedProjects)"
      "GlobalSection(NestedProjects) = preSolution" = true := by decide +kernel
  rw [add?]
  simp only [htrim, hproject, hopen, Bool.false_eq_true, if_false, if_true]

theorem add?_endSection (s : SolutionLines) :
    s.add? "\tEndGlobalSection" = some { s with inNesting := false } := by
  have htrim : trim "\tEndGlobalSection" = "EndGlobalSection" := by decide +kernel
  have hproject : startsWith "Project(" "EndGlobalSection" = false := by decide +kernel
  have hopen : startsWith "GlobalSection(NestedProjects)" "EndGlobalSection" = false := by decide +kernel
  have hclose : startsWith "EndGlobalSection" "EndGlobalSection" = true := by decide +kernel
  rw [add?]
  simp only [htrim, hproject, hopen, hclose, Bool.false_eq_true, if_false, if_true]

/-- What is read of all lines: the entries in their order, and the folders around them. -/
theorem reads_solutionLines {entries : List WrittenEntry} {read : WrittenEntry → SolutionEntry}
    (hread : ∀ e ∈ entries, SolutionEntry.ofLine? e.line = some (read e))
    (hguids : ∀ e ∈ entries, IsGuid e.guid ∧ ∀ parent, e.parent = some parent → IsGuid parent) :
    Reads .empty (solutionLines entries)
      ⟨entries.map read, (entries.filterMap (·.folder?)).foldl (fun d x => d.insert x.1 x.2) .empty,
        false⟩ := by
  have hblank := add?_other (s := .empty) (l := "") rfl (by decide +kernel) (by decide +kernel)
    (by decide +kernel)
  have hformat := add?_other (s := .empty)
    (l := "Microsoft Visual Studio Solution File, Format Version 12.00") rfl (by decide +kernel)
    (by decide +kernel) (by decide +kernel)
  have hglobal : ∀ {s : SolutionLines}, s.inNesting = false → s.add? "Global" = some s :=
    fun hs => add?_other hs (by decide +kernel) (by decide +kernel) (by decide +kernel)
  have hendGlobal : ∀ {s : SolutionLines}, s.inNesting = false → s.add? "EndGlobal" = some s :=
    fun hs => add?_other hs (by decide +kernel) (by decide +kernel) (by decide +kernel)
  have hheader : Reads .empty ["", "Microsoft Visual Studio Solution File, Format Version 12.00"] .empty :=
    .cons hblank (.cons hformat (.nil _))
  have hentries := reads_entries (s := .empty) rfl hread
  have hnestings := reads_nestings (s := ⟨entries.map read, .empty, true⟩) rfl hguids
  refine (((hheader.append hentries).append ?_).append hnestings).append ?_
  · exact .cons (hglobal rfl) (.cons (add?_section _) (.nil _))
  · exact .cons (add?_endSection _) (.cons (hendGlobal rfl) (.nil _))

end SolutionLines

/-! ## Line breaks -/

/-- The line holds no line break and does not end with half of one. -/
def IsLine (l : String) : Prop :=
  '\n' ∉ l.toList ∧ l.toList.getLast? ≠ some '\r'

instance : DecidablePred IsLine :=
  fun l => inferInstanceAs (Decidable ('\n' ∉ l.toList ∧ l.toList.getLast? ≠ some '\r'))

theorem isLine_of_isTrimmed {l : String} (indent trimmed : Chars) (htext : l.toList = indent ++ trimmed)
    (hne : trimmed ≠ []) (htrimmed : Chars.IsTrimmed trimmed) (hindent : '\n' ∉ indent)
    (hbreak : '\n' ∉ trimmed) : IsLine l := by
  constructor
  · rw [htext, List.mem_append]
    exact not_or.mpr ⟨hindent, hbreak⟩
  · rw [htext, List.getLast?_append_of_ne_nil _ hne]
    intro hlast
    exact absurd (htrimmed.2 '\r' hlast) (by decide)

theorem IsGuid.newline_notMem {guid : String} (h : IsGuid guid) : '\n' ∉ guid.toList :=
  fun hmem => h.ne hmem (by decide) rfl

theorem WrittenEntry.isLine_line {e : WrittenEntry} (h : e.Plain) : IsLine e.line := by
  apply isLine_of_isTrimmed [] e.line.toList (List.nil_append _).symm _ (SolutionLines.isTrimmed_line e)
    List.not_mem_nil
  · have hopening : '\n' ∉ opening := by decide
    rw [toList_line, head, fields]
    simp [hopening, h.type.newline_notMem, h.guid.newline_notMem, h.name.2, h.path.2]
  · rw [toList_line, head, opening]
    exact List.cons_ne_nil _ _

theorem isLine_nesting {guid parent : String} (hguid : IsGuid guid) (hparent : IsGuid parent) :
    IsLine ("\t\t" ++ braced guid ++ " = " ++ braced parent) := by
  apply isLine_of_isTrimmed ['\t', '\t'] (SolutionLines.nested guid parent)
    (SolutionLines.toList_nesting guid parent) _ (SolutionLines.isTrimmed_nested guid parent) (by decide)
  · rw [SolutionLines.nested]
    simp [hguid.newline_notMem, hparent.newline_notMem]
  · rw [SolutionLines.nested, toList_braced]
    exact List.cons_ne_nil _ _

theorem isLine_solutionLines {entries : List WrittenEntry} (hplain : ∀ e ∈ entries, e.Plain)
    (hparents : ∀ e ∈ entries, ∀ parent, e.parent = some parent → IsGuid parent) :
    ∀ l ∈ solutionLines entries, IsLine l := by
  have hheader : ∀ l ∈ ["", "Microsoft Visual Studio Solution File, Format Version 12.00"], IsLine l := by
    decide +kernel
  have hopening : ∀ l ∈ ["Global", "\tGlobalSection(NestedProjects) = preSolution"], IsLine l := by
    decide +kernel
  have hclosing : ∀ l ∈ ["\tEndGlobalSection", "EndGlobal"], IsLine l := by decide +kernel
  have hend : IsLine "EndProject" := by decide +kernel
  intro l hl
  simp only [solutionLines, List.mem_append, List.mem_flatMap, List.mem_filterMap] at hl
  rcases hl with (((hl | ⟨e, he, hl⟩) | hl) | ⟨e, he, hl⟩) | hl
  · exact hheader l hl
  · rcases List.mem_cons.mp hl with rfl | hl
    · exact WrittenEntry.isLine_line (hplain e he)
    · obtain rfl := List.mem_singleton.mp hl
      exact hend
  · exact hopening l hl
  · obtain ⟨parent, hparent, rfl⟩ := Option.map_eq_some_iff.mp hl
    exact isLine_nesting (hplain e he).guid (hparents e he parent hparent)
  · exact hclosing l hl

end CodeGraph
