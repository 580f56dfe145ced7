import CodeGraph.Proofs.Toml.Documents
import CodeGraph.Toml.Codec

namespace CodeGraph.Toml

open CodeGraph.Text

/-!
# Codecs that keep a format

A format says which table a text stands for. A codec keeps it when every table is written as a text that
stands for it, and when a text that stands for a table is read as the entries of that table. The order in
which a table's entries are read is left open.

Of tables only those count here whose keys are different words that need no quotes, with values that are
neither tables nor dates nor fractions.
-/

/-- Which table a text stands for. -/
abbrev Format := String → Entries → Prop

/-- A boolean, a count that is an integer of 64 bits, a text, or an array of texts. -/
inductive IsSetting : Value → Prop where
  | boolean (b : Bool) : IsSetting (.boolean b)
  | count {n : Nat} (h : n < 2 ^ 63) : IsSetting (.plain (.integer n))
  | text (s : String) : IsSetting (.text s)
  | texts (l : List String) : IsSetting (.array (l.map .text))

structure IsTable (entries : Entries) : Prop where
  nodup : (entries.map (·.1)).Nodup
  bare : ∀ entry ∈ entries, Reader.IsBareWord entry.1.toList
  setting : ∀ entry ∈ entries, IsSetting entry.2

namespace Codec

/-- Every table has a text, and the text stands for the table. -/
def Writes (toml : Codec) (format : Format) : Prop :=
  ∀ entries, IsTable entries → ∃ text, toml.write? entries = some text ∧ format text entries

/-- A text that stands for a table is read as its entries, without further tables. -/
def Reads (toml : Codec) (format : Format) : Prop :=
  ∀ text entries, IsTable entries → format text entries →
    ∃ back : Entries, toml.read? text = some ⟨back, []⟩ ∧ back.Perm entries

end Codec

/-! ## The codec that the program runs with -/

theorem mapM_text? (texts : List String) : (texts.map Value.text).mapM Value.text? = some texts :=
  mapM_map_of_some (f := Value.text) (g := Value.text?) (fun _ => rfl) texts

theorem IsSetting.exists_text {v : Value} (hv : IsSetting v) :
    ∃ text, valueText? v = some text ∧ Reader.Written 2 text v ∧ '\r' ∉ text.toList := by
  cases hv with
  | boolean b =>
      refine ⟨booleanText b, rfl, ?_, ?_⟩
      · exact (Reader.written_booleanText b).mono (by decide)
      · cases b <;> decide
  | @count n h =>
      refine ⟨toString n, rfl, ?_, ?_⟩
      · exact (Reader.written_integer h).mono (by decide)
      · exact Reader.notMem_toString n (by decide)
  | text s =>
      refine ⟨quote s, rfl, ?_, notMem_quote s⟩
      exact (Reader.written_quote s).mono (by decide)
  | texts l =>
      refine ⟨textsIn l, ?_, Reader.written_textsIn l, Reader.notMem_textsIn l⟩
      rw [valueText?, mapM_text?, Option.map_some]

/-- Each entry of a table has its line. -/
theorem exists_lines {entries : Entries} (hbare : ∀ entry ∈ entries, Reader.IsBareWord entry.1.toList)
    (hsetting : ∀ entry ∈ entries, IsSetting entry.2) :
    ∃ lines : List Line, (∀ l ∈ lines, l.Valid) ∧ lines.map (fun l => (l.key, l.value)) = entries ∧
      entries.mapM entryText? = some (lines.map fun l => entryLine l.key l.text) := by
  induction entries with
  | nil => exact ⟨[], List.forall_mem_nil _, rfl, rfl⟩
  | cons entry entries ih =>
      obtain ⟨hkey, hkeys⟩ := List.forall_mem_cons.mp hbare
      obtain ⟨hv, hvs⟩ := List.forall_mem_cons.mp hsetting
      obtain ⟨lines, hvalid, hentries, hwritten⟩ := ih hkeys hvs
      obtain ⟨text, htext, hread, hbreaks⟩ := hv.exists_text
      refine ⟨⟨entry.1, text, entry.2⟩ :: lines, ?_, ?_, ?_⟩
      · exact List.forall_mem_cons.mpr ⟨⟨hkey, hread, hbreaks⟩, hvalid⟩
      · rw [List.map_cons, hentries]
      · have hentry : entryText? entry = some (entryLine entry.1 text) := by
          rw [entryText?, htext, Option.map_some]
        rw [List.mapM_cons, hentry, hwritten]
        rfl

/-- The format that documents are read by. -/
def Format.standard : Format :=
  fun text entries => Document.parse? text = some ⟨entries, []⟩

namespace Codec

theorem standard_writes : Codec.standard.Writes .standard := by
  intro entries htable
  obtain ⟨lines, hvalid, rfl, hwritten⟩ := exists_lines htable.bare htable.setting
  refine ⟨String.join (lines.map fun l => entryLine l.key l.text), ?_, ?_⟩
  · change entriesText? _ = _
    rw [entriesText?, hwritten, Option.map_some]
  · apply Document.parse?_lines hvalid
    rw [String.toList_join, List.flatMap_map]
    rfl

theorem standard_reads : Codec.standard.Reads .standard :=
  fun _ entries _ hread => ⟨entries, hread, .refl entries⟩

end Codec

end CodeGraph.Toml
