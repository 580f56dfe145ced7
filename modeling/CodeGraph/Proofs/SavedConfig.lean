import CodeGraph.Config
import CodeGraph.Dict
import CodeGraph.Proofs.Files.Kept
import CodeGraph.Proofs.Text.Utf8
import CodeGraph.Proofs.Toml.Codecs
import Mathlib.Data.List.Nodup

namespace CodeGraph

open CodeGraph.Text CodeGraph.Toml

/-!
# Configurations that are loaded again

A configuration is loaded as it was saved, by every codec that keeps a format. Every setting has an entry of
its own, and only the count of modules that are walked at a time has none where it is not set; the reader may
give the entries in any order.
-/

namespace Config

/-! ## Entries -/

/-- The count of modules that are walked at a time is a number that can be written. -/
def Writable (c : Config) : Prop :=
  ∀ n ∈ c.workers, n < 2 ^ 63

theorem isBareWord_keys : ∀ key ∈ keys, Reader.IsBareWord key.toList := by
  have hne : ∀ key ∈ keys, key.toList ≠ [] := by decide
  have hbare : ∀ key ∈ keys, key.toList.all Reader.isBare = true := by decide +kernel
  exact fun key hkey => ⟨hne key hkey, List.all_eq_true.mp (hbare key hkey)⟩

theorem nodup_keys : keys.Nodup := by
  decide

theorem map_entries_sublist (c : Config) : (c.entries.map (·.1)).Sublist keys := by
  obtain ⟨debug, external, mode, workers, ignored⟩ := c
  cases workers with
  | none => exact .cons_cons _ (.cons_cons _ (.cons_cons _ (.cons _ (.refl _))))
  | some n => exact .refl _

theorem isTable_entries {c : Config} (hc : c.Writable) : IsTable c.entries where
  nodup := nodup_keys.sublist c.map_entries_sublist
  bare entry hentry := isBareWord_keys entry.1 (c.map_entries_sublist.subset (List.mem_map_of_mem hentry))
  setting entry hentry := by
    simp only [entries, List.mem_append, List.mem_cons, List.not_mem_nil, or_false, Option.mem_toList,
      Option.map_eq_some_iff] at hentry
    rcases hentry with ((rfl | rfl | rfl) | ⟨n, hn, rfl⟩) | rfl
    · exact .boolean c.debugSymbols
    · exact .boolean c.externalReferences
    · exact .text c.mode.name
    · exact .count (hc n hn)
    · exact .texts c.ignored.patterns

section Settings

variable {α : Type} {l : Entries} {key : String} {v : Value}

theorem hasRepeatedKey_eq_false (hl : (l.map (·.1)).Nodup) : hasRepeatedKey l = false := by
  rw [hasRepeatedKey, List.any_eq_false]
  intro key hkey
  have hcount : (l.filter (·.1 == key)).length = (l.map (·.1)).count key := by
    rw [List.count, List.countP_map, List.countP_eq_length_filter]
    rfl
  have hle := List.nodup_iff_count_le_one.mp hl key
  rw [decide_eq_true_iff, hcount]
  omega

theorem setting?_of_mem (hl : (l.map (·.1)).Nodup) (h : (key, v) ∈ l) (read : Value → Option α) (usual : α) :
    setting? l key read usual = read v := by
  have hlookup : l.lookup key = some v := (Dict.get?_eq_some_iff (d := ⟨l⟩) hl).mpr h
  rw [setting?, hlookup]

theorem setting?_of_notMem (h : key ∉ l.map (·.1)) (read : Value → Option α) (usual : α) :
    setting? l key read usual = some usual := by
  have hlookup : l.lookup key = none := by
    refine List.lookup_eq_none_iff.mpr fun entry hentry => ?_
    have hne : key ≠ entry.1 := fun heq => h (heq ▸ List.mem_map_of_mem hentry)
    simpa using hne
  rw [setting?, hlookup]

end Settings

theorem texts?_map (texts : List String) : texts? (.array (texts.map .text)) = some texts :=
  mapM_text? texts

section Reordered

variable {c : Config} {back : Entries} (hback : back.Perm c.entries)

include hback

theorem nodup_of_perm : (back.map (·.1)).Nodup := by
  have hentries : (c.entries.map (·.1)).Nodup := nodup_keys.sublist c.map_entries_sublist
  exact (hback.map (·.1)).nodup_iff.mpr hentries

theorem setting?_of_perm {α : Type} {key : String} {v : Value} (h : (key, v) ∈ c.entries)
    (read : Value → Option α) (usual : α) : setting? back key read usual = read v := by
  apply setting?_of_mem (nodup_of_perm hback)
  exact hback.mem_iff.mpr h

theorem setting?_workers :
    setting? back workersKey (fun v => (count? v).map some) usual.workers = some c.workers := by
  cases hworkers : c.workers with
  | none =>
      have hkeys : c.entries.map (·.1) = [debugSymbolsKey, externalReferencesKey, modeKey, ignoredKey] := by
        simp [entries, hworkers]
      have habsent : workersKey ∉ back.map (·.1) := by
        rw [(hback.map (·.1)).mem_iff, hkeys]
        decide
      exact setting?_of_notMem habsent _ _
  | some n =>
      have hmem : (workersKey, Value.plain (.integer n)) ∈ c.entries := by simp [entries, hworkers]
      rw [setting?_of_perm hback hmem]
      simp [count?]

/-- The entries of a configuration give back every setting, in whatever order they come. -/
theorem ofDocument?_of_perm : ofDocument? ⟨back, []⟩ = some c := by
  have hheader : headerMode? ⟨back, []⟩ = none := by
    cases back <;> rfl
  have hdebug : setting? back debugSymbolsKey boolean? usual.debugSymbols = some c.debugSymbols := by
    have hmem : (debugSymbolsKey, Value.boolean c.debugSymbols) ∈ c.entries := by simp [entries]
    rw [setting?_of_perm hback hmem, boolean?]
  have hexternal : setting? back externalReferencesKey boolean? usual.externalReferences =
      some c.externalReferences := by
    have hmem : (externalReferencesKey, Value.boolean c.externalReferences) ∈ c.entries := by simp [entries]
    rw [setting?_of_perm hback hmem, boolean?]
  have hmode : setting? back modeKey mode? usual.mode = some c.mode := by
    have hmem : (modeKey, Value.text c.mode.name) ∈ c.entries := by simp [entries]
    rw [setting?_of_perm hback hmem]
    cases c.mode <;> decide
  have hignored : setting? back ignoredKey (fun v => (texts? v).map Ignored.mk) usual.ignored =
      some c.ignored := by
    have hmem : (ignoredKey, Value.array (c.ignored.patterns.map .text)) ∈ c.entries := by simp [entries]
    rw [setting?_of_perm hback hmem, texts?_map, Option.map_some]
  have honce : hasRepeatedKey back = false := hasRepeatedKey_eq_false (nodup_of_perm hback)
  rw [ofDocument?, hheader]
  simp [honce, hdebug, hexternal, hmode, setting?_workers hback, hignored]

end Reordered

/-! ## The file -/

/-- A text is written into the directories that are made for it. -/
theorem saveText_eq_ok {text : String} {t t' : FileTree} {path : String} {modified : Nat}
    (h : saveText text t path modified = .ok t') :
    ∃ made : FileTree, made.write path ⟨text.toUTF8.data, modified⟩ = .ok t' := by
  rw [saveText] at h
  cases hparent : Path.parent? path with
  | none =>
      rw [hparent] at h
      exact ⟨t, h⟩
  | some directory =>
      rw [hparent] at h
      cases hmade : t.makeDirectories directory with
      | error e =>
          simp only [hmade, bind, Except.bind] at h
          cases h
      | ok made =>
          simp only [hmade, bind, Except.bind] at h
          exact ⟨made, h⟩

section Codecs

variable {toml : Codec} {c : Config} {text : String}

theorem write_eq (h : c.write? toml = some text) : c.write toml = text := by
  rw [write, h, Option.getD_some]

/-- Once a configuration has its text, only the files can refuse it. -/
theorem save_eq (h : c.write? toml = some text) (t : FileTree) (path : String) (modified : Nat) :
    c.save t path modified toml =
      (saveText text t path modified).mapError fun e => .inputOutput e.message := by
  simp only [save, h]

theorem loadStrict_of_saveText (h : read? text toml = some c) {t t' : FileTree} {path : String}
    {modified : Nat} (hsaved : saveText text t path modified = .ok t') :
    loadStrict t' path toml = .ok c := by
  obtain ⟨made, hwrite⟩ := saveText_eq_ok hsaved
  have htext : t'.readText path = .ok text := FileTree.readText_write hwrite (ofUtf8?_toUTF8 text)
  rw [loadStrict, htext]
  simp only [h]

variable {format : Format}

/-- A configuration has a text, and the text is read as the configuration. -/
theorem exists_text (hwrites : toml.Writes format) (hreads : toml.Reads format) (hc : c.Writable) :
    ∃ text, c.write? toml = some text ∧ read? text toml = some c := by
  have htable : IsTable c.entries := isTable_entries hc
  obtain ⟨text, hwritten, hformat⟩ := hwrites c.entries htable
  obtain ⟨back, hread, hback⟩ := hreads text c.entries htable hformat
  refine ⟨text, hwritten, ?_⟩
  rw [read?, hread, Option.bind_some]
  exact ofDocument?_of_perm hback

end Codecs

/-- Patterns of every form, and the greatest count. -/
def sampleConfig : Config where
  debugSymbols := true
  externalReferences := false
  mode := .source
  workers := some (2 ^ 63 - 1)
  ignored := ⟨["System.*", "it's", "'''", "C:\\a\r\nb", "\x00\"\x7F", ""]⟩

/-- Nothing is ignored and no count is set. -/
def barestConfig : Config :=
  ⟨false, false, .binary, none, ⟨[]⟩⟩

/-- The file that is saved in an empty tree, with its directory. -/
def sampleTree : FileTree :=
  FileTree.putAt ⟨[], [[directoryName]], []⟩ [directoryName, fileName] ⟨sampleConfig.write.toUTF8.data, 0⟩

theorem save_sampleConfig (h : sampleConfig.write? = some sampleConfig.write) :
    sampleConfig.save (.empty []) ".depgraph/config.toml" 0 = .ok sampleTree := by
  have hparent : Path.parent? ".depgraph/config.toml" = some ".depgraph" := by decide +kernel
  have hmade : (FileTree.empty []).makeDirectories ".depgraph" = .ok ⟨[], [[directoryName]], []⟩ := by
    have hcomponents : Path.components ".depgraph" = [.name directoryName] := by decide +kernel
    rw [FileTree.makeDirectories, hcomponents]
    rfl
  have hwrite : FileTree.write ⟨[], [[directoryName]], []⟩ ".depgraph/config.toml"
      ⟨sampleConfig.write.toUTF8.data, 0⟩ = .ok sampleTree := by
    have hcomponents : Path.components ".depgraph/config.toml" = [.name directoryName, .name fileName] := by
      decide +kernel
    refine FileTree.write_eq_ok_iff.mpr
      ⟨[directoryName, fileName], by decide, by rw [hcomponents]; rfl, by decide, by decide +kernel, rfl⟩
  have hsaved : saveText sampleConfig.write (.empty []) ".depgraph/config.toml" 0 = .ok sampleTree := by
    rw [saveText, hparent]
    simp only [bind, Except.bind, hmade, hwrite]
  rw [save_eq h, hsaved]
  rfl

end Config

end CodeGraph
