import CodeGraph.FileTree
import CodeGraph.Ignored
import CodeGraph.Toml.Codec

namespace CodeGraph

open Toml

/-!
# Configuration

What a parse does is set by a file beside the input. A setting that the file does not mention has its
usual value, and so has every setting where there is no file that can be read.
-/

inductive ParseMode where
  /-- What was built. -/
  | binary
  /-- The sources. -/
  | source
  deriving DecidableEq, Repr, Inhabited

namespace ParseMode

def name : ParseMode → String
  | binary => "binary"
  | source => "source"

def ofName? (s : String) : Option ParseMode :=
  [binary, source].find? (·.name == s)

end ParseMode

structure Config where
  /-- Nodes get their places in source files. -/
  debugSymbols : Bool
  /-- Modules that the input mentions are walked as well. -/
  externalReferences : Bool
  mode : ParseMode
  /-- How many modules are walked at a time, if that is set. -/
  workers : Option Nat
  ignored : Ignored
  deriving DecidableEq, Repr

namespace Config

def usual : Config :=
  ⟨false, false, .binary, none, .platform⟩

def workerCount? (c : Config) : Option Nat :=
  c.workers.map (max 1)

/-! ## The file's text -/

def debugSymbolsKey : String := "include_debug_symbols"

def externalReferencesKey : String := "include_external_references"

def modeKey : String := "mode"

def workersKey : String := "workers"

def ignoredKey : String := "ignored_modules"

def keys : List String :=
  [debugSymbolsKey, externalReferencesKey, modeKey, workersKey, ignoredKey]

/-- Every setting has an entry, in this order, and the count of modules at a time where it is set. -/
def entries (c : Config) : Entries :=
  [(debugSymbolsKey, .boolean c.debugSymbols), (externalReferencesKey, .boolean c.externalReferences),
    (modeKey, .text c.mode.name)] ++
    (c.workers.map fun n => (workersKey, .plain (.integer n))).toList ++
    [(ignoredKey, .array (c.ignored.patterns.map .text))]

def write? (c : Config) (toml : Codec := .standard) : Option String :=
  toml.write? c.entries

/-- The text of a configuration, empty where it has none. -/
def write (c : Config) (toml : Codec := .standard) : String :=
  (c.write? toml).getD ""

def boolean? : Value → Option Bool
  | .boolean b => some b
  | _ => none

def count? : Value → Option Nat
  | .plain (.integer n) => if 0 ≤ n then some n.toNat else none
  | _ => none

def texts? : Value → Option (List String)
  | .array l => l.mapM Value.text?
  | _ => none

/-- A mode is a text, or a table whose only key is the mode and has nothing below it. -/
def mode? : Value → Option ParseMode
  | .text s => ParseMode.ofName? s
  | .inlineTable [(key, .inlineTable [])] => ParseMode.ofName? key
  | _ => none

/-- The setting of a key, or the usual one; none when the entry is not of its type. -/
def setting? {α : Type} (entries : Entries) (key : String) (read : Value → Option α) (usual : α) :
    Option α :=
  match entries.lookup key with
  | some v => read v
  | none => some usual

/-- A key that counts has one entry at most. -/
def hasRepeatedKey (entries : Entries) : Bool :=
  keys.any fun key => 1 < (entries.filter (·.1 == key)).length

/-- The mode that a header in a document of nothing else sets. -/
def headerMode? (d : Document) : Option ParseMode :=
  match d.entries, d.tables with
  | [], [⟨key :: inner, _, []⟩] =>
    if key == modeKey then inner.getLast?.bind ParseMode.ofName? else none
  | _, _ => none

def ofDocument? (d : Document) : Option Config :=
  match headerMode? d with
  | some mode => some { usual with mode }
  | none => do
    if d.tables.any (fun t => t.header.head?.any keys.contains) || hasRepeatedKey d.entries then failure
    return {
      debugSymbols := ← setting? d.entries debugSymbolsKey boolean? usual.debugSymbols
      externalReferences := ← setting? d.entries externalReferencesKey boolean? usual.externalReferences
      mode := ← setting? d.entries modeKey mode? usual.mode
      workers := ← setting? d.entries workersKey (fun v => (count? v).map some) usual.workers
      ignored := ← setting? d.entries ignoredKey (fun v => (texts? v).map Ignored.mk) usual.ignored }

def read? (text : String) (toml : Codec := .standard) : Option Config :=
  (toml.read? text).bind ofDocument?

/-! ## The file -/

def directoryName : String := ".depgraph"

def fileName : String := "config.toml"

def pathFor (input : String) : String :=
  let directory := (Path.parent? input).getD ""
  Path.join (Path.join (if directory.isEmpty then "." else directory) directoryName) fileName

def loadStrict (t : FileTree) (path : String) (toml : Codec := .standard) : Except Failure Config :=
  match t.readText path with
  | .error e => .error (.inputOutput e.message)
  | .ok text =>
    match read? text toml with
    | some c => .ok c
    | none => .error .config

def load (t : FileTree) (path : String) (toml : Codec := .standard) : Config :=
  match loadStrict t path toml with
  | .ok c => c
  | .error _ => usual

/-- Writes a file with the directories around it. -/
def saveText (text : String) (t : FileTree) (path : String) (modified : Nat) : Except FileError FileTree := do
  let t ← match Path.parent? path with
    | some directory => t.makeDirectories directory
    | none => .ok t
  t.write path ⟨text.toUTF8.data, modified⟩

/-- Nothing is written where a configuration has no text. -/
def save (c : Config) (t : FileTree) (path : String) (modified : Nat) (toml : Codec := .standard) :
    Except Failure FileTree :=
  match c.write? toml with
  | none => .error .config
  | some text => (saveText text t path modified).mapError fun e => .inputOutput e.message

end Config

end CodeGraph
