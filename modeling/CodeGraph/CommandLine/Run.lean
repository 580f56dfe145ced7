import CodeGraph.CommandLine.Arguments
import CodeGraph.Graph.Collected
import CodeGraph.Parse
import CodeGraph.RelevantFiles
import CodeGraph.SourceText
import CodeGraph.Timestamp

namespace CodeGraph.CommandLine

/-!
# Commands

A command prints a text, and may then fail. Only one command changes files: it writes the usual
configuration.
-/

inductive CommandFailure where
  | failure (failure : Failure)
  /-- The input whose nodes were to be located cannot be parsed. -/
  | unparsed (input : String)
  | noLocations
  | alreadyThere (path : String)
  deriving DecidableEq, Repr

namespace CommandFailure

def message : CommandFailure → String
  | failure f => f.message
  | unparsed input => "parsing " ++ input
  | noLocations => "no source locations found (missing .pdb files?)"
  | alreadyThere path => path ++ " already exists (use --force to overwrite)"

end CommandFailure

structure Finished where
  /-- The text to print, given how long the command took. -/
  output : (elapsedMs : Nat) → String
  failure : Option CommandFailure
  tree : FileTree

namespace Finished

def printing (t : FileTree) (text : String) : Finished :=
  ⟨fun _ => text, none, t⟩

def failed (t : FileTree) (f : CommandFailure) : Finished :=
  ⟨fun _ => "", some f, t⟩

def complaint? (f : Finished) : Option String :=
  f.failure.map fun e => "Error: " ++ e.message ++ "\n"

def exitCode (f : Finished) : Nat :=
  if f.failure.isSome then 1 else 0

end Finished

def refusedCode : Nat := 2

def textOfLines (lines : List String) : String :=
  String.join (lines.map (· ++ "\n"))

namespace InputArguments

/-- The configuration of an input, where switches that are on win. -/
def config (a : InputArguments) (t : FileTree) (path : Option String) : Config :=
  let c := Config.load t (path.getD (Config.pathFor a.input))
  { c with
    mode := if a.source then .source else c.mode
    debugSymbols := c.debugSymbols || a.debugSymbols
    externalReferences := c.externalReferences || a.externals }

def parse (a : InputArguments) (t : FileTree) (path : Option String) : Outcome :=
  CodeGraph.parse t (a.config t path) a.input none

def locator (a : InputArguments) (t : FileTree) (path : Option String) :
    Except CommandFailure Locator :=
  let outcome := CodeGraph.parse t { a.config t path with debugSymbols := true } a.input none
  match outcome.result with
  | .error _ => .error (.unparsed a.input)
  | .ok _ =>
    let locator := Locator.ofItems outcome.items
    if locator.isEmpty then .error .noLocations else .ok locator

end InputArguments

def statsText (summary : Summary) (stats : Graph.Stats) : String :=
  summary.report ++ "\n\n" ++ stats.report ++
    if summary.skipped.isEmpty then ""
    else "\nSkipped (no build output):\n" ++ textOfLines (summary.skipped.map ("  " ++ ·))

def statsJson (summary : Summary) (stats : Graph.Stats) : String :=
  (Json.obj [("graph", stats.toJson), ("summary", summary.toJson)]).pretty ++ "\n"

def nodeAt (locator : Locator) (t : FileTree) (file : String) (line : Nat) : Except CommandFailure String :=
  (locator.nodeAt ((t.canonical? file).getD file) line).mapError .failure

/-- Writes the usual configuration where it is not there yet. -/
def writeConfig (t : FileTree) (path : String) (force : Bool) : Finished :=
  if t.contains path && !force then .failed t (.alreadyThere path)
  else
    match Config.usual.save t path 0 with
    | .ok t => .printing t ("Wrote " ++ path ++ "\n")
    | .error f => .failed t (.failure f)

/-- Prints a text, unless there is none. -/
def printed (t : FileTree) : Except CommandFailure String → Finished
  | .ok text => .printing t text
  | .error f => .failed t f

def Request.run (r : Request) (t : FileTree) : Finished :=
  match r.command with
  | .parse a =>
    let outcome := a.parse t r.config
    let text := textOfLines (outcome.items.map (·.toJson.compact))
    match outcome.result with
    | .ok _ => .printing t text
    | .error f => ⟨fun _ => text, some (.failure f), t⟩
  | .stats a json =>
    let outcome := a.parse t r.config
    match outcome.result with
    | .ok summary =>
      let stats := (Graph.ofItems outcome.items).stats
      ⟨fun elapsedMs => (if json then statsJson else statsText) { summary with elapsedMs } stats, none, t⟩
    | .error f => .failed t (.failure f)
  | .source a node => printed t do
    let source ← ((← a.locator t r.config).source t node).mapError .failure
    return source.path ++ ":" ++ toString source.line ++ "\n\n" ++ source.text
  | .nodeFor a file line => printed t do
    return (← nodeAt (← a.locator t r.config) t file line) ++ "\n"
  | .files a => printed t <|
    ((relevantFiles t a.input (a.config t r.config).mode).map textOfLines).mapError .failure
  | .newest a => printed t do
    let files ← (relevantFiles t a.input (a.config t r.config).mode).mapError .failure
    return match newestChange? t files with
      | some time => Timestamp.text time ++ "\n"
      | none => "No relevant files exist\n"
  | .init input force => writeConfig t (r.config.getD (Config.pathFor input)) force

end CodeGraph.CommandLine
