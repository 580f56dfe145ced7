import CodeGraph.Name.Canonical

namespace CodeGraph.CommandLine

/-!
# Arguments

An argument list says what to do, with what input, and which switches are on. The path of a
configuration may be given before or after the name of the command.
-/

inductive Argument where
  | switch (name : String)
  | config (path : String)
  | positional (text : String)
  /-- Whatever comes behind it is positional. -/
  | separator
  deriving DecidableEq, Repr

/-- A single dash is a text like any other. -/
def isOption (text : String) : Bool :=
  text != "-" && Text.startsWith "-" text

def option? (text : String) : Option Argument :=
  match Text.dropPrefix? "--config=" text, Text.dropPrefix? "--" text, Text.dropPrefix? "-c" text with
  | some path, _, _ => some (.config path)
  | none, some name, _ => some (.switch name)
  | none, none, some path => some (.config ((Text.dropPrefix? "=" path).getD path))
  | none, none, none => none

def arguments? : List String → Option (List Argument)
  | [] => some []
  | "--" :: rest => some (.separator :: rest.map .positional)
  | arg :: rest =>
    if !isOption arg then (arguments? rest).map (.positional arg :: ·)
    else if arg == "-c" || arg == "--config" then
      match rest with
      | path :: rest => if isOption path then none else (arguments? rest).map (.config path :: ·)
      | [] => none
    else do return (← option? arg) :: (← arguments? rest)

namespace Argument

def switch? : Argument → Option String
  | switch name => some name
  | _ => none

def config? : Argument → Option String
  | config path => some path
  | _ => none

def positional? : Argument → Option String
  | positional text => some text
  | _ => none

end Argument

/-! ## Commands -/

structure InputArguments where
  input : String
  source : Bool
  debugSymbols : Bool
  externals : Bool
  deriving DecidableEq, Repr

inductive Command where
  | parse (input : InputArguments)
  | stats (input : InputArguments) (json : Bool)
  | source (input : InputArguments) (node : String)
  | nodeFor (input : InputArguments) (file : String) (line : Nat)
  | files (input : InputArguments)
  | newest (input : InputArguments)
  | init (input : String) (force : Bool)
  deriving DecidableEq, Repr

structure Request where
  config : Option String
  command : Command
  deriving DecidableEq, Repr

def path? (text : String) : Option String :=
  if text.isEmpty then none else some text

/-- A number of 64 bits in decimal digits, with or without a plus sign. -/
def line? (text : String) : Option Nat :=
  let digits := ((Text.dropPrefix? "+" text).getD text).toList
  let n := Name.digitsValue digits
  if !digits.isEmpty && digits.all Char.isDigit && n < Nat.pow 2 64 then some n else none

def sourceSwitch : String := "source"

def debugSymbolsSwitch : String := "debug-symbols"

def externalsSwitch : String := "external"

def jsonSwitch : String := "json"

def forceSwitch : String := "force"

def inputSwitches : List String :=
  [sourceSwitch, debugSymbolsSwitch, externalsSwitch]

/-- An input with switches of which all are known to the command and none is repeated. -/
def input? (text : String) (switches more : List String) : Option InputArguments := do
  if !switches.all (inputSwitches ++ more).contains then failure
  return {
    input := ← path? text
    source := switches.contains sourceSwitch
    debugSymbols := switches.contains debugSymbolsSwitch
    externals := switches.contains externalsSwitch }

def command? (name : String) (texts switches : List String) : Option Command :=
  match name, texts with
  | "parse", [input] => do return .parse (← input? input switches [])
  | "stats", [input] => do
    return .stats (← input? input switches [jsonSwitch]) (switches.contains jsonSwitch)
  | "source", [input, node] => do return .source (← input? input switches []) node
  | "node-for", [input, file, line] => do
    return .nodeFor (← input? input switches []) (← path? file) (← line? line)
  | "files", [input] => do return .files (← input? input switches [])
  | "newest", [input] => do return .newest (← input? input switches [])
  | "init", [input] =>
    if switches.all (· == forceSwitch) then do
      return .init (← path? input) (switches.contains forceSwitch)
    else none
  | _, _ => none

/-- The configuration that is named on one side of the command's name, which may be none. -/
def oneConfig? (arguments : List Argument) : Option (Option String) :=
  match arguments.filterMap (·.config?) with
  | [] => some none
  | [path] => (path? path).map some
  | _ => none

/-- Reads an argument list; none when it is refused. A configuration named after the command wins over
one named before it. -/
def Request.read? (args : List String) : Option Request := do
  let arguments ← arguments? args
  let before := arguments.takeWhile fun a => a.config?.isSome
  let .positional name :: after := arguments.dropWhile fun a => a.config?.isSome | none
  let switches := after.filterMap (·.switch?)
  if !decide switches.Nodup then failure
  let outer ← oneConfig? before
  let inner ← oneConfig? after
  return ⟨inner.or outer, ← command? name (after.filterMap (·.positional?)) switches⟩

end CodeGraph.CommandLine
