import CodeGraph.CommandLine.Run

/-!
# The program

Commands run on a tree of files, so the files that a request can lead to are read before it runs, and
those that it changed are written afterwards.
-/

namespace CodeGraph.CommandLine

/-- Where a path leads from a place when no link is on the way. -/
def placeOf (current : Place) (path : String) : Place :=
  (Path.components (Path.normalize (Path.join ("/" ++ Text.joinWith "/" current) path))).filterMap fun
    | .name n => some n
    | _ => none

def pathOf (place : Place) : String :=
  "/" ++ Text.joinWith "/" place

def Command.inputs : Command → String × List String
  | .parse a | .stats a _ | .files a | .newest a => (a.input, [])
  | .source a _ => (a.input, [])
  | .nodeFor a file _ => (a.input, [file])
  | .init input _ => (input, [])

def projectsOf (t : FileTree) (input : String) : List String :=
  match InputKind.ofPath? input with
  | some .solution => ((Solution.ofFile t input).toOption.map (·.projects.map (·.path))).getD []
  | some .project => [input]
  | _ => []

def referencesOf (t : FileTree) (input : String) : List String :=
  (projectsOf t input).flatMap fun path =>
    ((Project.ofFile t path).toOption.map (·.projectReferences)).getD []

def loadFile (t : FileTree) (place : Place) : IO FileTree := do
  try
    let data ← IO.FS.readBinFile (pathOf place)
    let time := (← (← IO.FS.realPath (pathOf place)).metadata).modified
    return t.putAt place ⟨data.data, time.sec.toNat * Timestamp.perSecond + time.nsec.toNat⟩
  catch _ => return t

partial def loadDirectory (t : FileTree) (place : Place) : IO FileTree := do
  try
    let mut t := t.makeDirectoryAt place
    for entry in ← (← IO.FS.realPath (pathOf place)).readDir do
      let place := place ++ [entry.fileName]
      t ← if ← entry.path.isDir then loadDirectory t place else loadFile t place
    return t
  catch _ => return t

def load (t : FileTree) (path : String) : IO FileTree := do
  let place := placeOf t.current path
  let found ← try (← IO.FS.realPath (pathOf place)).isDir catch _ => pure false
  if found then loadDirectory t place else loadFile (t.makeDirectoryAt place.dropLast) place

def loadMissing (t : FileTree) (paths : List String) : IO FileTree :=
  paths.foldlM (fun t path => if t.contains path then pure t else load t path) t

def surroundings (r : Request) : IO FileTree := do
  let current := placeOf [] (← IO.currentDir).toString
  let (input, others) := r.command.inputs
  let directory := directoryOf input
  let t ← load ((FileTree.empty current).makeDirectoryAt current) (if directory.isEmpty then "." else directory)
  let t ← loadMissing t (r.config.toList ++ others)
  let projects := projectsOf t input
  let t ← loadMissing t ((projects.filter (! t.isFile ·)).map directoryOf)
  loadMissing t (referencesOf t input)

/-- Runs a request on a tree, or on a larger one: a file that turns out to be needed is read, and then
the request runs again. -/
def runOnDisk (r : Request) (t : FileTree) : IO (FileTree × Finished) := do
  let f := r.run t
  match f.failure with
  | some (.failure (.moduleNotFound path)) =>
    let t ← loadMissing t [path]
    return (t, if t.contains path then r.run t else f)
  | _ => return (t, f)

def store (before after : FileTree) : IO Unit :=
  for (place, file) in after.files do
    if (before.fileAt? place).map (·.data) != some file.data then
      IO.FS.createDirAll (pathOf place.dropLast)
      IO.FS.writeBinFile (pathOf place) ⟨file.data⟩

end CodeGraph.CommandLine

open CodeGraph.CommandLine in
def main (args : List String) : IO UInt32 := do
  match Request.read? args with
  | none =>
    IO.eprintln "error: the arguments are not understood"
    return refusedCode.toUInt32
  | some r =>
    let started ← IO.monoMsNow
    let t ← surroundings r
    let (t, f) ← runOnDisk r t
    store t f.tree
    IO.print (f.output ((← IO.monoMsNow) - started))
    if let some complaint := f.complaint? then IO.eprint complaint
    return f.exitCode.toUInt32
