import KlarAudit.Command.Invocation
import KlarAudit.Format.Plain

/-!
# The program

The program takes a picture of the files that its arguments and variables name, decides on that
picture what to do, and then writes and prints what was decided.

## Main definitions

* `picture`: the files that some paths name
* `carryOut`: writing and printing
* `main`: the program
-/

namespace KlarAudit

/-- A link that leads nowhere. -/
def brokenLink : FileNode :=
  .link "\x00"

/-- The variables that matter. -/
def variableNames : List String :=
  ["HOME", "XDG_CONFIG_HOME", "KLARLINT_CONFIG", "KLARLINT_WORKERS"]

/-- The place of a path, from the root. -/
def placeOf (working : List String) (path : Path) : List String :=
  path.names.foldl (fun place name => if name = ".." then place.dropLast else place ++ [name])
    (if path.slashes = 0 then working else [])

/-- The node of an entry of a directory. Directories that are never entered are left empty. -/
partial def nodeOfEntry (e : IO.FS.DirEntry) : IO FileNode := do
  try
    let linked := (← e.path.symlinkMetadata).type == .symlink
    if (← e.path.metadata).type != .dir then
      return .file (← IO.FS.readBinFile e.path).toList
    if linked then return .link "/"
    if idleDirectories.contains e.fileName then return .directory []
    let entries ← (← e.path.readDir).toList.mapM fun e => do return (e.fileName, ← nodeOfEntry e)
    return .directory entries
  catch _ => return brokenLink

/-- The picture with one more path. -/
def withPath (fs : FileSystem) (path : Path) : IO FileSystem := do
  let place := placeOf fs.working path
  try
    let real ← IO.FS.realPath path.render
    if (← real.metadata).type == .dir then
      let entries ← (← real.readDir).toList.mapM fun e => do return (e.fileName, ← nodeOfEntry e)
      return fs.insert place (.directory entries)
    else return fs.insert place (.file (← IO.FS.readBinFile real).toList)
  catch _ => return fs

/-- The picture with one more directory on the way to a path, as far as it is not there yet. -/
def withWay (fs : FileSystem) (path : Path) : IO FileSystem := do
  let place := placeOf fs.working path
  if (fs.root.at? place).isSome then return fs
  try
    let real ← IO.FS.realPath path.render
    if (← real.metadata).type == .dir then return fs.insert place (.directory [])
    else return fs.insert place (.file [])
  catch _ => return fs

/-- The paths on the way to a path, outermost first. -/
def waysTo (path : Path) : List Path :=
  (List.range path.names.length).map fun n => { path with names := path.names.take n }

/-- **The files that some paths name.** Outer directories come first, so that none hides what is
inside. -/
def picture (working : List String) (paths : List Path) : IO FileSystem := do
  let bare : FileSystem := { working, root := FileNode.insert (.directory []) working none }
  let sorted := paths.mergeSort fun p q =>
    decide ((placeOf working p).length ≤ (placeOf working q).length)
  let fs ← sorted.foldlM withPath bare
  (sorted.flatMap waysTo).foldlM withWay fs

/-- The texts in an argument that may be a path: the argument, what is joined to an option's name,
and what is joined to its letter. -/
def pathTexts (argument : String) : List String :=
  let cs := argument.toList
  let joined := (cs.dropWhile (· != '=')).drop 1
  argument :: [joined, cs.drop 2].filterMap fun cs =>
    if cs.isEmpty then none else some (String.ofList cs)

/-- Writing and printing what was decided. -/
def carryOut (before : FileSystem) (o : Outcome) : IO Unit := do
  for (place, bytes) in before.changes o.files do
    IO.FS.writeBinFile ("/" ++ Text.joinWith "/" place) ⟨bytes.toArray⟩
  for (channel, print) in o.prints do
    let text := Text.joinWith "\n" print.lines ++ "\n"
    match channel with
    | .output => IO.print text
    | .error => IO.eprint text
    | .file path _ => IO.FS.writeFile path ((← IO.FS.readFile path) ++ text)
  IO.print o.text
  match o.ending with
  | .usage e => IO.eprintln ("Error: " ++ e.message)
  | .breakdown b => IO.eprintln ("Error: " ++ b.message)
  | .exit _ => return ()

end KlarAudit

open KlarAudit in
/-- **The program.** -/
def main (args : List String) : IO UInt32 := do
  let bindings ← variableNames.filterMapM fun name => do
    return (← IO.getEnv name).map (name, ·)
  let environment : Environment := { bindings }
  let working := (Path.ofText (← IO.currentDir).toString).names
  let user := environment.settingsDirectory?.toList.map (·.join ⟨0, ["config.yaml"]⟩)
  let texts := (environment.get? "KLARLINT_CONFIG").toList ++ args.flatMap pathTexts
  let files ← picture working (⟨0, [".klarlint.yaml"]⟩ :: user ++ texts.map Path.ofText)
  let o := invoke { files, environment } args
  carryOut files o
  return UInt32.ofNat o.ending.code
