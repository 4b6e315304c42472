import KlarAudit.File.Glob
import KlarAudit.File.Tree
import KlarAudit.Settings.RuleSet
import KlarAudit.Text.Affix

/-!
# The files to audit

A path to a file stands for that file. A path to a directory stands for the files below it that have
one of the extensions and are not excluded; directories that hold no sources are not entered, and
neither are links to directories.

## Main definitions

* `RuleSet.excludes`, `RuleSet.enters`, `RuleSet.takes`: what a rule set says about a path below a
  directory
* `selectedIn`: the files below a directory
* `discover`: the files that some paths stand for
-/

namespace KlarAudit

/-- Directories that hold no sources, but histories, caches, dependencies and products. -/
def idleDirectories : List String :=
  [".git", ".hg", ".svn", ".zig-cache", "zig-cache", "zig-out", "node_modules", "__pycache__",
   ".venv", "venv", "dist", "build", "target"]

namespace RuleSet

/-- **The path is excluded**: it or its last name matches a pattern. -/
def excludes (s : RuleSet) (p : Path) : Bool :=
  s.exclude.any fun pattern => globMatches pattern p.render || globMatches pattern p.name

/-- The directory is entered. -/
def enters (s : RuleSet) (p : Path) : Bool :=
  !idleDirectories.contains p.name && !s.excludes p

/-- The file is taken. -/
def takes (s : RuleSet) (p : Path) : Bool :=
  s.extensions.contains p.suffix && !s.excludes p

end RuleSet

/-- **Why a path stands for no files.** -/
inductive PathError where
  /-- It leads nowhere; this is the path as it was given. -/
  | missing (path : String)
  /-- It is too long to lead anywhere. -/
  | tooLong (path : String)
deriving DecidableEq, Repr, Inhabited

/-- The wording of the reason. -/
def PathError.message : PathError → String
  | missing path => "Path does not exist: " ++ path
  | tooLong path => FileError.nameTooLong.reason ++ ": " ++ Text.quoted path

mutual

/-- The files at and below a node of the directory `place`, by their paths from the directory where
the walk began, which is `outer` away. A link counts as a file, unless it leads to a directory. -/
def selectedAt (s : RuleSet) (fs : FileSystem) (place outer : List String) (name : String) :
    FileNode → List Path
  | .file _ => [⟨0, outer ++ [name]⟩].filter s.takes
  | .link _ =>
    if fs.linksToDirectory place name then [] else [⟨0, outer ++ [name]⟩].filter s.takes
  | .directory entries =>
    if s.enters ⟨0, outer ++ [name]⟩ then
      selectedIn s fs (place ++ [name]) (outer ++ [name]) entries
    else []

/-- **The files below a directory** with the given entries. -/
def selectedIn (s : RuleSet) (fs : FileSystem) (place outer : List String) :
    List (String × FileNode) → List Path
  | [] => []
  | (name, node) :: entries =>
    selectedAt s fs place outer name node ++ selectedIn s fs place outer entries

end

/-- The files that a path stands for, as texts. -/
def filesOf (s : RuleSet) (fs : FileSystem) (text : String) : Except PathError (List String) :=
  let path := Path.ofText text
  match fs.stat path.render with
  | .error .nameTooLong => .error (.tooLong path.render)
  | .error _ => .error (.missing text)
  | .ok (_, .file _) => .ok [path.render]
  | .ok (place, node) =>
    .ok ((selectedIn s fs place [] node.entries).map fun p => (path.join p).render)

/-- **The files that some paths stand for**, in the order of their texts, each once. -/
def discover (s : RuleSet) (fs : FileSystem) (paths : List String) :
    Except PathError (List String) :=
  (paths.mapM (filesOf s fs)).map fun files => Text.sortedSet files.flatten

end KlarAudit
