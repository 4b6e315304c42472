import KlarAudit.File.Path

/-!
# Directory trees

A file system is a tree of directories, files and links, with a working directory. A path is looked
up name by name; a link on the way is followed by looking up its target from where it stands, for a
bounded number of links.

## Main definitions

* `FileNode`: a file, a link or a directory
* `FileError`: why a path leads to nothing that can be used
* `FileSystem`, `FileSystem.resolve`: a file system, and where a path leads
* `FileSystem.stat`, `FileSystem.read`, `FileSystem.write`: what is there, its bytes, new bytes
* `FileSystem.changes`: the files in which two file systems differ
-/

namespace KlarAudit

/-- **A node of a directory tree.** -/
inductive FileNode where
  /-- A file with its bytes. -/
  | file (bytes : List UInt8)
  /-- A link to a path. -/
  | link (target : String)
  /-- A directory with its named nodes. -/
  | directory (entries : List (String × FileNode))
deriving Repr, Inhabited

namespace FileNode

/-- The node is a directory. -/
def isDirectory : FileNode → Bool
  | directory _ => true
  | _ => false

/-- The nodes in a directory; there are none elsewhere. -/
def entries : FileNode → List (String × FileNode)
  | directory es => es
  | _ => []

/-- The entries with the node of the given name changed; a name that is not there gets what is made
of no node. -/
def change (name : String) (f : Option FileNode → FileNode) :
    List (String × FileNode) → List (String × FileNode)
  | [] => [(name, f none)]
  | (n, node) :: es => if n = name then (n, f (some node)) :: es else (n, node) :: change name f es

/-- The tree with the node `new` at the end of the given names. Directories are made on the way. -/
def insert (new : FileNode) : List String → Option FileNode → FileNode
  | [], _ => new
  | name :: names, node? =>
    .directory (change name (insert new names) ((node?.map entries).getD []))

/-- **The node at the end of the given names**, without following links. -/
def at? : List String → FileNode → Option FileNode
  | [], node => some node
  | name :: names, node => (node.entries.lookup name).bind (at? names)

end FileNode

/-- **Why a path leads to nothing that can be used.** -/
inductive FileError where
  /-- A name on the path is not there. -/
  | notFound
  /-- A name on the path, not the last one, is not that of a directory. -/
  | notDirectory
  /-- A file is wanted, and a directory is there. -/
  | isDirectory
  /-- Too many links have been followed. -/
  | tooManyLinks
  /-- The path, or a name on it, is too long. -/
  | nameTooLong
deriving DecidableEq, Repr, Inhabited

/-- The reason in words. -/
def FileError.reason : FileError → String
  | notFound => "No such file or directory"
  | notDirectory => "Not a directory"
  | isDirectory => "Is a directory"
  | tooManyLinks => "Too many levels of symbolic links"
  | nameTooLong => "File name too long"

/-- The number of the reason. -/
def FileError.code : FileError → Nat
  | notFound => 2
  | notDirectory => 20
  | isDirectory => 21
  | tooManyLinks => 40
  | nameTooLong => 36

/-- **The steps of a path**: its names in order. A slash at the end is one more step, which is
empty; all other empty steps are left out. -/
def pathSteps (text : String) : List String :=
  let steps := Text.divide '/' text
  match steps.getLast? with
  | some "" => steps.filter (· != "") ++ [""]
  | _ => steps.filter (· != "")

/-- The path starts from the root. -/
def startsAtRoot (text : String) : Bool :=
  Text.startsWith "/" text

/-- **Where a path leads**, by names from the root. -/
inductive Destination where
  /-- To a file or directory. -/
  | node (place : List String)
  /-- To a name that is not there, in a directory. -/
  | free (directory : List String) (name : String)
deriving DecidableEq, Repr, Inhabited

/-- **A file system**: a tree, and the names of its working directory. -/
structure FileSystem where
  /-- The root directory. -/
  root : FileNode := .directory []
  /-- The names of the working directory. -/
  working : List String := []
deriving Repr, Inhabited

namespace FileSystem

/-- The greatest number of links that are followed. -/
def maxLinks : Nat :=
  40

/-- The greatest number of bytes of a name. -/
def maxNameBytes : Nat :=
  255

/-- The greatest number of bytes of a path. -/
def maxPathBytes : Nat :=
  4095

/-- **Following steps** from the directory `place` until the first link. The place of a link and its
target go to `jump`, with the steps that are left. If a file may be `made`, its path must not end
with a slash. -/
def followWith (fs : FileSystem) (made : Bool)
    (jump : List String → String → List String → Except FileError Destination)
    (place : List String) : List String → Except FileError Destination
  | [] => .ok (.node place)
  | step :: steps =>
    match fs.root.at? place with
    | some (.directory entries) =>
      if Path.isIdle step then fs.followWith made jump place steps
      else if step = ".." then fs.followWith made jump place.dropLast steps
      else if made && steps == [""] then .error .isDirectory
      else if maxNameBytes < step.utf8ByteSize then .error .nameTooLong
      else
        match entries.lookup step with
        | none => if steps.isEmpty then .ok (.free place step) else .error .notFound
        | some (.link target) => jump place target steps
        | some _ => fs.followWith made jump (place ++ [step]) steps
    | some _ => .error .notDirectory
    | none => .error .notFound

/-- Following steps through at most `links` links. -/
def follow (fs : FileSystem) (made : Bool) :
    Nat → List String → List String → Except FileError Destination
  | 0 => fs.followWith made fun _ _ _ => .error .tooManyLinks
  | links + 1 => fs.followWith made fun place target steps =>
      fs.follow made links (if startsAtRoot target then [] else place) (pathSteps target ++ steps)

/-- **Where a path leads.** The empty path leads nowhere. -/
def resolve (fs : FileSystem) (made : Bool) (path : String) : Except FileError Destination :=
  if path = "" then .error .notFound
  else if maxPathBytes < path.utf8ByteSize then .error .nameTooLong
  else fs.follow made maxLinks (if startsAtRoot path then [] else fs.working) (pathSteps path)

/-- The place that a path leads to, and the node there. -/
def stat (fs : FileSystem) (path : String) : Except FileError (List String × FileNode) :=
  match fs.resolve false path with
  | .error e => .error e
  | .ok (.free _ _) => .error .notFound
  | .ok (.node place) =>
    match fs.root.at? place with
    | some node => .ok (place, node)
    | none => .error .notFound

/-- The path leads to a file. -/
def isFile (fs : FileSystem) (path : String) : Bool :=
  match fs.stat path with
  | .ok (_, .file _) => true
  | _ => false

/-- The path leads to a directory. -/
def isDirectory (fs : FileSystem) (path : String) : Bool :=
  match fs.stat path with
  | .ok (_, .directory _) => true
  | _ => false

/-- A link in the directory `place` leads to a directory. -/
def linksToDirectory (fs : FileSystem) (place : List String) (name : String) : Bool :=
  match fs.follow false maxLinks place [name] with
  | .ok (.node target) => (fs.root.at? target).any (·.isDirectory)
  | _ => false

/-- **The bytes of the file** that a path leads to. -/
def read (fs : FileSystem) (path : String) : Except FileError (List UInt8) :=
  match fs.stat path with
  | .error e => .error e
  | .ok (_, .file bytes) => .ok bytes
  | .ok (_, .directory _) => .error .isDirectory
  | .ok (_, .link _) => .error .notFound

/-- The file system with the node `new` at the given place. -/
def insert (fs : FileSystem) (place : List String) (new : FileNode) : FileSystem :=
  { fs with root := FileNode.insert new place (some fs.root) }

/-- **The file system with new bytes in the file** that a path leads to, which is made if it is not
there. -/
def write (fs : FileSystem) (path : String) (bytes : List UInt8) : Except FileError FileSystem :=
  match fs.resolve true path with
  | .error e => .error e
  | .ok (.free place name) => .ok (fs.insert (place ++ [name]) (.file bytes))
  | .ok (.node place) =>
    match fs.root.at? place with
    | some (.directory _) => .error .isDirectory
    | _ => .ok (fs.insert place (.file bytes))

mutual

/-- All files at and below a node, each with its place. -/
def filesAt (place : List String) : FileNode → List (List String × List UInt8)
  | .file bytes => [(place, bytes)]
  | .link _ => []
  | .directory entries => filesIn place entries

/-- All files below the entries of a directory, each with its place. -/
def filesIn (place : List String) : List (String × FileNode) → List (List String × List UInt8)
  | [] => []
  | (name, node) :: entries => filesAt (place ++ [name]) node ++ filesIn place entries

end

/-- **The files that are new or other in a later file system**, with their bytes there. -/
def changes (before later : FileSystem) : List (List String × List UInt8) :=
  (filesAt [] later.root).filter fun (place, bytes) =>
    match before.root.at? place with
    | some (.file old) => old != bytes
    | _ => true

end FileSystem

end KlarAudit
