import PhpRename.Path.Normal
import PhpRename.Text.Utf8

/-!
# File trees

A file system as a value: the names from the root lead to files and directories, and relative paths
start at a working directory. Each operation gives the new tree or the reason for which it fails;
one that fails leaves the tree as it was, creating several directories apart.
-/

set_option autoImplicit false

namespace PhpRename

/-- Why a file operation fails. -/
inductive FileError where
  | notFound
  | taken
  | busy
  | notDirectory
  | isDirectory
  | invalid
  | nameTooLong
  | notEmpty
  | nulByte
  | notText
  deriving DecidableEq, Repr

/-- The wording of a failure. -/
def FileError.message : FileError → String
  | notFound => "No such file or directory (os error 2)"
  | busy => "Device or resource busy (os error 16)"
  | taken => "File exists (os error 17)"
  | notDirectory => "Not a directory (os error 20)"
  | isDirectory => "Is a directory (os error 21)"
  | invalid => "Invalid argument (os error 22)"
  | nameTooLong => "File name too long (os error 36)"
  | notEmpty => "Directory not empty (os error 39)"
  | nulByte => "file name contained an unexpected NUL byte"
  | notText => "stream did not contain valid UTF-8"

/-- A file or a directory. -/
inductive Node where
  | file (content : Bytes)
  | directory
  deriving DecidableEq, Repr

/-- The names from the root to a node. -/
abbrev Names := List Bytes

/-- A file system. -/
structure FileTree where
  /-- Every node but the root. -/
  nodes : List (Names × Node) := []
  workingDirectory : Names := []
  deriving DecidableEq, Repr

namespace FileTree

/-- The node at given names; the root is a directory. -/
def node? (t : FileTree) (names : Names) : Option Node :=
  if names.isEmpty then some .directory else t.nodes.lookup names

/-- The tree with a node put at given names. -/
def put (t : FileTree) (names : Names) (node : Node) : FileTree :=
  { t with nodes := t.nodes.filter (·.1 != names) ++ [(names, node)] }

/-- The tree without the node at given names. -/
def remove (t : FileTree) (names : Names) : FileTree :=
  { t with nodes := t.nodes.filter (·.1 != names) }

/-- The tree with what lies at or below `source` moved to `target`. -/
def move (t : FileTree) (source target : Names) : FileTree :=
  { t with nodes := t.nodes.map fun (names, node) =>
      if source.isPrefixOf names then (target ++ names.drop source.length, node) else (names, node) }

/-- The working directory as a path. -/
def workingPath (t : FileTree) : Path := Path.ofNames true t.workingDirectory

/-- A path made absolute against the working directory, and normalized. -/
def absolute (t : FileTree) (p : Path) : Path := Path.absolute p t.workingPath

/-! ## Following paths -/

/-- The longest name of a node, in bytes. -/
def maxNameLength : Nat := 255

/-- Whether a name is too long. -/
def isTooLong (name : Bytes) : Bool := maxNameLength < name.length

/-- A path that is ready to be followed: where it starts, its steps, and whether it asks for a
directory. -/
structure Route where
  start : Names
  steps : List Bytes
  wantsDirectory : Bool
  deriving DecidableEq, Repr

/-- Where a path starts: at the root or in the working directory. -/
def startOf (t : FileTree) (p : Path) : Names := if p.isAbsolute then [] else t.workingDirectory

/-- Whether a path asks for a directory, by a slash or a dot at its end. -/
def wantsDirectory (p : Path) : Bool := (Path.segments p.bytes).getLast?.any Path.isSilent

/-- The route of a path. -/
def route (t : FileTree) (p : Path) : Except FileError Route :=
  if p.bytes.contains 0 then .error .nulByte
  else if p.bytes.isEmpty then .error .notFound
  else .ok
    { start := t.startOf p
      steps := p.steps
      wantsDirectory := wantsDirectory p }

/-- Follows steps from a directory to a directory. -/
def follow (t : FileTree) : Names → List Bytes → Except FileError Names
  | dir, [] => .ok dir
  | dir, step :: rest =>
    if step == Path.dotDot then t.follow dir.dropLast rest
    else if isTooLong step then .error .nameTooLong
    else
      match t.node? (dir ++ [step]) with
      | none => .error .notFound
      | some (.file _) => .error .notDirectory
      | some .directory => t.follow (dir ++ [step]) rest

/-- The directory that a route ends in and its last step, for a route that ends with a name. -/
def enter (t : FileTree) (r : Route) : Except FileError (Names × Bytes) := do
  let dir ← t.follow r.start r.steps.dropLast
  match r.steps.getLast? with
  | none => .error .busy
  | some last =>
    if last == Path.dotDot then .error .busy
    else if isTooLong last then .error .nameTooLong
    else .ok (dir, last)

/-- The node that a path leads to. -/
def find (t : FileTree) (p : Path) : Except FileError (Names × Node) := do
  let r ← t.route p
  let dir ← t.follow r.start r.steps.dropLast
  match r.steps.getLast? with
  | none => .ok (dir, .directory)
  | some last =>
    if last == Path.dotDot then .ok (dir.dropLast, .directory)
    else if isTooLong last then .error .nameTooLong
    else
      match t.node? (dir ++ [last]) with
      | none => .error .notFound
      | some .directory => .ok (dir ++ [last], .directory)
      | some (.file content) =>
        if r.wantsDirectory then .error .notDirectory else .ok (dir ++ [last], .file content)

/-! ## Questions -/

/-- Whether a path leads to something. -/
def has (t : FileTree) (p : Path) : Bool := (t.find p).toOption.isSome

/-- Whether a path leads to a file. -/
def isFile (t : FileTree) (p : Path) : Bool :=
  match t.find p with
  | .ok (_, .file _) => true
  | _ => false

/-- Whether a path leads to a directory. -/
def isDirectory (t : FileTree) (p : Path) : Bool :=
  match t.find p with
  | .ok (_, .directory) => true
  | _ => false

/-- The content of a file. -/
def read (t : FileTree) (p : Path) : Except FileError Bytes := do
  match ← t.find p with
  | (_, .file content) => .ok content
  | (_, .directory) => .error .isDirectory

/-- The content of a file as text. -/
def readText (t : FileTree) (p : Path) : Except FileError String := do
  let content ← t.read p
  match Utf8.decode? content with
  | some text => .ok text
  | none => .error .notText

/-- The names of the files below a directory, seen from it. -/
def filesBelow (t : FileTree) (dir : Names) : List Names :=
  t.nodes.filterMap fun (names, node) =>
    match node with
    | .file _ => if dir.isPrefixOf names then some (names.drop dir.length) else none
    | .directory => none

/-! ## Changes -/

/-- Writes a file, making it where there is none. -/
def write (t : FileTree) (p : Path) (content : Bytes) : Except FileError FileTree := do
  let r ← t.route p
  let (dir, name) ← t.enter r
  match t.node? (dir ++ [name]) with
  | some .directory => .error .isDirectory
  | some (.file _) =>
    if r.wantsDirectory then .error .notDirectory else .ok (t.put (dir ++ [name]) (.file content))
  | none =>
    if r.wantsDirectory then .error .isDirectory else .ok (t.put (dir ++ [name]) (.file content))

/-- Removes a file. -/
def removeFile (t : FileTree) (p : Path) : Except FileError FileTree := do
  let r ← t.route p
  let (dir, name) ← t.enter r
  match t.node? (dir ++ [name]) with
  | none => .error .notFound
  | some .directory => .error .isDirectory
  | some (.file _) => if r.wantsDirectory then .error .notDirectory else .ok (t.remove (dir ++ [name]))

/-- Makes a directory. -/
def makeDirectory (t : FileTree) (start : Names) (steps : List Bytes) : Except FileError FileTree :=
  match t.enter ⟨start, steps, true⟩ with
  | .error .busy => .error .taken
  | .error e => .error e
  | .ok (dir, name) =>
    if (t.node? (dir ++ [name])).isSome then .error .taken
    else .ok (t.put (dir ++ [name]) .directory)

/-- Whether steps lead to a directory. -/
def leadsToDirectory (t : FileTree) (start : Names) (steps : List Bytes) : Bool :=
  (t.follow start steps).toOption.isSome

/-- Makes a directory and those above it that are missing. What has been made stays when a later
one fails. -/
def makeDirectories (t : FileTree) (start : Names) (steps : List Bytes) :
    FileTree × Except FileError Unit :=
  if _h : steps = [] then (t, .ok ())
  else
    match t.makeDirectory start steps with
    | .ok t => (t, .ok ())
    | .error .notFound =>
      match t.makeDirectories start steps.dropLast with
      | (t, .error e) => (t, .error e)
      | (t, .ok ()) =>
        match t.makeDirectory start steps with
        | .ok t => (t, .ok ())
        | .error e => if t.leadsToDirectory start steps then (t, .ok ()) else (t, .error e)
    | .error e => if t.leadsToDirectory start steps then (t, .ok ()) else (t, .error e)
termination_by steps.length
decreasing_by
  have := List.length_pos_iff.2 _h
  simp only [List.length_dropLast]
  omega

/-- Makes the directory of a path and those above it that are missing. -/
def makePath (t : FileTree) (p : Path) : FileTree × Except FileError Unit :=
  if p.bytes.isEmpty then (t, .ok ())
  else
    match t.route p with
    | .error e => (t, .error e)
    | .ok r => t.makeDirectories r.start r.steps

/-- Gives a file or directory a new path. A file takes the place of a file, a directory that of an
empty directory. -/
def rename (t : FileTree) (source target : Path) : Except FileError FileTree := do
  let sourceRoute ← t.route source
  let targetRoute ← t.route target
  let (sourceDir, sourceName) ← t.enter sourceRoute
  let (targetDir, targetName) ← t.enter targetRoute
  let old := sourceDir ++ [sourceName]
  let new := targetDir ++ [targetName]
  match t.node? old, t.node? new with
  | none, _ => .error .notFound
  | some (.file _), some .directory => .error .isDirectory
  | some (.file content), _ =>
    if sourceRoute.wantsDirectory || targetRoute.wantsDirectory then .error .notDirectory
    else if old == new then .ok t
    else .ok ((t.remove old).put new (.file content))
  | some .directory, other =>
    if old == new then .ok t
    else if old.isPrefixOf new then .error .invalid
    else
      match other with
      | some (.file _) => .error .notDirectory
      | some .directory =>
        if t.nodes.any fun n => new.isPrefixOf n.1 && n.1 != new then .error .notEmpty
        else .ok ((t.remove new).move old new)
      | none => .ok (t.move old new)

/-- The tree with a directory and those above it. -/
def withDirectory (t : FileTree) (names : Names) : FileTree :=
  ((List.range (names.length + 1)).map names.take).foldl
    (fun t names => if (t.node? names).isSome then t else t.put names .directory) t

/-- The tree with a file and the directories above it. -/
def withFile (t : FileTree) (names : Names) (content : Bytes) : FileTree :=
  (t.withDirectory names.dropLast).put names (.file content)

end FileTree

end PhpRename
