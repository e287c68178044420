import PhpRename.Error
import PhpRename.Glob.Parse
import PhpRename.Text.Ascii

/-!
# Selecting the files of a run

A file that is named is always taken. A directory stands for the files below it that have one of the
extensions and whose path, seen from the directory, matches none of the excluding patterns. The result
is ordered and holds each file once.
-/

set_option autoImplicit false

namespace PhpRename

/-- Which files below a directory are taken. -/
structure Selection where
  /-- The extensions, compared without regard to letter case. -/
  extensions : List String := ["php"]
  /-- The patterns of the paths that are left out. -/
  exclude : List String := []
  deriving DecidableEq, Repr

namespace Selection

/-- Reads an excluding pattern. -/
def readPattern (pattern : String) : Except RunError Glob :=
  (Glob.parse pattern).mapError fun fault =>
    .invalidArguments ("invalid exclude pattern '" ++ pattern ++ "': error parsing glob '" ++ pattern ++
      "': " ++ fault.message)

/-- The excluding patterns of a selection, or what is wrong with the first faulty one. -/
def patterns (s : Selection) : Except RunError (List Glob) := s.exclude.mapM readPattern

/-- Whether a file's name has one of the extensions; one that is no UTF-8 is none of them. -/
def wantsName (s : Selection) (name : Bytes) : Bool :=
  ((Path.extensionOf? name).bind Utf8.decode?).any fun e => s.extensions.any (Ascii.sameIgnoringCase · e)

/-- Whether the file at the given names below a directory is taken. -/
def wants (s : Selection) (excluded : List Glob) (names : Names) : Bool :=
  names.getLast?.any s.wantsName && !excluded.any (·.accepts (Path.ofNames false names).bytes)

/-- The files that a path stands for. -/
def filesOf (s : Selection) (t : FileTree) (excluded : List Glob) (path : Path) :
    Except RunError (List Path) :=
  let full := t.absolute path
  match t.find full with
  | .ok (_, .file _) => .ok [full]
  | .ok (dir, .directory) =>
    .ok (((t.filesBelow dir).filter (s.wants excluded)).map fun names =>
      full.push (Path.ofNames false names))
  | .error _ => .error (.fileNotFound path.text)

/-- The files that paths stand for, in order and each once. -/
def collect (s : Selection) (t : FileTree) (paths : List Path) : Except RunError (List Path) := do
  let excluded ← s.patterns
  let found ← paths.mapM (s.filesOf t excluded)
  return found.flatten.foldl (fun files file => file.insertSorted files) []

end Selection

end PhpRename
