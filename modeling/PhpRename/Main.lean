import PhpRename.CommandLine.Execute

/-!
# The program

Takes in the part of the file system that a command line is about, carries the command line out on
it, and writes back what has changed.
-/

set_option autoImplicit false

namespace PhpRename.Program

/-- The path with the given names, as it is shown. -/
def textOf (names : Names) : String := (Path.ofNames true names).text

/-- The depth to which directories are taken in. -/
def maxDepth : Nat := 256

/-- Takes in what lies at and below a path, down to a depth. -/
def takeIn : Nat → FileTree → Names → IO FileTree
  | 0, t, _ => return t
  | depth + 1, t, names => do
    let real ← (IO.FS.realPath (textOf names)).toBaseIO
    match real with
    | .error _ => return t
    | .ok place =>
      if ← place.isDir then
        let entries ← place.readDir
        entries.foldlM (fun t e => takeIn depth t (names ++ [Utf8.encode e.fileName])) (t.withDirectory names)
      else return t.withFile names (← IO.FS.readBinFile place).toList

/-- Takes in the directories above a path and what lies at and below it. -/
def takeInAll (t : FileTree) (path : Path) : IO FileTree := do
  let names := (t.absolute path).normalNames
  let above := (List.range names.length).map names.take
  let t ← above.foldlM (fun t names => do
    let real ← (IO.FS.realPath (textOf names)).toBaseIO
    match real with
    | .error _ => return t
    | .ok place => if ← place.isDir then return t.withDirectory names else takeIn 1 t names) t
  takeIn maxDepth t names

/-- The paths that a command line is about. -/
def pathsOf (i : CommandLine.Invocation) : List Path :=
  i.paths ++ [i.settings.config.getD (.ofText Config.fileName)] ++
    match i.refactoring with
    | .renameFile old new => [old, new]
    | _ => []

/-- Writes back a file or directory that is new or has changed. -/
def writeNode (before : FileTree) (names : Names) (node : Node) : IO Unit := do
  if before.node? names != some node then
    match node with
    | .directory => IO.FS.createDirAll (textOf names)
    | .file content =>
      IO.FS.createDirAll (textOf names.dropLast)
      IO.FS.writeBinFile (textOf names) ⟨content.toArray⟩

/-- Writes back what has changed between two trees; new files come before old ones go. -/
def writeBack (before after : FileTree) : IO Unit := do
  for (names, node) in after.nodes do writeNode before names node
  for (names, _) in before.nodes do
    if (after.node? names).isNone then IO.FS.removeFile (textOf names)

end PhpRename.Program

open PhpRename in
/-- Carries out the command line. -/
def main (args : List String) : IO UInt32 := do
  let directory ← IO.currentDir
  let start : FileTree := { workingDirectory := Path.normalNames (.ofText directory.toString) }
  let start := start.withDirectory start.workingDirectory
  let before ← match CommandLine.parse args with
    | .error _ => pure start
    | .ok invocation => (Program.pathsOf invocation).foldlM Program.takeInAll start
  let (after, output) := CommandLine.execute args (← IO.monoMsNow) before
  Program.writeBack before after
  IO.print output.out
  IO.eprint output.err
  return output.exitCode.toUInt32
