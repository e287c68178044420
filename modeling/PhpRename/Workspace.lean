import PhpRename.Hash.Sha256
import PhpRename.Lexer.Tokenize
import PhpRename.Tracking.Comment

/-!
# The files of a run

A workspace holds the tokens of every file together with the include table and the class hierarchy
that they make up. A pass lets every token of every file teach its types, in order.
-/

set_option autoImplicit false

namespace PhpRename

/-- A file that has been read. -/
structure SourceFile where
  path : Path
  tokens : Tokens
  /-- The digest of the content. -/
  digest : String

/-- A file of the given content. -/
def SourceFile.ofBytes (path : Path) (source : Bytes) : SourceFile :=
  ⟨path, Lexer.tokenize source, Sha256.hexDigest source⟩

/-- The files of a run, with what they include and declare. -/
structure Workspace where
  files : List SourceFile := []
  includes : Includes := {}
  classes : Hierarchy := {}

namespace Workspace

/-- Takes a file in. -/
def add (w : Workspace) (f : SourceFile) : Workspace where
  files := w.files ++ [f]
  includes := w.includes.recordFile f.path f.tokens
  classes := w.classes.recordFile f.path f.tokens

/-- The workspace of files given as path and content. -/
def ofSources (sources : List (Path × Bytes)) : Workspace :=
  sources.foldl (fun w (path, source) => w.add (.ofBytes path source)) {}

/-- The resolver for a file. -/
def resolver (w : Workspace) (f : SourceFile) (bindings : Bindings) : Resolver where
  includes := w.includes
  classes := w.classes
  path := f.path
  tokens := f.tokens
  bindings := bindings

/-- What a file's tokens teach, in order. -/
def trackFile (w : Workspace) (bindings : Bindings) (f : SourceFile) : Bindings :=
  ((List.range f.tokens.size).foldl Tracking.token (w.resolver f bindings)).bindings

/-- What one pass over all files teaches. -/
def track (w : Workspace) (bindings : Bindings) : Bindings := w.files.foldl w.trackFile bindings

/-- What a number of passes teach. -/
def trackPasses (w : Workspace) : Nat → Bindings → Bindings
  | 0, bindings => bindings
  | n + 1, bindings => w.trackPasses n (w.track bindings)

end Workspace

end PhpRename
