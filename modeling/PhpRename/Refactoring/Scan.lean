import PhpRename.Edit.Changes
import PhpRename.Refactoring.Basic
import PhpRename.Refactoring.ClassRename
import PhpRename.Refactoring.FileRename
import PhpRename.Refactoring.MethodRename
import PhpRename.Workspace

/-!
# Scanning a workspace

A first pass learns the types; a second one goes on learning and proposes the edits of the
refactoring, token by token. Nothing is written: the result are the pending changes.
-/

set_option autoImplicit false

namespace PhpRename.Refactoring

/-- The edits that a refactoring proposes for the token at `i`. -/
def edits (refactoring : Refactoring) (r : Resolver) (i : Nat) : List Edit :=
  match refactoring with
  | renameClass old new => ClassRename.edits old new r.tokens i
  | renameMethod cls old new => MethodRename.edits cls old new r i
  | renameFile old new => FileRename.edits old new r.path r.tokens i

/-- One token of the second pass: it teaches its types, then its edits are proposed. -/
def visit (refactoring : Refactoring) (state : Resolver × Changes) (i : Nat) : Resolver × Changes :=
  let r := Tracking.token state.1 i
  (r, (refactoring.edits r i).foldl (fun changes e => changes.addEdit r.path e) state.2)

/-- One file of the second pass. -/
def visitFile (refactoring : Refactoring) (w : Workspace) (state : Bindings × Changes)
    (f : SourceFile) : Bindings × Changes :=
  let (r, changes) :=
    (List.range f.tokens.size).foldl refactoring.visit (w.resolver f state.1, state.2)
  (r.bindings, changes)

/-- The changes that stand before any file is looked at. -/
def initialChanges : Refactoring → Changes
  | renameFile old new => ({} : Changes).addMove old new
  | _ => {}

/-- The changes that a refactoring proposes for a workspace. -/
def scan (refactoring : Refactoring) (w : Workspace) : Changes :=
  let (_, changes) :=
    w.files.foldl (refactoring.visitFile w) (w.track {}, refactoring.initialChanges)
  w.files.foldl (fun changes f => changes.expect f.path f.digest) changes

end PhpRename.Refactoring
