import PhpRename.Main
import PhpRename.Proofs.Refactoring.Rename
import PhpRename.Token.Print
import PhpRename.Proofs.Path.Segments
import PhpRename.Proofs.Path.Normal
import PhpRename.Proofs.Refactoring.Redirect
import PhpRename.Proofs.Files.Tree
import PhpRename.Proofs.Files.Apply
import PhpRename.Proofs.Files.Place
import PhpRename.Proofs.Files.Apart
import PhpRename.Proofs.Files.Independence
import PhpRename.Proofs.Run.Untouched
import PhpRename.Proofs.Path.Match
import PhpRename.Proofs.Lexer.Matching
import PhpRename.Proofs.Lexer.Scopes
import PhpRename.Proofs.Lexer.Spelling
import PhpRename.Proofs.Token.Cursor
import PhpRename.Proofs.Lexer.Flat
import PhpRename.Proofs.Tracking.Straight
import PhpRename.Proofs.Tracking.Sites
import PhpRename.Proofs.Tracking.Assignment
import PhpRename.Proofs.Tracking.Receiver
import PhpRename.Proofs.Bindings.History
import PhpRename.Proofs.Tracking.Settling
import PhpRename.Proofs.Tracking.Home
import PhpRename.Proofs.Resolver.Isolation
import PhpRename.Proofs.Edit.Acceptance
import PhpRename.Proofs.Resolver.Chain
import PhpRename.Proofs.Resolver.Encoding
import PhpRename.Proofs.Lexer.Alike
import PhpRename.Proofs.Lexer.Heredoc
import PhpRename.Proofs.Lexer.Relabel
import PhpRename.Proofs.Edit.Places
import PhpRename.Proofs.Lexer.Skeleton
import PhpRename.Proofs.Lexer.Reread
import PhpRename.Proofs.Refactoring.Reference
import PhpRename.Proofs.Refactoring.Structure
import PhpRename.Proofs.Class.Inheritance
import PhpRename.Proofs.Edit.Order
import PhpRename.Proofs.Class.LetterCase
import PhpRename.Proofs.Bindings.Repetition
import PhpRename.Proofs.Lexer.Word
import PhpRename.Proofs.Lexer.Quoted
import PhpRename.Proofs.Resolver.Inherited
import PhpRename.Proofs.Refactoring.Quotation
import PhpRename.Proofs.Token.Steps
import PhpRename.Proofs.Resolver.Steps
import PhpRename.Proofs.Resolver.Termination
import PhpRename.Proofs.Signature.Parameters
import PhpRename.Proofs.Include.Argument
import PhpRename.Proofs.TypeExpr.Declared
import PhpRename.Proofs.Lexer.Reword
import PhpRename.Proofs.Refactoring.MethodName
import PhpRename.Proofs.Path.Laws
import PhpRename.Proofs.Token.Extent
import PhpRename.Proofs.TypeExpr.ReadBack
