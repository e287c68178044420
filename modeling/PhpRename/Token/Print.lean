import PhpRename.Text.Quoted
import PhpRename.Token.Basic

/-!
# Printed tokens
-/

set_option autoImplicit false

namespace PhpRename

/-- A token as text: its kind, its text in quotes and where it starts. -/
def Token.print (t : Token) : String :=
  t.kind.label ++ " " ++ Quoted.quote t.text ++ " at " ++ toString t.position.line ++ ":" ++
    toString t.position.column

end PhpRename
