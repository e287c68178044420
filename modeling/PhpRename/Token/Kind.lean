/-!
# Kinds of tokens and of scopes

The lexical classes of PHP source that navigation, type tracking and renaming look at, and the
constructs that own a brace-delimited scope. `TokenKind.label` and `ScopeKind.label` are the names
that reports show.
-/

set_option autoImplicit false

namespace PhpRename

/-- Kind of a lexical token. -/
inductive TokenKind where
  | inlineHtml
  | openTag
  | closeTag
  | whitespace
  | comment
  | docComment
  | variableName
  | identifier
  | stringLit
  | heredoc
  | number
  | kwClass
  | kwInterface
  | kwTrait
  | kwFunction
  | kwNew
  | kwClone
  | kwExtends
  | kwImplements
  | kwInstanceof
  | kwGlobal
  | kwInclude
  | kwIncludeOnce
  | kwRequire
  | kwRequireOnce
  | kwCatch
  | kwConst
  | kwReturn
  | kwPublic
  | kwProtected
  | kwPrivate
  | kwStatic
  | kwAbstract
  | kwFinal
  | kwReadonly
  | kwVar
  | kwUse
  | kwNamespace
  /-- Words that may head a block without binding variables: `if`, `while`, `try` and the like. -/
  | controlWord
  /-- Any other reserved word. -/
  | reservedWord
  /-- The member access operators `->` and `?->`. -/
  | arrow
  /-- The static access operator `::`. -/
  | doubleColon
  | openParen
  | closeParen
  | openBrace
  | closeBrace
  /-- A `[`, or the attribute opener `#[`. -/
  | openBracket
  | closeBracket
  | equal
  | ampersand
  | concat
  | semicolon
  | comma
  | question
  | colon
  | pipe
  | atSign
  /-- Any other operator. -/
  | operator
  deriving DecidableEq, Repr

namespace TokenKind

/-- Whitespace and comments, which navigation steps over. -/
def isTrivia : TokenKind → Bool
  | whitespace | comment | docComment => true
  | _ => false

/-- The four words that load another file. -/
def isInclude : TokenKind → Bool
  | kwInclude | kwIncludeOnce | kwRequire | kwRequireOnce => true
  | _ => false

/-- Words that may precede a property or method declaration. -/
def isModifier : TokenKind → Bool
  | kwPublic | kwProtected | kwPrivate | kwStatic | kwAbstract | kwFinal | kwReadonly | kwVar => true
  | _ => false

/-- Opening bracket of any shape. -/
def isOpener : TokenKind → Bool
  | openParen | openBrace | openBracket => true
  | _ => false

/-- Closing bracket of any shape. -/
def isCloser : TokenKind → Bool
  | closeParen | closeBrace | closeBracket => true
  | _ => false

/-- Member or static access operator. -/
def isAccess : TokenKind → Bool
  | arrow | doubleColon => true
  | _ => false

/-- The opener of the same shape as a closer. -/
def opener? : TokenKind → Option TokenKind
  | closeParen => some openParen
  | closeBrace => some openBrace
  | closeBracket => some openBracket
  | _ => none

theorem isOpener_of_opener? {k o : TokenKind} (h : k.opener? = some o) : o.isOpener = true := by
  cases k <;> simp [opener?] at h <;> subst h <;> rfl

theorem isCloser_iff_opener? (k : TokenKind) : k.isCloser = true ↔ k.opener?.isSome = true := by
  cases k <;> simp [isCloser, opener?]

/-- Every kind, in the order of the declaration. -/
def all : List TokenKind :=
  [inlineHtml, openTag, closeTag, whitespace, comment, docComment, variableName, identifier,
    stringLit, heredoc, number, kwClass, kwInterface, kwTrait, kwFunction, kwNew, kwClone,
    kwExtends, kwImplements, kwInstanceof, kwGlobal, kwInclude, kwIncludeOnce, kwRequire,
    kwRequireOnce, kwCatch, kwConst, kwReturn, kwPublic, kwProtected, kwPrivate, kwStatic,
    kwAbstract, kwFinal, kwReadonly, kwVar, kwUse, kwNamespace, controlWord, reservedWord, arrow,
    doubleColon, openParen, closeParen, openBrace, closeBrace, openBracket, closeBracket, equal,
    ampersand, concat, semicolon, comma, question, colon, pipe, atSign, operator]

/-- The name of a kind in printed tokens. -/
def label : TokenKind → String
  | inlineHtml => "InlineHtml"
  | openTag => "OpenTag"
  | closeTag => "CloseTag"
  | whitespace => "Whitespace"
  | comment => "Comment"
  | docComment => "DocComment"
  | variableName => "Variable"
  | identifier => "Identifier"
  | stringLit => "String"
  | heredoc => "Heredoc"
  | number => "Number"
  | kwClass => "Class"
  | kwInterface => "Interface"
  | kwTrait => "Trait"
  | kwFunction => "Function"
  | kwNew => "New"
  | kwClone => "Clone"
  | kwExtends => "Extends"
  | kwImplements => "Implements"
  | kwInstanceof => "Instanceof"
  | kwGlobal => "Global"
  | kwInclude => "Include"
  | kwIncludeOnce => "IncludeOnce"
  | kwRequire => "Require"
  | kwRequireOnce => "RequireOnce"
  | kwCatch => "Catch"
  | kwConst => "Const"
  | kwReturn => "Return"
  | kwPublic => "Public"
  | kwProtected => "Protected"
  | kwPrivate => "Private"
  | kwStatic => "Static"
  | kwAbstract => "Abstract"
  | kwFinal => "Final"
  | kwReadonly => "Readonly"
  | kwVar => "Var"
  | kwUse => "Use"
  | kwNamespace => "Namespace"
  | controlWord => "ControlKeyword"
  | reservedWord => "Keyword"
  | arrow => "ObjectOperator"
  | doubleColon => "DoubleColon"
  | openParen => "OpenParen"
  | closeParen => "CloseParen"
  | openBrace => "OpenBrace"
  | closeBrace => "CloseBrace"
  | openBracket => "OpenBracket"
  | closeBracket => "CloseBracket"
  | equal => "Equal"
  | ampersand => "Ampersand"
  | concat => "Concat"
  | semicolon => "Semicolon"
  | comma => "Comma"
  | question => "Question"
  | colon => "Colon"
  | pipe => "Pipe"
  | atSign => "At"
  | operator => "Operator"

end TokenKind

/-- What kind of construct owns a brace-delimited scope. -/
inductive ScopeKind where
  | classBody
  | interfaceBody
  | traitBody
  | functionBody
  /-- Conditionals, loops, `try`, `catch` and similar blocks. -/
  | controlBlock
  deriving DecidableEq, Repr

namespace ScopeKind

/-- Whether the scope owns variable bindings. -/
def isBinding : ScopeKind → Bool
  | controlBlock => false
  | _ => true

/-- Classes, interfaces and traits. -/
def isClassLike : ScopeKind → Bool
  | classBody | interfaceBody | traitBody => true
  | _ => false

/-- The name of a scope kind in printed tokens. -/
def label : ScopeKind → String
  | classBody => "Class"
  | interfaceBody => "Interface"
  | traitBody => "Trait"
  | functionBody => "Function"
  | controlBlock => "Control"

end ScopeKind

/-- The kind of scope that a token of this kind may own. -/
def TokenKind.scopeKind? : TokenKind → Option ScopeKind
  | kwClass => some .classBody
  | kwInterface => some .interfaceBody
  | kwTrait => some .traitBody
  | kwFunction => some .functionBody
  | controlWord | kwCatch => some .controlBlock
  | _ => none

end PhpRename
