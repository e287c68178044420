import PhpRename.Text.Utf8
import PhpRename.Token.Kind

/-!
# Lexemes

Cutting a byte string into lexemes. A lexeme's kind and length depend on what is left of the
source, on whether code or inline text is being read, and on the last significant kind before it,
since a reserved word is a plain name after an access operator. Nothing fails: an unclosed string
or comment runs to the end, and a stray byte is an operator.

`flatMap_lexemes` says that the lexemes, in order, are the whole source; each has at least one byte
by construction.
-/

set_option autoImplicit false

namespace PhpRename.Lexer

open Ascii

/-- A stretch of source with its kind: a first byte and the rest. -/
structure Lexeme where
  kind : TokenKind
  first : UInt8
  rest : Bytes
  deriving DecidableEq, Repr

/-- The bytes of a lexeme. -/
def Lexeme.bytes (l : Lexeme) : Bytes := l.first :: l.rest

/-! ## Bytes of names -/

/-- Whether a byte may start a name; every byte outside ASCII may. -/
def startsName (b : UInt8) : Bool := isLetter b || b == byte '_' || 0x80 ≤ b

/-- Whether a byte may stand in a name. -/
def inName (b : UInt8) : Bool := startsName b || isDigit b

/-- Whether a byte string goes on with a name. -/
def nameFollows (bs : Bytes) : Bool := bs.head?.any startsName

/-- Whether a byte string starts with a text. -/
def startsWith (text : String) (bs : Bytes) : Bool := (Utf8.encode text).isPrefixOf bs

/-- The number of bytes before the first occurrence of a pattern. -/
def offsetOf? (pattern : Bytes) : Bytes → Option Nat
  | [] => if pattern.isEmpty then some 0 else none
  | b :: rest =>
    if pattern.isPrefixOf (b :: rest) then some 0 else (offsetOf? pattern rest).map (· + 1)

/-! ## Lengths of single lexemes -/

/-- The length of the inline text before the next open tag. -/
def htmlLength (bs : Bytes) : Nat := (offsetOf? (Utf8.encode "<?") bs).getD bs.length

/-- The length of a possibly qualified name: a backslash belongs to it when a name follows. -/
def wordLength : Bytes → Nat
  | [] => 0
  | b :: rest => if inName b || (b == byte '\\' && nameFollows rest) then wordLength rest + 1 else 0

/-- The length of a number: letters, digits and underscores, and a point before a digit. -/
def numberLength : Bytes → Nat
  | [] => 0
  | b :: rest =>
    if isLetter b || isDigit b || b == byte '_' || (b == byte '.' && rest.head?.any isDigit) then
      numberLength rest + 1
    else 0

/-- The length of a line comment: up to the end of the line or a close tag. -/
def lineCommentLength : Bytes → Nat
  | [] => 0
  | b :: rest =>
    if b == 0x0a || startsWith "?>" (b :: rest) then 0 else lineCommentLength rest + 1

/-- The length of a block comment, whose opening takes two bytes. -/
def blockCommentLength (bs : Bytes) : Nat :=
  ((offsetOf? (Utf8.encode "*/") (bs.drop 2)).map (· + 4)).getD bs.length

/-- The length of a quoted string after its opening quote; a backslash takes the next byte with
it. -/
def quotedLength (quote : UInt8) : Bytes → Nat
  | [] => 0
  | [_] => 1
  | b :: c :: rest =>
    if b == byte '\\' then quotedLength quote rest + 2
    else if b == quote then 1
    else quotedLength quote (c :: rest) + 1

/-- What follows a heredoc whose body starts here: a line that has the label after blanks, and no
longer name, closes it. -/
def afterHeredoc (label body : Bytes) : Bytes :=
  let line := body.dropWhile isBlank
  if label.isPrefixOf line && !(line.drop label.length).head?.any inName then line.drop label.length
  else
    match _h : body.dropWhile (· != 0x0a) with
    | [] => []
    | _ :: nextLine => afterHeredoc label nextLine
termination_by body.length
decreasing_by
  have hle := (List.dropWhile_suffix (l := body) (· != 0x0a)).length_le
  rw [_h, List.length_cons] at hle
  omega

/-- Drops one byte that satisfies a test. -/
def expect? (test : UInt8 → Bool) : Bytes → Option Bytes
  | b :: rest => if test b then some rest else none
  | [] => none

/-- Splits the optional quote off a heredoc label. -/
def heredocQuote : Bytes → Option UInt8 × Bytes
  | b :: rest => if b == byte '\'' || b == byte '"' then (some b, rest) else (none, b :: rest)
  | [] => (none, [])

/-- The length of a heredoc or nowdoc whose three opening marks start `bs`, if it is well formed. -/
def heredocLength? (bs : Bytes) : Option Nat := do
  let (quote, labelled) := heredocQuote ((bs.drop 3).dropWhile isBlank)
  let label := labelled.takeWhile inName
  let afterLabel := labelled.dropWhile inName
  if label.isEmpty then none else
  let afterQuote ← match quote with
    | none => some afterLabel
    | some q => expect? (· == q) afterLabel
  let body ← expect? (· == 0x0a) ((expect? (· == 0x0d) afterQuote).getD afterQuote)
  some (bs.length - (afterHeredoc label body).length)

/-! ## Words and operators -/

/-- The reserved words, in lower case. -/
def reserved : List (String × TokenKind) :=
  [("class", .kwClass), ("interface", .kwInterface), ("trait", .kwTrait),
    ("function", .kwFunction), ("new", .kwNew), ("clone", .kwClone), ("extends", .kwExtends),
    ("implements", .kwImplements), ("instanceof", .kwInstanceof), ("global", .kwGlobal),
    ("include", .kwInclude), ("include_once", .kwIncludeOnce), ("require", .kwRequire),
    ("require_once", .kwRequireOnce), ("catch", .kwCatch), ("const", .kwConst),
    ("return", .kwReturn), ("public", .kwPublic), ("protected", .kwProtected),
    ("private", .kwPrivate), ("static", .kwStatic), ("abstract", .kwAbstract),
    ("final", .kwFinal), ("readonly", .kwReadonly), ("var", .kwVar), ("use", .kwUse),
    ("namespace", .kwNamespace), ("if", .controlWord), ("else", .controlWord),
    ("elseif", .controlWord), ("while", .controlWord), ("do", .controlWord),
    ("for", .controlWord), ("foreach", .controlWord), ("switch", .controlWord),
    ("try", .controlWord), ("finally", .controlWord), ("declare", .controlWord),
    ("echo", .reservedWord), ("print", .reservedWord), ("match", .reservedWord),
    ("yield", .reservedWord), ("throw", .reservedWord), ("as", .reservedWord),
    ("insteadof", .reservedWord), ("goto", .reservedWord), ("break", .reservedWord),
    ("continue", .reservedWord), ("case", .reservedWord), ("default", .reservedWord),
    ("and", .reservedWord), ("or", .reservedWord), ("xor", .reservedWord), ("fn", .reservedWord),
    ("endif", .reservedWord), ("endwhile", .reservedWord), ("endfor", .reservedWord),
    ("endforeach", .reservedWord), ("endswitch", .reservedWord), ("enddeclare", .reservedWord)]

/-- The kind of a reserved word, in any letter case. -/
def reservedKind? (word : String) : Option TokenKind := reserved.lookup (lower word)

/-- Kinds after which every word is a plain name. -/
def forcesName : TokenKind → Bool
  | .arrow | .doubleColon | .kwFunction => true
  | _ => false

/-- The kind of a word, given the last significant kind before it. -/
def wordKind (last : Option TokenKind) (word : Bytes) : TokenKind :=
  if word.contains (byte '\\') || last.any forcesName then .identifier
  else (reservedKind? (Utf8.decodeLossy word)).getD .identifier

/-- Operators of three and two characters; an earlier one wins. -/
def longOperators : List (String × TokenKind) :=
  [("===", .operator), ("!==", .operator), ("<=>", .operator), ("**=", .operator),
    ("...", .operator), ("<<=", .operator), (">>=", .operator), ("??=", .operator),
    ("?->", .arrow), ("->", .arrow), ("::", .doubleColon), ("=>", .operator), ("==", .operator),
    ("!=", .operator), ("<>", .operator), ("<=", .operator), (">=", .operator), ("&&", .operator),
    ("||", .operator), ("??", .operator), (".=", .operator), ("+=", .operator), ("-=", .operator),
    ("*=", .operator), ("/=", .operator), ("%=", .operator), ("&=", .operator), ("|=", .operator),
    ("^=", .operator), ("**", .operator), ("++", .operator), ("--", .operator), ("<<", .operator),
    (">>", .operator)]

/-- Operators of one character that have a kind of their own. -/
def shortOperators : List (Char × TokenKind) :=
  [('=', .equal), ('&', .ampersand), ('.', .concat), (';', .semicolon), (',', .comma),
    ('?', .question), (':', .colon), ('|', .pipe), ('@', .atSign), ('(', .openParen),
    (')', .closeParen), ('\x7b', .openBrace), ('\x7d', .closeBrace), ('[', .openBracket),
    (']', .closeBracket)]

/-- The kind and length of the operator at the start of `b :: rest`. -/
def scanOperator (b : UInt8) (rest : Bytes) : TokenKind × Nat :=
  match longOperators.find? fun op => startsWith op.1 (b :: rest) with
  | some op => (op.2, op.1.length)
  | none => (((shortOperators.find? fun op => byte op.1 == b).map (·.2)).getD .operator, 1)

/-! ## One lexeme -/

/-- The kind and length of the lexeme of inline text at the start of `b :: rest`. -/
def scanHtml (b : UInt8) (rest : Bytes) : TokenKind × Nat :=
  let bs := b :: rest
  if startsWith "<?" bs then
    if sameIgnoringCase (Utf8.decodeLossy (bs.take 5)) "<?php" then (.openTag, 5)
    else if startsWith "<?=" bs then (.openTag, 3)
    else (.openTag, 2)
  else (.inlineHtml, htmlLength bs)

/-- Whether a byte opens a quoted string. -/
def isQuote (b : UInt8) : Bool := b == byte '\'' || b == byte '"' || b == 0x60

/-- The kind and length of the lexeme of code at the start of `b :: rest`. -/
def scanCode (last : Option TokenKind) (b : UInt8) (rest : Bytes) : TokenKind × Nat :=
  let bs := b :: rest
  if startsWith "?>" bs then (.closeTag, 2)
  else if isSpace b then (.whitespace, (bs.takeWhile isSpace).length)
  else if startsWith "#[" bs then (.openBracket, 2)
  else if b == byte '#' || startsWith "//" bs then (.comment, lineCommentLength bs)
  else if startsWith "/*" bs then
    let n := blockCommentLength bs
    (if startsWith "/**" bs && 4 < n then .docComment else .comment, n)
  else if b == byte '$' && nameFollows rest then (.variableName, 1 + (rest.takeWhile inName).length)
  else if startsName b || (b == byte '\\' && nameFollows rest) then
    let n := wordLength bs
    (wordKind last (bs.take n), n)
  else if isDigit b then (.number, numberLength bs)
  else if isQuote b then (.stringLit, 1 + quotedLength b rest)
  else
    match if startsWith "<<<" bs then heredocLength? bs else none with
    | some n => (.heredoc, n)
    | none => scanOperator b rest

/-! ## All lexemes -/

/-- What a lexeme depends on besides the bytes ahead. -/
structure Context where
  inCode : Bool := false
  /-- The kind of the last token that is not whitespace or a comment. -/
  last : Option TokenKind := none
  deriving DecidableEq, Repr

/-- The context after a lexeme of a kind. -/
def Context.after (c : Context) (kind : TokenKind) : Context where
  inCode := if kind == .openTag then true else if kind == .closeTag then false else c.inCode
  last := if kind.isTrivia then c.last else some kind

/-- The kind and length of the next lexeme. -/
def scan (c : Context) (b : UInt8) (rest : Bytes) : TokenKind × Nat :=
  if c.inCode then scanCode c.last b rest else scanHtml b rest

/-- The lexemes of a byte string that is read in a context. -/
def lexemesFrom (c : Context) : Bytes → List Lexeme
  | [] => []
  | b :: rest =>
    let (kind, n) := scan c b rest
    ⟨kind, b, rest.take (n - 1)⟩ :: lexemesFrom (c.after kind) (rest.drop (n - 1))
termination_by bs => bs.length
decreasing_by simp only [List.length_drop, List.length_cons]; omega

/-- The lexemes of a source. -/
def lexemes (source : Bytes) : List Lexeme := lexemesFrom {} source

theorem flatMap_lexemesFrom (c : Context) (bs : Bytes) :
    (lexemesFrom c bs).flatMap Lexeme.bytes = bs := by
  fun_induction lexemesFrom c bs with
  | case1 => rfl
  | case2 c b rest kind n _ ih => simp [Lexeme.bytes, ih]

/-- The lexemes of a source are the source. -/
theorem flatMap_lexemes (source : Bytes) : (lexemes source).flatMap Lexeme.bytes = source :=
  flatMap_lexemesFrom _ source

end PhpRename.Lexer
