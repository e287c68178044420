import PhpRename.Proofs.Lexer.Flat
import PhpRename.Proofs.Lexer.Spelling
import PhpRename.Proofs.Token.Cursor

/-!
# Straight-line programs

Programs whose statements assign new instances to variables and call methods on variables, one on a
line. Such a program is read back as it is written: `Program.readsAt` gives the tokens of each
statement, which stand at the top level and whose parentheses are linked.
-/

set_option autoImplicit false

namespace PhpRename

open Lexer Utf8 Ascii

/-- A statement: a variable gets a new instance of a class, or a method is called on it. -/
inductive Statement where
  | assign (target cls : String)
  | call (receiver method : String)
  deriving DecidableEq, Repr

/-- The statements of a program, in order. -/
abbrev Program := List Statement

namespace Statement

/-- The names in a statement are accepted as names of what they stand for. -/
def Accepted : Statement → Prop
  | assign target cls => Name.accept Name.labelFault? target = .ok () ∧ Name.accept Name.classFault? cls = .ok ()
  | call receiver method =>
    Name.accept Name.labelFault? receiver = .ok () ∧ Name.accept Name.methodFault? method = .ok ()

instance : DecidablePred Accepted
  | assign _ _ => inferInstanceAs (Decidable (_ ∧ _))
  | call _ _ => inferInstanceAs (Decidable (_ ∧ _))

/-- The text of a statement. -/
def text : Statement → String
  | assign target cls => "$" ++ target ++ " = new " ++ cls ++ "();"
  | call receiver method => "$" ++ receiver ++ "->" ++ method ++ "();"

/-- The lexemes of a statement and of the line feed before it. -/
def written : Statement → List (TokenKind × String)
  | assign target cls =>
    [(.whitespace, "\n"), (.variableName, "$" ++ target), (.whitespace, " "), (.equal, "="), (.whitespace, " "),
      (.kwNew, "new"), (.whitespace, " "), (.identifier, cls), (.openParen, "("), (.closeParen, ")"), (.semicolon, ";")]
  | call receiver method =>
    [(.whitespace, "\n"), (.variableName, "$" ++ receiver), (.arrow, "->"), (.identifier, method), (.openParen, "("),
      (.closeParen, ")"), (.semicolon, ";")]

end Statement

namespace Program

/-- The source of a program: the open tag and each statement on a line of its own; the last line may
have a line feed, too. -/
def source (program : Program) (ended : Bool) : String :=
  "<?php" ++ String.join (program.map fun s => "\n" ++ s.text) ++ if ended then "\n" else ""

/-- The lexeme of the last line feed. -/
def ending (ended : Bool) : List (TokenKind × String) := if ended then [(.whitespace, "\n")] else []

/-- The lexemes of the statements of a program. -/
def body (program : Program) : List (TokenKind × String) := program.flatMap Statement.written

/-- The lexemes of a program. -/
def written (program : Program) (ended : Bool) : List (TokenKind × String) :=
  (.openTag, "<?php") :: program.body ++ ending ended

end Program

/-! ## Reading a program -/

theorem fault?_of_accept {fault? : String → Option Name.Reason} {name : String}
    (h : Name.accept fault? name = .ok ()) : fault? name = none := Name.accept_ok_iff.1 h

theorem Statement.spelled_written (s : Statement) : spelled s.written = encode ("\n" ++ s.text) := by
  have equal : encode " = new " = encode " " ++ encode "=" ++ encode " " ++ encode "new" ++ encode " " := by decide
  have arguments : encode "();" = encode "(" ++ encode ")" ++ encode ";" := by decide
  cases s <;> simp only [written, text, spelled, encode_append, equal, arguments, List.flatMap_cons, List.flatMap_nil,
    List.append_assoc, List.append_nil]

theorem Program.spelled_written (program : Program) (ended : Bool) :
    spelled (program.written ended) = encode (program.source ended) := by
  have statements : spelled program.body = encode (String.join (program.map fun s => "\n" ++ s.text)) := by
    rw [encode_join, spelled, body, List.flatMap_assoc, List.flatMap_map]
    exact List.flatMap_congr fun s _ => s.spelled_written
  have last : spelled (ending ended) = encode (if ended then "\n" else "") := by cases ended <;> rfl
  rw [source, encode_append, encode_append, ← statements, ← last, written, spelled, List.cons_append,
    List.flatMap_cons, List.flatMap_append, List.append_assoc]
  rfl

/-- The first byte of a label is no space. -/
theorem Name.IsLabel.front {name : String} (h : Name.IsLabel name) :
    ∃ b, (encode name).head? = some b ∧ isSpace b = false := by
  obtain ⟨b, tail, bytes, starts⟩ := h.exists_encode
  have plain := (plain_of_startsName b starts).1
  simp only [isPlain, Bool.and_eq_true, Bool.not_eq_true'] at plain
  exact ⟨b, by rw [bytes, List.head?_cons], plain.1.1.1⟩

theorem head?_encode_variable (name : String) : (encode ("$" ++ name)).head? = some (byte '$') := by
  rw [encode_append]
  rfl

theorem isLabel_new : Name.IsLabel "new" := Name.labelFault?_eq_none_iff.1 (by decide)

theorem wordKind_new : wordKind (some .equal) (encode "new") = .kwNew := by decide +kernel

/-- A statement is read back in code, in front of whatever is. -/
theorem Statement.readBack {s : Statement} (accepted : s.Accepted) {rest : List (TokenKind × String)}
    (behind : ReadBack ⟨true, some .semicolon⟩ rest) (last : Option TokenKind) :
    ReadBack ⟨true, last⟩ (s.written ++ rest) := by
  have feed (last : Option TokenKind) (name : String) (behind : List (TokenKind × String)) :
      Reads ⟨true, last⟩ .whitespace "\n" (spelled ((.variableName, "$" ++ name) :: behind)) :=
    reads_space (b := 0x0a) (by decide) (by decide) (any_head?_spelled (head?_encode_variable name) (by decide) _)
  have space {kind : TokenKind} {text : String} {b : UInt8} (front : (encode text).head? = some b)
      (other : isSpace b = false) (last : Option TokenKind) (behind : List (TokenKind × String)) :
      Reads ⟨true, last⟩ .whitespace " " (spelled ((kind, text) :: behind)) :=
    reads_space (b := 0x20) (by decide) (by decide) (any_head?_spelled front other _)
  have arguments (last : Option TokenKind) :
      ReadBack ⟨true, last⟩ ((.openParen, "(") :: (.closeParen, ")") :: (.semicolon, ";") :: rest) :=
    .cons (reads_openParen _) (.cons (reads_closeParen _) (.cons (reads_semicolon _) behind))
  have beforeParen (behind : List (TokenKind × String)) : wordLength (spelled ((.openParen, "(") :: behind)) = 0 :=
    wordLength_spelled (b := byte '(') (by decide) (by decide) (by decide) _
  have beforeSpace (behind : List (TokenKind × String)) : wordLength (spelled ((.whitespace, " ") :: behind)) = 0 :=
    wordLength_spelled (b := 0x20) (by decide) (by decide) (by decide) _
  cases s with
  | assign target cls =>
    have targetLabel := Name.labelFault?_eq_none_iff.1 (fault?_of_accept accepted.1)
    have classLabel := Name.isLabel_of_classFault? (fault?_of_accept accepted.2)
    have className := wordKind_of_classFault? (some .kwNew) (fault?_of_accept accepted.2)
    obtain ⟨b, front, noSpace⟩ := classLabel.front
    refine .cons (feed last target _) ?_
    refine .cons (reads_variable targetLabel (any_head?_spelled (b := 0x20) (by decide) (by decide) _)) ?_
    refine .cons (space (b := byte '=') (by decide) (by decide) _ _) ?_
    refine .cons (reads_equal _) ?_
    refine .cons (space (b := byte 'n') (by decide) (by decide) _ _) ?_
    refine .cons (wordKind_new ▸ reads_word isLabel_new (beforeSpace _)) ?_
    refine .cons (space front noSpace _ _) ?_
    exact .cons (className ▸ reads_word classLabel (beforeParen _)) (arguments _)
  | call receiver method =>
    have receiverLabel := Name.labelFault?_eq_none_iff.1 (fault?_of_accept accepted.1)
    have methodLabel := Name.isLabel_of_methodFault? (fault?_of_accept accepted.2)
    have methodName : wordKind (some .arrow) (encode method) = .identifier := wordKind_of_forcesName rfl _
    refine .cons (feed last receiver _) ?_
    refine .cons (reads_variable receiverLabel (any_head?_spelled (b := byte '-') (by decide) (by decide) _)) ?_
    refine .cons (reads_arrow _) ?_
    exact .cons (methodName ▸ reads_word methodLabel (beforeParen _)) (arguments _)

theorem Program.readBack {program : Program} (accepted : ∀ s ∈ program, s.Accepted) (ended : Bool) :
    ReadBack {} (program.written ended) := by
  refine .cons (reads_openTag _) ?_
  have code : ∀ last, ReadBack ⟨true, last⟩ (program.body ++ ending ended) := by
    induction program with
    | nil =>
      intro last
      cases ended with
      | false => exact .nil _
      | true => exact .cons (reads_space (b := 0x0a) (by decide) (by decide) rfl) (.nil _)
    | cons s program ih =>
      intro last
      have rest := ih (fun t mem => accepted t (List.mem_cons_of_mem s mem)) (some .semicolon)
      rw [body, List.flatMap_cons, List.append_assoc]
      exact Statement.readBack (accepted s (List.mem_cons_self ..)) rest last
  exact code (some .openTag)

/-! ## Tokens of a program -/

namespace Program

variable {program : Program}

/-- The tokens of a program. -/
def tokens (program : Program) (ended : Bool) : Tokens := tokenize (encode (program.source ended))

/-- Where the tokens behind some statements start. -/
def offset (before : Program) : Nat := before.body.length + 1

theorem readsAt (accepted : ∀ s ∈ program, s.Accepted) (ended : Bool) :
    (program.tokens ended).ReadsAt 0 (program.written ended) := by
  intro i kind text hi
  obtain ⟨t, ht, hk, same, -⟩ := (readBack accepted ended).exists_token hi
  rw [spelled_written] at ht
  rw [Nat.zero_add]
  exact ⟨t, ht, hk, same⟩

theorem size_tokens (accepted : ∀ s ∈ program, s.Accepted) (ended : Bool) :
    (program.tokens ended).size = (program.written ended).length := by
  rw [tokens, ← spelled_written, (readBack accepted ended).size_tokenize]

theorem body_cons (s : Statement) (program : Program) : body (s :: program) = s.written ++ program.body :=
  List.flatMap_cons

/-- The kinds of the tokens of a program. -/
def kinds : List TokenKind :=
  [.openTag, .whitespace, .variableName, .equal, .kwNew, .identifier, .arrow, .openParen, .closeParen, .semicolon]

theorem kind_mem_of_mem_statement {s : Statement} {p : TokenKind × String} (mem : p ∈ s.written) :
    p.1 ∈ kinds := by
  have each : ∀ k ∈ s.written.map Prod.fst, k ∈ kinds := by
    cases s <;> simp [Statement.written, kinds]
  exact each p.1 (List.mem_map_of_mem mem)

theorem kind_mem_of_mem_written {ended : Bool} {p : TokenKind × String} (mem : p ∈ program.written ended) :
    p.1 ∈ kinds := by
  rw [written, List.mem_append, List.mem_cons] at mem
  obtain (rfl | mem) | mem := mem
  · decide
  · obtain ⟨s, -, mem⟩ := List.mem_flatMap.1 mem
    exact kind_mem_of_mem_statement mem
  · cases ended with
    | false => cases mem
    | true =>
      obtain rfl := List.mem_singleton.1 mem
      decide

theorem kind_mem (accepted : ∀ s ∈ program, s.Accepted) {ended : Bool} {i : Nat} {kind : TokenKind}
    (h : (program.tokens ended).kindAt? i = some kind) : kind ∈ kinds := by
  obtain ⟨lt, -⟩ := Tokens.kindAt?_eq_some_iff.1 h
  rw [size_tokens accepted] at lt
  have here := (readsAt accepted ended).kindAt? (List.getElem?_eq_getElem lt)
  rw [Nat.zero_add, h] at here
  rw [Option.some.inj here]
  exact kind_mem_of_mem_written (List.getElem_mem lt)

theorem flat (accepted : ∀ s ∈ program, s.Accepted) (ended : Bool) : (program.tokens ended).Flat :=
  tokenize_flat fun i brace => by
    have mem := kind_mem accepted brace
    revert mem
    decide

/-! ## Places of calls -/

theorem count_lineFeed_written {s : Statement} (accepted : s.Accepted) : (spelled s.written).count 0x0a = 1 := by
  have name {name : String} (label : Name.IsLabel name) : (encode name).count 0x0a = 0 :=
    List.count_eq_zero.2 label.lineFeed_notMem
  cases s with
  | assign target cls =>
    have target := name (Name.labelFault?_eq_none_iff.1 (fault?_of_accept accepted.1))
    have cls := name (Name.isLabel_of_classFault? (fault?_of_accept accepted.2))
    simp only [Statement.written, spelled, List.flatMap_cons, List.flatMap_nil, List.count_append, encode_append,
      target, cls]
    decide
  | call receiver method =>
    have receiver := name (Name.labelFault?_eq_none_iff.1 (fault?_of_accept accepted.1))
    have method := name (Name.isLabel_of_methodFault? (fault?_of_accept accepted.2))
    simp only [Statement.written, spelled, List.flatMap_cons, List.flatMap_nil, List.count_append, encode_append,
      receiver, method]
    decide

theorem count_lineFeed_body (accepted : ∀ s ∈ program, s.Accepted) :
    (spelled program.body).count 0x0a = program.length := by
  induction program with
  | nil => rfl
  | cons s program ih =>
    have rest := ih fun t mem => accepted t (List.mem_cons_of_mem s mem)
    rw [body, List.flatMap_cons, spelled, List.flatMap_append, List.count_append, List.length_cons, ← rest,
      Nat.add_comm]
    exact congrArg (_ + ·) (count_lineFeed_written (accepted s (List.mem_cons_self ..)))

/-- The receiver of a call stands on the line of the call, in the first column. -/
theorem exists_receiver {before after : Program} {receiver method : String}
    (accepted : ∀ s ∈ before ++ .call receiver method :: after, s.Accepted) (ended : Bool) :
    ∃ t, ((before ++ .call receiver method :: after).tokens ended)[before.offset + 1]? = some t ∧
      t.kind = .variableName ∧ t.text = "$" ++ receiver ∧ t.position = ⟨before.length + 2, 1⟩ := by
  let program := before ++ .call receiver method :: after
  let front : List (TokenKind × String) := (.openTag, "<?php") :: before.body ++ [(.whitespace, "\n")]
  let rest := (Statement.call receiver method).written.drop 2 ++ (Program.body after ++ ending ended)
  have split : program.written ended = front ++ (.variableName, "$" ++ receiver) :: rest := by
    simp [program, front, rest, written, body, Statement.written]
  have length : front.length = before.offset + 1 := by simp [front, offset]
  have here : (program.written ended)[before.offset + 1]? = some (.variableName, "$" ++ receiver) := by
    rw [split, ← length, List.getElem?_append_right (Nat.le_refl _), Nat.sub_self, List.getElem?_cons_zero]
  obtain ⟨t, ht, kind, text, position⟩ := (readBack accepted ended).exists_token here
  rw [Program.spelled_written] at ht
  refine ⟨t, ht, kind, text, ?_⟩
  have bytes : spelled front = (encode "<?php" ++ spelled before.body) ++ 0x0a :: [] := by
    rw [spelled, List.flatMap_append, List.flatMap_cons]
    rfl
  have feeds : (encode "<?php" ++ spelled before.body).count 0x0a = before.length := by
    rw [List.count_append, count_lineFeed_body fun s mem => accepted s (List.mem_append_left _ mem)]
    exact Nat.zero_add _
  rw [position, split, ← length, List.take_left, bytes, Position.after_lineFeed, feeds, Position.start]
  simp [Position.after]
  omega

end Program

end PhpRename
