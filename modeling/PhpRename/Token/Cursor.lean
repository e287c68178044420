import PhpRename.Token.Basic

/-!
# Navigation over tokens

Steps from one token index to another. Every step answers an index in range or none, and the
bracket-aware ones jump from an opening bracket to its closer, or back, so that a bracketed group
counts as one unit.
-/

set_option autoImplicit false

namespace PhpRename.Tokens

/-- The kind of the token at an index. -/
def kindAt? (ts : Tokens) (i : Nat) : Option TokenKind := ts[i]?.map (·.kind)

/-- The text of the token at an index, empty past the end. -/
def textAt (ts : Tokens) (i : Nat) : String := (ts[i]?.map (·.text)).getD ""

/-- Whether the token at an index is of a kind. -/
def isAt (ts : Tokens) (kind : TokenKind) (i : Nat) : Bool := ts.kindAt? i == some kind

/-- Whether the token at an index exists and its kind satisfies a test. -/
def kindSatisfies (ts : Tokens) (test : TokenKind → Bool) (i : Nat) : Bool := (ts.kindAt? i).any test

/-- The index itself, when it is in range. -/
def inRange? (ts : Tokens) (i : Nat) : Option Nat := if i < ts.size then some i else none

/-- The index of the first token at or after `i` whose kind satisfies `wanted`, giving up at a
token whose kind satisfies `stop`. -/
def findFrom? (ts : Tokens) (wanted stop : TokenKind → Bool) (i : Nat) : Option Nat :=
  if h : i < ts.size then
    if wanted ts[i].kind then some i
    else if stop ts[i].kind then none
    else findFrom? ts wanted stop (i + 1)
  else none
termination_by ts.size - i

/-- The index of the last token before `i` whose kind satisfies `wanted`. -/
def findBefore? (ts : Tokens) (wanted : TokenKind → Bool) : Nat → Option Nat
  | 0 => none
  | i + 1 => if ts.kindSatisfies wanted i then some i else findBefore? ts wanted i

/-- The index of the token right after `i`. -/
def next? (ts : Tokens) (i : Nat) : Option Nat := ts.inRange? (i + 1)

/-- The index of the token right before `i`. -/
def prev? (ts : Tokens) : Nat → Option Nat
  | 0 => none
  | i + 1 => ts.inRange? i

/-- The next token that is not whitespace or a comment. -/
def nextSignificant? (ts : Tokens) (i : Nat) : Option Nat :=
  ts.findFrom? (!·.isTrivia) (fun _ => false) (i + 1)

/-- The previous token that is not whitespace or a comment. -/
def prevSignificant? (ts : Tokens) (i : Nat) : Option Nat := ts.findBefore? (!·.isTrivia) i

/-- The matching bracket of a linked bracket. -/
def matching? (ts : Tokens) (i : Nat) : Option Nat :=
  (ts[i]?.bind (·.matching)).bind ts.inRange?

/-- The closer of the group that starts at `i`, or `i` itself when it is no linked opener. -/
def groupEnd (ts : Tokens) (i : Nat) : Nat :=
  if ts.kindSatisfies (·.isOpener) i then (ts.matching? i).getD i else i

/-- The opener of the group that ends at `i`, or `i` itself when it is no linked closer. -/
def groupStart (ts : Tokens) (i : Nat) : Nat :=
  if ts.kindSatisfies (·.isCloser) i then (ts.matching? i).getD i else i

/-- The next significant token, with a bracketed group as one unit. -/
def stepForward? (ts : Tokens) (i : Nat) : Option Nat := ts.nextSignificant? (ts.groupEnd i)

/-- The previous significant token, with a bracketed group as one unit. -/
def stepBackward? (ts : Tokens) (i : Nat) : Option Nat :=
  (ts.prevSignificant? i).map ts.groupStart

/-- The index of the name that the declaration at `i` gives, none for anonymous classes and
closures. -/
def declaredNameIndex? (ts : Tokens) (i : Nat) : Option Nat := do
  let i ← ts.inRange? i
  let name ← ts.nextSignificant? i
  let name ← if ts.isAt .ampersand name then ts.nextSignificant? name else some name
  if ts.isAt .identifier name then some name else none

/-- The name that the declaration at `i` gives, none for anonymous classes and closures. -/
def declaredName? (ts : Tokens) (i : Nat) : Option String := (ts.declaredNameIndex? i).map ts.textAt

/-- The tokens from `start` on and before `stop`, each with its index. -/
def slice (ts : Tokens) (start stop : Nat) : List (Nat × Token) :=
  (List.range' start (stop - start)).filterMap fun i => ts[i]?.map ((i, ·))

/-- The significant tokens from `start` on and before `stop`, each with its index. -/
def significantIn (ts : Tokens) (start stop : Nat) : List (Nat × Token) :=
  (List.range' start (stop - start)).filterMap fun i =>
    (ts[i]?.filter (!·.kind.isTrivia)).map ((i, ·))

/-- The significant tokens from `i` on, each with its index, up to the first one whose kind fails a
test. -/
def significantWhile (ts : Tokens) (test : TokenKind → Bool) (i : Nat) : List (Nat × Token) :=
  if h : i < ts.size then
    if ts[i].kind.isTrivia then significantWhile ts test (i + 1)
    else if test ts[i].kind then (i, ts[i]) :: significantWhile ts test (i + 1)
    else []
  else []
termination_by ts.size - i

theorem findFrom?_spec (ts : Tokens) (wanted stop : TokenKind → Bool) (i j : Nat)
    (h : ts.findFrom? wanted stop i = some j) :
    i ≤ j ∧ j < ts.size ∧ ts.kindSatisfies wanted j = true := by
  fun_induction findFrom? ts wanted stop i with
  | case1 i hi hw =>
    obtain rfl : i = j := by simpa using h
    exact ⟨Nat.le_refl _, hi, by simp [kindSatisfies, kindAt?, hi, hw]⟩
  | case2 => simp at h
  | case3 i hi hw hs ih => exact ⟨by have := (ih h).1; omega, (ih h).2⟩
  | case4 => simp at h

theorem lt_of_findBefore? (ts : Tokens) (wanted : TokenKind → Bool) (i j : Nat)
    (h : ts.findBefore? wanted i = some j) :
    j < i ∧ j < ts.size ∧ ts.kindSatisfies wanted j = true := by
  induction i with
  | zero => simp [findBefore?] at h
  | succ i ih =>
    rw [findBefore?] at h
    split at h
    next hw =>
      obtain rfl : i = j := by simpa using h
      have hlt : i < ts.size := by
        by_cases hi : i < ts.size
        · exact hi
        · simp [kindSatisfies, kindAt?, hi] at hw
      exact ⟨Nat.lt_succ_self _, hlt, hw⟩
    next => exact ⟨by have := (ih h).1; omega, (ih h).2⟩

theorem lt_of_nextSignificant? {ts : Tokens} {i j : Nat} (h : ts.nextSignificant? i = some j) :
    i < j ∧ j < ts.size := by
  have := findFrom?_spec _ _ _ _ _ h
  omega

theorem lt_of_prevSignificant? {ts : Tokens} {i j : Nat} (h : ts.prevSignificant? i = some j) :
    j < i ∧ j < ts.size := by
  have := lt_of_findBefore? _ _ _ _ h
  omega

end PhpRename.Tokens
