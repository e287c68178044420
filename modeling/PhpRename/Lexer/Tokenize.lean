import PhpRename.Lexer.Scan
import PhpRename.Lexer.Nesting

/-!
# The tokens of a source

One sweep over the lexemes gives each token its place and the scopes around it; the links between
brackets and from scope owners to their braces are filled in once the whole nesting is known.
-/

set_option autoImplicit false

namespace PhpRename.Lexer

/-- The state of the sweep: where the next lexeme starts, the nesting there, and the tokens so
far. -/
structure Sweep where
  position : Position := .start
  nesting : Nesting := {}
  tokens : Tokens := #[]

/-- Takes one lexeme into the sweep. -/
def Sweep.push (s : Sweep) (l : Lexeme) : Sweep where
  position := s.position.after l.bytes
  nesting := s.nesting.step s.tokens.size l.kind
  tokens := s.tokens.push
    { kind := l.kind
      text := Utf8.decodeLossy l.bytes
      position := s.position
      conditions := s.nesting.scopesAt s.tokens.size l.kind }

/-- The links as a table by position, so that each token finds its own at once. -/
def slots (links : List (Nat × Nat)) (size : Nat) : Array (Option Nat) :=
  links.foldr (fun l table => table.setIfInBounds l.1 (some l.2)) (Array.replicate size none)

theorem size_slots (links : List (Nat × Nat)) (size : Nat) : (slots links size).size = size := by
  induction links with
  | nil => simp [slots]
  | cons l rest ih => simpa [slots] using ih

/-- A slot of the table holds what a look-up in the list of links finds. -/
theorem getElem?_slots {links : List (Nat × Nat)} {size i : Nat} (h : i < size) :
    (slots links size)[i]? = some (links.lookup i) := by
  induction links with
  | nil => simp [slots, h]
  | cons l rest ih =>
    obtain ⟨place, partner⟩ := l
    have hs := size_slots rest size
    simp only [slots, List.foldr_cons] at ih hs ⊢
    rw [Array.getElem?_setIfInBounds]
    by_cases e : place = i
    · subst e
      simp [hs, h, List.lookup_cons_self]
    · have e' : (i == place) = false := by simpa using Ne.symm e
      simp [e, e', List.lookup_cons, ih]

/-- The tokens with the links of the final nesting. -/
def Sweep.linked (s : Sweep) : Tokens :=
  let partners := slots s.nesting.links s.tokens.size
  let bodies := slots s.nesting.bodies s.tokens.size
  s.tokens.mapIdx fun i t =>
    { t with matching := partners[i]?.join, scopeOpener := bodies[i]?.join }

/-- Each token is linked as the final nesting says. -/
theorem Sweep.linked_eq (s : Sweep) :
    s.linked = s.tokens.mapIdx fun i t =>
      { t with matching := s.nesting.partner? i, scopeOpener := s.nesting.body? i } := by
  refine Array.ext (by simp [linked]) fun i hi _ => ?_
  have h : i < s.tokens.size := by simpa [linked] using hi
  simp [linked, getElem?_slots h, Nesting.partner?, Nesting.body?]

/-- The tokens of a source. -/
def tokenize (source : Bytes) : Tokens := ((lexemes source).foldl Sweep.push {}).linked

end PhpRename.Lexer
