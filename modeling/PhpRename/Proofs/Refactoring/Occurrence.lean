import PhpRename.Proofs.Edit.Address
import PhpRename.Proofs.Lexer.Tiling
import PhpRename.Proofs.Refactoring.Proposals
import PhpRename.Proofs.Token.Drift

/-!
# Occurrences of a name

Every edit of a rename stands for an occurrence: a place where the text of a token shows the old
name. The pieces of the token's span tell where the occurrence is in the source and what its bytes
are. The edit has the line of the occurrence, and its column up to the drift of what the token has
before it; it aims at the occurrence just where there is no drift and the name is spelled in full.
-/

set_option autoImplicit false

namespace PhpRename

open Utf8 Lexer

/-- A place in a source: a token, the pieces of its span before that place, and those at it. -/
structure Occurrence where
  token : Nat
  before : List Piece
  found : List Piece

namespace Occurrence

/-- Where an occurrence starts in its source. -/
def start (o : Occurrence) (source : Bytes) : Nat :=
  spanStart source o.token + (o.before.flatMap Piece.bytes).length

/-- Where an occurrence stops in its source. -/
def stop (o : Occurrence) (source : Bytes) : Nat := o.start source + (o.found.flatMap Piece.bytes).length

/-- The text of a token shows a name at an occurrence. -/
structure Shows (o : Occurrence) (source : Bytes) (name : String) : Prop where
  pieces : ∃ span after, (spans source)[o.token]? = some span ∧ cut span = o.before ++ o.found ++ after
  shown : o.found.map Piece.shown = name.toList

/-- Nothing in the token has drifted before an occurrence, and its name is spelled in full. -/
structure Intact (o : Occurrence) : Prop where
  still : drift o.before = 0
  spelled : ∀ p ∈ o.found, p.char? ≠ none

/-- An edit that puts a new name in the place of an occurrence of an old one, up to the drift. -/
structure Proposed (o : Occurrence) (source : Bytes) (old new : String) (e : Edit) : Prop where
  shows : o.Shows source old
  line : e.line = (Position.ofOffset source (o.start source)).line
  column : e.column = (Position.ofOffset source (o.start source)).column + drift o.before
  length : e.length = (encode old).length
  replacement : e.replacement = new

variable {o : Occurrence} {source : Bytes} {name old new : String} {e : Edit}

/-! ## Bytes of an occurrence -/

/-- The source from an occurrence on: the rest of its token, and what follows the token. -/
theorem Shows.drop_start (h : o.Shows source name) : ∃ span after, cut span = o.before ++ o.found ++ after ∧
    span = o.before.flatMap Piece.bytes ++ (o.found ++ after).flatMap Piece.bytes ∧
    Meet span ((spans source).drop (o.token + 1)).flatten ∧
    source.drop (o.start source) =
      (o.found ++ after).flatMap Piece.bytes ++ ((spans source).drop (o.token + 1)).flatten := by
  obtain ⟨span, after, token, pieces⟩ := h.pieces
  have whole := eq_append_of_cut ((List.append_assoc ..).symm ▸ pieces)
  refine ⟨span, after, pieces, whole, meet_span token, ?_⟩
  rw [start, ← List.drop_drop, drop_spanStart token]
  conv => lhs; rw [whole]
  rw [List.append_assoc, List.drop_left]

theorem Shows.isPiece (h : o.Shows source name) : ∀ p ∈ o.before ++ o.found, p.IsPiece := by
  obtain ⟨span, after, -, pieces⟩ := h.pieces
  intro p hp
  have mem : p ∈ cut span := by
    rw [pieces]
    exact List.mem_append_left _ hp
  exact isPiece_of_mem_cut mem

/-- An occurrence lies in its token. -/
theorem Shows.stop_le (h : o.Shows source name) : o.stop source ≤ spanStart source (o.token + 1) := by
  obtain ⟨span, after, token, pieces⟩ := h.pieces
  have len := congrArg List.length (eq_append_of_cut pieces)
  rw [spanStart_succ token, stop, start]
  simp only [List.flatMap_append, List.length_append] at len
  omega

/-- The name stands in the source at an occurrence just where none of its pieces is ill-formed. -/
theorem Shows.encode_iff (h : o.Shows source name) :
    encode name <+: source.drop (o.start source) ↔ ∀ p ∈ o.found, p.char? ≠ none := by
  obtain ⟨span, after, pieces, whole, meet, rest⟩ := h.drop_start
  rw [rest]
  constructor
  · intro encoded p hp
    have length : o.found.length = name.toList.length := by rw [← h.shown, List.length_map]
    rw [List.append_assoc] at pieces
    rw [whole] at meet
    rw [eq_map_ofChar_of_encode (cut_flatMap_of_append pieces) meet length encoded] at hp
    obtain ⟨c, -, rfl⟩ := List.mem_map.1 hp
    exact nofun
  · intro chars
    have spelled := flatMap_bytes_of_char (fun p hp => h.isPiece p (List.mem_append_right _ hp)) chars
    rw [h.shown] at spelled
    rw [List.flatMap_append, spelled, List.append_assoc]
    exact List.prefix_append _ _

/-- **An edit aims at its occurrence** just where that is intact. -/
theorem Proposed.targets_iff (h : o.Proposed source old new e) :
    e.Targets source (o.start source) (encode old) ↔ o.Intact := by
  have column := h.column
  constructor
  · intro targets
    refine ⟨?_, h.shows.encode_iff.1 targets.stands⟩
    have key := congrArg Position.column targets.key
    simp only [Edit.key] at key
    omega
  · intro intact
    refine ⟨?_, h.length, h.shows.encode_iff.2 intact.spelled⟩
    rw [Edit.key, h.line, column, intact.still]
    rfl

/-- An edit addresses the old name just where that stands behind its occurrence by the drift. -/
theorem Proposed.addressed_iff (h : o.Proposed source old new e) (no : 0x0a ∉ encode old)
    (nonempty : encode old ≠ []) :
    e.addressed source = encode old ↔ e.Targets source (o.start source + drift o.before) (encode old) := by
  constructor
  · intro addressed
    have line := h.line
    have column := h.column
    have linePos : 1 ≤ (Position.ofOffset source (o.start source)).line := Nat.le_add_left 1 _
    have columnPos : 1 ≤ (Position.ofOffset source (o.start source)).column := Nat.le_add_left 1 _
    obtain ⟨n, targets⟩ := Edit.targets_of_addressed (by omega) (by omega) nonempty h.length addressed
    have same : n = o.start source + drift o.before := by
      have bound := targets.offset_le nonempty
      have inside : o.start source ≤ source.length :=
        Nat.le_trans (Nat.le_add_right _ _) (Nat.le_trans h.shows.stop_le (spanStart_le source _))
      have lineN : e.line = (Position.ofOffset source n).line := congrArg Position.line targets.key
      have columnN : e.column = (Position.ofOffset source n).column := congrArg Position.column targets.key
      rcases Nat.le_total (o.start source) n with le | le
      · have := Position.column_ofOffset le bound (by omega)
        omega
      · have := Position.column_ofOffset le inside (by omega)
        omega
    rw [← same]
    exact targets
  · intro targets
    exact targets.addressed no nonempty

end Occurrence

end PhpRename
