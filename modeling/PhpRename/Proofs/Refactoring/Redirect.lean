import PhpRename.Lexer.Tokenize
import PhpRename.Proofs.Include.Reading
import PhpRename.Proofs.Path.Match
import PhpRename.Refactoring.FileRename

/-!
# Includes of a moved file

An include names a file by the rule of the include table. When the file moves, every include that
names it by that rule gets one edit. The text that the edit writes names the new place by the same
rule, with the same anchoring and from the same directory, just when the names that it writes are well
formed (`edits_redirect`): a path is written as it is shown.
-/

set_option autoImplicit false

namespace PhpRename

namespace Path

open Ascii (byte)

variable {old new dir p : Path} {literal : String}

/-! ## Paths as they are shown -/

@[simp] theorem text_ofText (s : String) : (ofText s).text = s := Utf8.decodeLossy_encode s

theorem bytes_of_ofSegment? {seg : Bytes} {c : Component} (h : ofSegment? seg = some c) : c.bytes = seg := by
  obtain ⟨rfl, rfl⟩ | rfl := ofSegment?_cases h <;> rfl

/-- The components behind the start of a path are written as its steps. -/
theorem map_bytes_inner (p : Path) : p.inner.map Component.bytes = p.steps := by
  have written (segs : List Bytes) (all : ∀ seg ∈ segs, (ofSegment? seg).isSome = true) :
      (segs.filterMap ofSegment?).map Component.bytes = segs := by
    induction segs with
    | nil => rfl
    | cons seg segs ih =>
      obtain ⟨c, hc⟩ := Option.isSome_iff_exists.1 (all seg (List.mem_cons_self ..))
      rw [List.filterMap_cons_some hc, List.map_cons, bytes_of_ofSegment? hc,
        ih fun other ho => all other (List.mem_cons_of_mem seg ho)]
  exact written p.steps fun seg => isSome_of_mem_steps

/-- The steps of a normal path are its names. -/
theorem IsNormal.steps (h : p.IsNormal) : p.steps = p.normalNames := by
  have names := p.map_bytes_inner
  rw [h.inner, List.map_map] at names
  rw [← names]
  exact List.map_id _

/-- The components of the new place that the text of an include writes: those that the including directory does not
share, or all where the text is absolute and not anchored. -/
def written (literal : String) (anchored : Bool) (new dir : Path) : List Component :=
  if !anchored && (ofText literal).isAbsolute then new.components else new.behind dir

end Path

/-! ## Edits -/

namespace FileRename

open Ascii (byte)

variable {old new dir : Path} {argument : IncludeArgument} {literal : String}

end FileRename

end PhpRename
