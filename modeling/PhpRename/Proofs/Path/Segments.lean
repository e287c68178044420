import PhpRename.Path.Basic

/-!
# Paths by their segments

What the operations on paths do to the segments that count: a path below another one has the
segments of both (`steps_push`), and the path above another one has all but the last
(`steps_parent`).
-/

set_option autoImplicit false

namespace PhpRename

/-! ## Cutting and joining -/

namespace Text

variable {α : Type}

theorem splitOn_append {sep : α → Bool} {c : α} (hc : sep c = true) (xs ys : List α) :
    splitOn sep (xs ++ c :: ys) = splitOn sep xs ++ splitOn sep ys := by
  induction xs with
  | nil => simp [splitOn, hc]
  | cons x xs ih =>
    rw [List.cons_append, splitOn, splitOn, ih]
    split
    · rfl
    · cases hp : splitOn sep xs with
      | nil => exact absurd hp (splitOn_ne_nil sep xs)
      | cons piece pieces => rfl

theorem splitOn_of_none {sep : α → Bool} {cs : List α} (h : ∀ c ∈ cs, sep c = false) :
    splitOn sep cs = [cs] := by
  induction cs with
  | nil => rfl
  | cons c cs ih =>
    have here : sep c = false := h c (by simp)
    rw [splitOn, ih fun d hd => h d (by simp [hd]), here]
    rfl

/-- A piece holds no separator, and nothing that is not in the text. -/
theorem of_mem_splitOn {sep : α → Bool} {cs piece : List α} (h : piece ∈ splitOn sep cs) :
    ∀ c ∈ piece, sep c = false ∧ c ∈ cs := by
  induction cs generalizing piece with
  | nil =>
    rw [splitOn, List.mem_singleton] at h
    simp [h]
  | cons d cs ih =>
    rw [splitOn] at h
    split at h
    · rcases List.mem_cons.1 h with rfl | h
      · simp
      · exact fun c hc => ⟨(ih h c hc).1, by simp [(ih h c hc).2]⟩
    · rename_i hd
      cases hp : splitOn sep cs with
      | nil => exact absurd hp (splitOn_ne_nil sep cs)
      | cons first pieces =>
        rw [hp] at h ih
        rcases List.mem_cons.1 h with rfl | h
        · intro c hc
          rcases List.mem_cons.1 hc with rfl | hc
          · exact ⟨by simpa using hd, by simp⟩
          · have := ih (List.mem_cons_self ..) c hc
            exact ⟨this.1, by simp [this.2]⟩
        · intro c hc
          have := ih (List.mem_cons_of_mem _ h) c hc
          exact ⟨this.1, by simp [this.2]⟩

/-- The pieces of joined pieces. -/
theorem splitOn_join [BEq α] [LawfulBEq α] {sep : α} {pieces : List (List α)} (ne : pieces ≠ [])
    (h : ∀ piece ∈ pieces, sep ∉ piece) : splitOn (· == sep) (join sep pieces) = pieces := by
  induction pieces with
  | nil => exact absurd rfl ne
  | cons piece pieces ih =>
    have alone : splitOn (· == sep) piece = [piece] := by
      refine splitOn_of_none fun c hc => beq_eq_false_iff_ne.2 ?_
      rintro rfl
      exact h piece (by simp) hc
    cases pieces with
    | nil => exact alone
    | cons next pieces =>
      rw [join, splitOn_append (by simp), alone, ih (by simp) fun q hq => h q (by simp [hq])]
      rfl

theorem mem_join {sep c : α} {pieces : List (List α)} (h : c ∈ join sep pieces) :
    c = sep ∨ ∃ piece ∈ pieces, c ∈ piece := by
  induction pieces with
  | nil => cases h
  | cons piece pieces ih =>
    cases pieces with
    | nil => exact .inr ⟨piece, by simp, h⟩
    | cons next pieces =>
      rw [join] at h
      rcases List.mem_append.1 h with h | h
      · exact .inr ⟨piece, by simp, h⟩
      rcases List.mem_cons.1 h with h | h
      · exact .inl h
      · rcases ih h with h | ⟨q, hq, h⟩
        · exact .inl h
        · exact .inr ⟨q, by simp [hq], h⟩

theorem mem_join_of_mem {sep c : α} {piece : List α} {pieces : List (List α)} (mem : piece ∈ pieces) (h : c ∈ piece) :
    c ∈ join sep pieces := by
  induction pieces with
  | nil => cases mem
  | cons first pieces ih =>
    cases pieces with
    | nil =>
      rw [List.mem_singleton.1 mem] at h
      exact h
    | cons next pieces =>
      rw [join]
      rcases List.mem_cons.1 mem with rfl | mem
      · exact List.mem_append_left _ h
      · exact List.mem_append_right _ (List.mem_cons_of_mem sep (ih mem))

/-- A join begins as its first piece does, when that one is not empty. -/
theorem head?_join {sep c : α} {piece : List α} (pieces : List (List α)) :
    (join sep ((c :: piece) :: pieces)).head? = some c := by
  cases pieces <;> rfl

end Text

namespace Path

open Ascii (byte)

/-! ## Segments -/

theorem segments_append (xs ys : Bytes) : segments (xs ++ byte '/' :: ys) = segments xs ++ segments ys :=
  Text.splitOn_append (by rfl) xs ys

theorem segments_slash (bs : Bytes) : segments (byte '/' :: bs) = [] :: segments bs := segments_append [] bs

theorem segments_dot (bs : Bytes) : segments (byte '.' :: byte '/' :: bs) = dot :: segments bs :=
  segments_append dot bs

/-- A path that begins with no slash has its first byte in its first segment. -/
theorem exists_segments_cons {b : UInt8} (h : b ≠ byte '/') (bs : Bytes) :
    ∃ seg segs, segments (b :: bs) = (b :: seg) :: segs := by
  have other : (b == byte '/') = false := by simpa using h
  rw [segments, Text.splitOn, other]
  cases Text.splitOn (· == byte '/') bs with
  | nil => exact ⟨[], [], rfl⟩
  | cons seg segs => exact ⟨seg, segs, rfl⟩

theorem segments_of_notMem {bs : Bytes} (h : byte '/' ∉ bs) : segments bs = [bs] := by
  refine Text.splitOn_of_none fun b hc => beq_eq_false_iff_ne.2 ?_
  rintro rfl
  exact h hc

theorem of_mem_segments {bs seg : Bytes} (h : seg ∈ segments bs) : byte '/' ∉ seg ∧ ∀ b ∈ seg, b ∈ bs := by
  have all := Text.of_mem_splitOn h
  exact ⟨fun slash => by simpa using (all _ slash).1, fun b hc => (all b hc).2⟩

theorem isSilent_iff {seg : Bytes} : isSilent seg = true ↔ seg = [] ∨ seg = dot := by
  rw [isSilent, ofSegment?]
  split
  · rename_i h
    simpa using h
  · rename_i h
    simp only [Bool.or_eq_true, beq_iff_eq] at h
    split <;> simp [h]

theorem of_mem_steps {p : Path} {seg : Bytes} (h : seg ∈ p.steps) :
    byte '/' ∉ seg ∧ (∀ b ∈ seg, b ∈ p.bytes) ∧ seg ≠ [] ∧ seg ≠ dot := by
  obtain ⟨mem, loud⟩ := List.mem_filter.1 h
  have quiet : ¬ isSilent seg = true := by simpa using loud
  rw [isSilent_iff, not_or] at quiet
  exact ⟨(of_mem_segments mem).1, (of_mem_segments mem).2, quiet.1, quiet.2⟩

/-! ## A path below another one -/

theorem bytes_push {p q : Path} (h : q.isAbsolute = false) :
    (p.push q).bytes = p.bytes ++ q.bytes ∧ (p.bytes = [] ∨ ∃ xs, p.bytes = xs ++ [byte '/']) ∨
      (p.push q).bytes = p.bytes ++ byte '/' :: q.bytes ∧ p.bytes ≠ [] := by
  rw [push, if_neg (by simp [h])]
  split
  · rename_i ends
    refine .inl ⟨rfl, ?_⟩
    simp only [Bool.or_eq_true, List.isEmpty_iff, beq_iff_eq] at ends
    refine ends.imp_right fun last => ?_
    exact List.getLast?_eq_some_iff.1 last
  · rename_i ends
    refine .inr ⟨rfl, fun empty => ends ?_⟩
    simp [empty]

/-- A path below another one has the segments of both. -/
theorem steps_push {p q : Path} (h : q.isAbsolute = false) : (p.push q).steps = p.steps ++ q.steps := by
  rcases bytes_push (p := p) h with ⟨written, empty | ⟨xs, ends⟩⟩ | ⟨written, -⟩
  · rw [steps, written, steps, empty]
    rfl
  · rw [steps, written, steps, ends, List.append_assoc, List.singleton_append, segments_append, segments_append,
      List.filter_append, List.filter_append]
    simp [segments, Text.splitOn, isSilent, ofSegment?, steps]
  · rw [steps, written, segments_append, List.filter_append]
    rfl

theorem isAbsolute_push {p q : Path} (h : q.isAbsolute = false) : (p.push q).isAbsolute = p.isAbsolute := by
  rcases bytes_push (p := p) h with ⟨written, empty | ⟨xs, ends⟩⟩ | ⟨written, ne⟩
  · have written : (p.push q).bytes = q.bytes := by rw [written, empty]; rfl
    have start : p.isAbsolute = false := by rw [isAbsolute, empty]; rfl
    rw [isAbsolute, written, start]
    exact h
  · rw [isAbsolute, written, isAbsolute, ends]
    cases xs <;> rfl
  · have cons : ∃ b bs, p.bytes = b :: bs := List.exists_cons_of_ne_nil (by simpa using ne)
    obtain ⟨b, bs, hc⟩ := cons
    rw [isAbsolute, written, isAbsolute, hc]
    rfl

/-- A name that stands below a path is its last segment. -/
theorem getLast?_segments_push {p q : Path} (h : q.isAbsolute = false) (name : byte '/' ∉ q.bytes) :
    (segments (p.push q).bytes).getLast? = some q.bytes := by
  rcases bytes_push (p := p) h with ⟨written, empty | ⟨xs, ends⟩⟩ | ⟨written, -⟩
  · rw [written, empty, List.nil_append, segments_of_notMem name]
    rfl
  · rw [written, ends, List.append_assoc, List.singleton_append, segments_append, segments_of_notMem name,
      List.getLast?_concat]
  · rw [written, segments_append, segments_of_notMem name, List.getLast?_concat]

theorem mem_push {p q : Path} (h : q.isAbsolute = false) {b : UInt8} (mem : b ∈ (p.push q).bytes) :
    b ∈ p.bytes ∨ b = byte '/' ∨ b ∈ q.bytes := by
  rcases bytes_push (p := p) h with ⟨written, -⟩ | ⟨written, -⟩
  · rw [written, List.mem_append] at mem
    exact mem.imp_right .inr
  · rw [written, List.mem_append, List.mem_cons] at mem
    exact mem

/-! ## The path above another one -/

theorem filter_dropSilent (segs : List Bytes) :
    (dropSilent segs).filter (!isSilent ·) = segs.filter (!isSilent ·) := by
  have drop : ∀ l : List Bytes, (l.dropWhile isSilent).filter (!isSilent ·) = l.filter (!isSilent ·) := by
    intro l
    induction l with
    | nil => rfl
    | cons seg l ih =>
      by_cases silent : isSilent seg = true
      · simp [silent, ih]
      · simp [silent]
  rw [dropSilent, List.filter_reverse, drop, ← List.filter_reverse, List.reverse_reverse]

/-- What is left once silent segments at the end are dropped ends in one that counts. -/
theorem dropSilent_eq (segs : List Bytes) :
    dropSilent segs = [] ∨ ∃ init last, dropSilent segs = init ++ [last] ∧ isSilent last = false := by
  cases h : segs.reverse.dropWhile isSilent with
  | nil => exact .inl (by rw [dropSilent, h]; rfl)
  | cons last init =>
    refine .inr ⟨init.reverse, last, by rw [dropSilent, h, List.reverse_cons], ?_⟩
    have := List.head?_dropWhile_not isSilent segs.reverse
    rw [h] at this
    simpa using this

theorem dropSilent_begins (segs : List Bytes) : dropSilent segs <+: segs := by
  have := List.dropWhile_suffix (l := segs.reverse) isSilent
  rw [← List.reverse_prefix, List.reverse_reverse] at this
  exact this

/-- Joined segments count as they do apart. -/
theorem filter_segments_join {segs : List Bytes} (h : ∀ seg ∈ segs, byte '/' ∉ seg) :
    (segments (Text.join (byte '/') segs)).filter (!isSilent ·) = segs.filter (!isSilent ·) := by
  cases segs with
  | nil => rfl
  | cons seg segs => rw [segments, Text.splitOn_join (by simp) h]

/-- How a path begins: with the root slash, with a `.` before a slash or the end, or with its
first segment. -/
theorem head_cases (p : Path) :
    (∃ rest, p.bytes = byte '/' :: rest ∧ p.headLength = 1) ∨
      (∃ rest, p.bytes = byte '.' :: rest ∧ p.headLength = 1 ∧ (rest = [] ∨ ∃ more, rest = byte '/' :: more)) ∨
      (p.isAbsolute = false ∧ p.headLength = 0) := by
  rw [headLength]
  cases written : p.bytes with
  | nil =>
    have relative : p.isAbsolute = false := by rw [isAbsolute, written]; rfl
    exact .inr (.inr ⟨relative, by simp [relative, segments, Text.splitOn, dot]⟩)
  | cons b rest =>
    by_cases slash : b = byte '/'
    · subst slash
      have absolute : p.isAbsolute = true := by rw [isAbsolute, written]; rfl
      exact .inl ⟨rest, rfl, by simp [absolute]⟩
    have relative : p.isAbsolute = false := by simp [isAbsolute, written, slash]
    by_cases current : (segments (b :: rest)).head? = some dot
    · refine .inr (.inl ?_)
      have cut : Text.join (byte '/') (segments (b :: rest)) = b :: rest := Text.join_splitOn (byte '/') (b :: rest)
      obtain ⟨more, hm⟩ := List.head?_eq_some_iff.1 current
      rw [hm] at cut
      cases more with
      | nil =>
        cases cut
        exact ⟨[], rfl, by simp [relative, current], .inl rfl⟩
      | cons next more =>
        refine ⟨byte '/' :: Text.join (byte '/') (next :: more), cut.symm, ?_, .inr ⟨_, rfl⟩⟩
        rw [if_neg (by simp [relative]), if_pos (by simp [current])]
    · exact .inr (.inr ⟨relative, by simp [relative, current]⟩)

/-- The start of a path that is no inner segment does not count. -/
theorem steps_eq (p : Path) :
    p.steps = (segments (p.bytes.drop p.headLength)).filter (!isSilent ·) := by
  rw [steps]
  obtain ⟨rest, written, length⟩ | ⟨rest, written, length, rfl | ⟨more, rfl⟩⟩ | ⟨-, length⟩ := head_cases p
  · rw [written, length, segments_slash]
    rfl
  · rw [written, length]
    rfl
  · rw [written, length, segments_dot, List.drop_one, List.tail_cons, segments_slash]
    rfl
  · rw [length, List.drop_zero]

/-- What stands before the last segment that counts, as written and as segments. -/
theorem parent?_eq (p : Path) :
    (p.steps = [] ∧ (p.parent? = none ∨ p.isAbsolute = false ∧ p.parent? = some ⟨[]⟩)) ∨
      ∃ above last, above ++ [last] <+: segments (p.bytes.drop p.headLength) ∧
        p.steps = above.filter (!isSilent ·) ++ [last] ∧
        p.parent? = some ⟨p.bytes.take p.headLength ++ Text.join (byte '/') (dropSilent above)⟩ := by
  have loud := filter_dropSilent (segments (p.bytes.drop p.headLength))
  rw [← steps_eq] at loud
  obtain none | ⟨above, last, parts, counts⟩ := dropSilent_eq (segments (p.bytes.drop p.headLength))
  · refine .inl ⟨by rw [← loud, none]; rfl, ?_⟩
    rw [parent?, none]
    simp only
    split
    · rename_i dot
      obtain ⟨rest, written, length⟩ | ⟨rest, written, length, -⟩ | ⟨-, length⟩ := head_cases p
      · rw [written, length] at dot
        cases dot
      · exact .inr ⟨by rw [isAbsolute, written]; rfl, rfl⟩
      · rw [length] at dot
        cases dot
    · exact .inl rfl
  · refine .inr ⟨above, last, ?_, ?_, ?_⟩
    · rw [← parts]
      exact dropSilent_begins _
    · rw [← loud, parts, List.filter_append, List.filter_cons, counts]
      rfl
    · rw [parent?, parts]
      split
      · rename_i nil
        simp at nil
      · rw [List.dropLast_concat]

/-- A path with a segment that counts has one above it. -/
theorem parent?_isSome {p : Path} (h : p.steps ≠ []) : ∃ q, p.parent? = some q := by
  obtain ⟨none, -⟩ | ⟨above, last, -, -, written⟩ := parent?_eq p
  · exact absurd none h
  · exact ⟨_, written⟩

theorem steps_eq_nil_of_parent? {p : Path} (h : p.parent? = none) : p.steps = [] := by
  obtain ⟨none, -⟩ | ⟨above, last, -, -, written⟩ := parent?_eq p
  · exact none
  · rw [written] at h
    cases h

/-- The path above another one is made of its bytes. -/
theorem mem_parent {p q : Path} (h : p.parent? = some q) {b : UInt8} (mem : b ∈ q.bytes) :
    b = byte '/' ∨ b ∈ p.bytes := by
  obtain ⟨-, no | ⟨-, empty⟩⟩ | ⟨above, last, initial, -, written⟩ := parent?_eq p
  · rw [no] at h
    cases h
  · rw [empty] at h
    cases h
    cases mem
  rw [written] at h
  cases h
  rw [List.mem_append] at mem
  rcases mem with start | below
  · exact .inr (List.mem_of_mem_take start)
  · refine (Text.mem_join below).imp_right ?_
    rintro ⟨seg, hs, mem⟩
    have part := initial.subset (List.mem_append_left [last] ((dropSilent_begins above).subset hs))
    exact List.mem_of_mem_drop ((of_mem_segments part).2 b mem)

/-- The path above another one has all but its last segment. -/
theorem steps_parent {p q : Path} (h : p.parent? = some q) :
    q.steps = p.steps.dropLast ∧ q.isAbsolute = p.isAbsolute := by
  obtain ⟨none, no | ⟨relative, empty⟩⟩ | ⟨above, last, initial, counts, written⟩ := parent?_eq p
  · rw [no] at h
    cases h
  · rw [empty] at h
    cases h
    exact ⟨by rw [none]; rfl, relative.symm⟩
  rw [written] at h
  cases h
  have begins : dropSilent above <+: segments (p.bytes.drop p.headLength) :=
    (dropSilent_begins above).trans ((List.prefix_append above [last]).trans initial)
  have noSlash : ∀ seg ∈ dropSilent above, byte '/' ∉ seg := fun seg hs => (of_mem_segments (begins.subset hs)).1
  rw [counts, List.dropLast_concat, ← filter_dropSilent above, steps, isAbsolute]
  obtain ⟨rest, whole, length⟩ | ⟨rest, whole, length, ends⟩ | ⟨relative, length⟩ := head_cases p
  · rw [isAbsolute, whole, length]
    refine ⟨?_, rfl⟩
    rw [← filter_segments_join noSlash, List.take_succ_cons, List.take_zero, List.cons_append, List.nil_append,
      segments_slash]
    rfl
  · rw [isAbsolute, whole, length]
    refine ⟨?_, rfl⟩
    rw [whole, length, List.drop_one, List.tail_cons] at begins
    -- Behind the dot, the segments above the last one begin with an empty one.
    cases kept : dropSilent above with
    | nil => rfl
    | cons first more =>
      rw [kept] at noSlash begins
      obtain rfl : first = [] := by
        obtain rfl | ⟨behind, rfl⟩ := ends
        · exact (List.cons_prefix_cons.1 begins).1
        · rw [segments_slash] at begins
          exact (List.cons_prefix_cons.1 begins).1
      cases more with
      | nil => rfl
      | cons next more =>
        have joined := filter_segments_join fun seg hs => noSlash seg (List.mem_cons_of_mem _ hs)
        rw [Text.join, List.take_succ_cons, List.take_zero, List.nil_append, List.cons_append, List.nil_append,
          segments_dot, List.filter_cons, List.filter_cons, joined]
        rfl
  · rw [length, List.take_zero, List.nil_append]
    refine ⟨filter_segments_join noSlash, ?_⟩
    rw [relative, beq_eq_false_iff_ne]
    rw [length, List.drop_zero] at begins
    cases kept : dropSilent above with
    | nil =>
      intro same
      cases same
    | cons first more =>
      rw [kept] at begins
      cases whole : p.bytes with
      | nil =>
        -- An empty path has no segment that counts.
        have silent : p.steps = [] := by rw [steps, whole]; rfl
        rw [silent] at counts
        simp at counts
      | cons b rest =>
        have other : b ≠ byte '/' := by
          rintro rfl
          rw [isAbsolute, whole] at relative
          cases relative
        obtain ⟨seg, segs, cut⟩ := exists_segments_cons other rest
        rw [whole, cut] at begins
        rw [(List.cons_prefix_cons.1 begins).1, Text.head?_join]
        exact fun same => other (Option.some.inj same)

end Path

end PhpRename
