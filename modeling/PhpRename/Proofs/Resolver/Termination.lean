import PhpRename.Proofs.Resolver.Steps

/-!
# Resolution ends

Walks along chains and types of expressions, by runs with a number of steps. The two call each other for what
stands in parentheses, and go on behind the partner of a bracket, wherever that is.

They end on the tokens of every source, with what the total functions answer and without a read past the last
token (`resolution_returns`): every step that is not a look-up goes further on in the tokens, since the links of
a source lead forward, and a look-up ends whatever is bound.
-/

set_option autoImplicit false

namespace PhpRename.Resolver

open TypeExpr

/-! ## Runs -/

/-- Putting the type of a text in its place, when that is known. -/
def settleRun (r : Resolver) (steps index : Nat) (text : String) : Except Fault String := do
  return (← typeRun (r.classOf? index) (r.found? index) steps 0 text).getD text

/-- The type of the expression from one token to another after the walk along it: none when it is a bare constant. -/
def walkedType (r : Resolver) (first stop : Nat) (found : Walk) : Except Fault (Option String) :=
  if found.complete && !found.text.isEmpty then do
    let behind ← if r.tokens.isAt .identifier first then
        r.tokens.firstLoud (List.range' (first + 1) (stop + 1 - (first + 1)))
      else .ok (some first)
    return if behind.isNone then none else some found.text
  else .ok none

mutual

/-- Walking along a chain from a token, with the text gathered so far; `last` is the last significant token of
the span. -/
def walkRun (r : Resolver) : Nat → Span → Nat → Nat → String → Bool → Except Fault Walk
  | 0, _, _, _, _, _ => .error .outOfSteps
  | steps + 1, span, last, index, text, afterAccess =>
    if index ≤ span.stop then do
      let t ← r.tokens.read index
      match t.kind with
      | .whitespace | .comment | .docComment => r.walkRun steps span last (index + 1) text afterAccess
      | .arrow | .doubleColon => r.walkRun steps span last (index + 1) (text ++ separator) true
      | .variableName | .identifier | .kwStatic =>
        let longer := text ++ linkText t afterAccess
        let next ← if span.resolveLast || index != last then r.settleRun steps span.start longer else .ok longer
        r.walkRun steps span last (index + 1) next false
      | .openParen =>
        if text.isEmpty then
          match t.matching with
          | none => return ⟨text, false⟩
          | some close =>
            match ← r.groupRun steps index close with
            | none => return ⟨text, false⟩
            | some inner => r.walkRun steps span last (close + 1) inner afterAccess
        else
          let called ← r.settleRun steps span.start (markCall text)
          match t.matching with
          | none => return ⟨called, false⟩
          | some close => r.walkRun steps span last (close + 1) called afterAccess
      | .openBracket =>
        if text.isEmpty then return ⟨text, false⟩
        else
          match t.matching with
          | none => return ⟨text ++ "[]", false⟩
          | some close => r.walkRun steps span last (close + 1) (text ++ "[]") afterAccess
      | _ => return ⟨text, false⟩
    else return ⟨text, true⟩

/-- The type of the expression between two parentheses. -/
def groupRun (r : Resolver) : Nat → Nat → Nat → Except Fault (Option String)
  | 0, _, _ => .error .outOfSteps
  | steps + 1, index, close => do
    match ← r.tokens.firstLoud (List.range' (index + 1) (close - (index + 1))) with
    | none => return none
    | some first =>
      match ← r.tokens.expressionEndRun steps first none with
      | none => return none
      | some last => r.expressionRun steps first last

/-- Walking along the chain from one token to another. -/
def chainRun (r : Resolver) : Nat → Nat → Nat → Bool → Except Fault Walk
  | 0, _, _, _ => .error .outOfSteps
  | steps + 1, start, stop, resolveLast => do
    let stop := min stop (r.tokens.size - 1)
    let last ← r.tokens.firstLoud (List.range' start (stop + 1 - start)).reverse
    r.walkRun steps ⟨start, stop, resolveLast⟩ (last.getD start) start "" false

/-- The type of the expression from one token to another. -/
def expressionRun (r : Resolver) : Nat → Nat → Nat → Except Fault (Option String)
  | 0, _, _ => .error .outOfSteps
  | steps + 1, start, stop =>
    match r.tokens.operand? start stop with
    | none => .ok none
    | some first =>
      match r.tokens.kindAt? first with
      | some .kwNew => .ok do
        let cls ← (r.tokens.nextSignificant? first).filter (· ≤ stop)
        if r.tokens.kindSatisfies (fun k => k == .identifier || k == .kwStatic) cls then
          some (Name.short (r.normalizeRoot cls (r.tokens.textAt cls)))
        else none
      | some .kwClone =>
        match r.tokens.nextSignificant? first with
        | some operand => if operand ≤ stop then r.expressionRun steps operand stop else .ok none
        | none => .ok none
      | some .variableName | some .identifier | some .kwStatic | some .openParen => do
        r.walkedType first stop (← r.chainRun steps first stop true)
      | _ => .ok none

end

/-- The type that an `=` assigns, through at most `n` chained assignments. -/
def assignedRun (r : Resolver) (steps : Nat) : Nat → Nat → Except Fault (Option String)
  | 0, _ => .ok none
  | n + 1, equal =>
    match (r.tokens.inRange? equal).bind r.tokens.nextSignificant? with
    | none => .ok none
    | some start => do
      match ← r.tokens.expressionEndRun steps start none with
      | none => return none
      | some stop =>
        match (r.tokens.nextSignificant? stop).filter (r.tokens.isAt .equal) with
        | some next => r.assignedRun steps n next
        | none => r.expressionRun steps start stop

/-- The type of a name at a token, of the text of the token when no name is given. -/
def nameRun (r : Resolver) (steps index : Nat) (name? : Option String) : Except Fault (Option String) :=
  match name?.or (r.tokens[index]?.map (·.text)) with
  | none => .ok none
  | some name => typeRun (r.classOf? index) (r.found? index) steps 0 name

/-- The text of the chain from one token to another. -/
def textRun (r : Resolver) (steps start stop : Nat) (resolveLast : Bool) : Except Fault String := do
  return (← r.chainRun steps start stop resolveLast).text

/-- The type of the receiver whose last token is `last`. -/
def receiverRun (r : Resolver) (steps last : Nat) : Except Fault (Option String) := do
  r.expressionRun steps (← r.tokens.chainStartRun steps last) last

/-! ## Walks and expressions -/

theorem settleRun_returns (r : Resolver) (index : Nat) (text : String) :
    Returns (r.settleRun · index text) (r.settle index text) := by
  obtain ⟨enough, found⟩ := typeRun_returns r index (Nat.zero_add (maxDepth + 1)) text
  refine ⟨enough, fun steps le => ?_⟩
  have looked := found steps le
  dsimp only at looked ⊢
  rw [settleRun, looked]
  rfl

theorem walkedType_eq {r : Resolver} {stop : Nat} (bound : stop < r.tokens.size) (first : Nat) (found : Walk) :
    r.walkedType first stop found = .ok (
      let isConstant := r.tokens.isAt .identifier first && (r.tokens.significantBetween? (first + 1) (stop + 1)).isNone
      if found.complete && !found.text.isEmpty && !isConstant then some found.text else none) := by
  rw [walkedType, Tokens.firstLoud_range' (first + 1) bound]
  cases found.complete && !found.text.isEmpty with
  | false => rfl
  | true =>
    cases r.tokens.isAt .identifier first with
    | false => rfl
    | true => cases r.tokens.significantBetween? (first + 1) (stop + 1) <;> rfl

/-- The walk from a token on returns what the total one answers. -/
def WalkReturns (r : Resolver) (span : Span) (index : Nat) : Prop :=
  ∀ text afterAccess, Returns (r.walkRun · span (r.tokens.lastSignificant span.start span.stop) index text afterAccess)
    (r.walk span index text afterAccess)

section

variable {r : Resolver} (forward : r.tokens.Forward)

/-! ### One turn of a walk -/

section

variable {span : Span} {index : Nat} (within : index ≤ span.stop) (lt : index < r.tokens.size)
  (further : ∀ j, index < j → WalkReturns r span j)
include within lt further

theorem walk_name_returns (kind : r.tokens[index].kind = .variableName ∨ r.tokens[index].kind = .identifier ∨
    r.tokens[index].kind = .kwStatic) : WalkReturns r span index := by
  intro text afterAccess
  let longer := text ++ linkText r.tokens[index] afterAccess
  have read := Tokens.read_of_lt lt
  have rest (text : String) := further (index + 1) (Nat.lt_succ_self index) text false
  by_cases looksUp : (span.resolveLast || index != r.tokens.lastSignificant span.start span.stop) = true
  · have total : r.walk span index text afterAccess = r.walk span (index + 1) (r.settle span.start longer) false := by
      rw [walk, dif_pos ⟨within, lt⟩]
      obtain kind | kind | kind := kind <;> simp only [kind, if_pos looksUp] <;> rfl
    rw [total]
    refine .next ?_
    filter_upwards [(settleRun_returns r span.start longer).eventually, (rest (r.settle span.start longer)).eventually]
      with steps settled rest
    obtain kind | kind | kind := kind <;>
      simp only [walkRun, if_pos within, read, kind, bind, Except.bind, if_pos looksUp, settled, rest, longer]
  · have total : r.walk span index text afterAccess = r.walk span (index + 1) longer false := by
      rw [walk, dif_pos ⟨within, lt⟩]
      obtain kind | kind | kind := kind <;> simp only [kind, if_neg looksUp] <;> rfl
    rw [total]
    refine .next ?_
    filter_upwards [(rest longer).eventually] with steps rest
    obtain kind | kind | kind := kind <;>
      simp only [walkRun, if_pos within, read, kind, bind, Except.bind, if_neg looksUp, rest, longer]

include forward in
/-- Behind a text, an argument list is passed over. -/
theorem walk_arguments_returns (kind : r.tokens[index].kind = .openParen) {text : String}
    (filled : ¬ text.isEmpty = true) (afterAccess : Bool) :
    Returns (r.walkRun · span (r.tokens.lastSignificant span.start span.stop) index text afterAccess)
      (r.walk span index text afterAccess) := by
  have read := Tokens.read_of_lt lt
  have settles := settleRun_returns r span.start (markCall text)
  rw [walk, dif_pos ⟨within, lt⟩]
  simp only [kind, if_neg filled]
  split
  · rename_i unlinked
    refine .next ?_
    filter_upwards [settles.eventually] with steps settled
    simp only [walkRun, if_pos within, read, kind, bind, Except.bind, if_neg filled, settled, unlinked]
    rfl
  · rename_i close linked
    have behind := (forward.opener index _ close (Array.getElem?_eq_getElem lt) (by rw [kind]; rfl) linked).1
    have rest := further (close + 1) (by omega) (r.settle span.start (markCall text)) afterAccess
    rw [Nat.max_eq_right behind.le]
    refine .next ?_
    filter_upwards [settles.eventually, rest.eventually] with steps settled rest
    simp only [walkRun, if_pos within, read, kind, bind, Except.bind, if_neg filled, settled, linked, rest]

include forward in
/-- Behind a text, an index is passed over. -/
theorem walk_index_returns (kind : r.tokens[index].kind = .openBracket) : WalkReturns r span index := by
  intro text afterAccess
  have read := Tokens.read_of_lt lt
  rw [walk, dif_pos ⟨within, lt⟩]
  simp only [kind]
  split
  · rename_i empty
    refine .next (.of_forall fun steps => ?_)
    simp only [walkRun, if_pos within, read, kind, bind, Except.bind, if_pos empty]
    rfl
  rename_i filled
  split
  · rename_i unlinked
    refine .next (.of_forall fun steps => ?_)
    simp only [walkRun, if_pos within, read, kind, bind, Except.bind, if_neg filled, unlinked]
    rfl
  · rename_i close linked
    have behind := (forward.opener index _ close (Array.getElem?_eq_getElem lt) (by rw [kind]; rfl) linked).1
    rw [Nat.max_eq_right behind.le]
    refine .next ?_
    filter_upwards [(further (close + 1) (by omega) (text ++ "[]") afterAccess).eventually] with steps rest
    simp only [walkRun, if_pos within, read, kind, bind, Except.bind, if_neg filled, linked, rest]

/-- At the start of a chain, a group is the expression in it. -/
theorem walk_group_returns (kind : r.tokens[index].kind = .openParen) {text : String} (empty : text.isEmpty = true)
    (groups : ∀ close, r.tokens[index].matching = some close → index < close ∧
      Returns (r.groupRun · index close) ((r.tokens.significantBetween? (index + 1) close).bind fun first =>
        (r.tokens.expressionEnd? first).bind fun last => r.expressionType? first last)) (afterAccess : Bool) :
    Returns (r.walkRun · span (r.tokens.lastSignificant span.start span.stop) index text afterAccess)
      (r.walk span index text afterAccess) := by
  have read := Tokens.read_of_lt lt
  rw [walk, dif_pos ⟨within, lt⟩]
  simp only [kind, if_pos empty]
  split
  · rename_i unlinked
    refine .next (.of_forall fun steps => ?_)
    simp only [walkRun, if_pos within, read, kind, bind, Except.bind, if_pos empty, unlinked]
    rfl
  rename_i close linked
  obtain ⟨behind, group⟩ := groups close linked
  split
  · rename_i nothing
    rw [nothing] at group
    refine .next ?_
    filter_upwards [group.eventually] with steps grouped
    simp only [walkRun, if_pos within, read, kind, bind, Except.bind, if_pos empty, linked, grouped]
    rfl
  rename_i first found
  rw [found, Option.bind_some] at group
  split
  · rename_i untyped
    rw [untyped] at group
    refine .next ?_
    filter_upwards [group.eventually] with steps grouped
    simp only [walkRun, if_pos within, read, kind, bind, Except.bind, if_pos empty, linked, grouped]
    rfl
  · rename_i inner typed
    rw [typed] at group
    rw [Nat.max_eq_right behind.le]
    refine .next ?_
    filter_upwards [group.eventually, (further (close + 1) (by omega) inner afterAccess).eventually] with
      steps grouped rest
    simp only [walkRun, if_pos within, read, kind, bind, Except.bind, if_pos empty, linked, grouped, rest]

end

/-! ### Runs from walk to walk -/

section

variable {n : Nat} (expressions : ∀ start stop, stop < r.tokens.size → r.tokens.size - start < n →
  Returns (r.expressionRun · start stop) (r.expressionType? start stop))
include forward expressions

/-- What stands in a group further on is resolved as an expression. -/
theorem group_returns {index close : Nat} (left : r.tokens.size - index ≤ n) (inside : index < close)
    (bound : close < r.tokens.size) :
    Returns (r.groupRun · index close) ((r.tokens.significantBetween? (index + 1) close).bind fun first =>
      (r.tokens.expressionEnd? first).bind fun last => r.expressionType? first last) := by
  have reads := Tokens.firstLoud_range' (index + 1) bound.le
  cases start : r.tokens.significantBetween? (index + 1) close with
  | none =>
    refine .next (.of_forall fun steps => ?_)
    rw [groupRun, reads, start]
    rfl
  | some first =>
    have within := Tokens.lt_of_significantBetween? start
    have ends := forward.expressionEnd_returns within.2.1 none
    rw [Option.or_none] at ends
    rw [Option.bind_some]
    cases stop : r.tokens.expressionEnd? first with
    | none =>
      refine .next ?_
      filter_upwards [ends.eventually] with steps ends
      rw [groupRun, reads, start]
      dsimp only [bind, Except.bind]
      rw [ends, stop]
      rfl
    | some last =>
      refine .next ?_
      filter_upwards [ends.eventually,
        (expressions first last (Tokens.expressionEnd?_lt stop) (by omega)).eventually] with steps ends type
      rw [groupRun, reads, start]
      dsimp only [bind, Except.bind]
      rw [ends, stop]
      exact type

/-- A walk returns, since it only goes on. -/
theorem walk_returns {span : Span} (bound : span.stop < r.tokens.size) {index : Nat}
    (left : r.tokens.size - index ≤ n) : WalkReturns r span index := by
  induction size : r.tokens.size - index using Nat.strongRecOn generalizing index with
  | ind m ih =>
    by_cases within : index ≤ span.stop
    case neg =>
      intro text afterAccess
      rw [walk, dif_neg fun both => within both.1]
      refine .next (.of_forall fun steps => ?_)
      rw [walkRun, if_neg within]
      rfl
    have lt : index < r.tokens.size := by omega
    have read := Tokens.read_of_lt lt
    have further (j : Nat) (behind : index < j) : WalkReturns r span j := ih _ (by omega) (by omega) rfl
    have next := further (index + 1) (Nat.lt_succ_self index)
    cases kind : r.tokens[index].kind
    case variableName => exact walk_name_returns within lt further (.inl kind)
    case identifier => exact walk_name_returns within lt further (.inr (.inl kind))
    case kwStatic => exact walk_name_returns within lt further (.inr (.inr kind))
    case openBracket => exact walk_index_returns forward within lt further kind
    case openParen =>
      intro text afterAccess
      by_cases empty : text.isEmpty = true
      · refine walk_group_returns within lt further kind empty (fun close linked => ?_) afterAccess
        have inside := forward.opener index _ close (Array.getElem?_eq_getElem lt) (by rw [kind]; rfl) linked
        exact ⟨inside.1, group_returns forward expressions left inside.1 inside.2⟩
      · exact walk_arguments_returns forward within lt further kind empty afterAccess
    all_goals
      intro text afterAccess
      rw [walk, dif_pos ⟨within, lt⟩]
      simp only [kind]
    case whitespace | comment | docComment =>
      refine .next ?_
      filter_upwards [(next text afterAccess).eventually] with steps rest
      simp only [walkRun, if_pos within, read, kind, bind, Except.bind, rest]
    case arrow | doubleColon =>
      refine .next ?_
      filter_upwards [(next (text ++ separator) true).eventually] with steps rest
      simp only [walkRun, if_pos within, read, kind, bind, Except.bind, rest]
    all_goals
      refine .next (.of_forall fun steps => ?_)
      simp only [walkRun, if_pos within, read, kind, bind, Except.bind]
      rfl

theorem chain_returns (start : Nat) (left : r.tokens.size - start ≤ n) (nonempty : 0 < r.tokens.size) (stop : Nat)
    (resolveLast : Bool) : Returns (r.chainRun · start stop resolveLast) (r.walkChain start stop resolveLast) := by
  have bound : min stop (r.tokens.size - 1) < r.tokens.size := by omega
  have reads := Tokens.firstLoud_reverse_range' start bound
  have walks : WalkReturns r ⟨start, min stop (r.tokens.size - 1), resolveLast⟩ start :=
    walk_returns forward expressions bound left
  refine .next ?_
  filter_upwards [(walks "" false).eventually] with steps walked
  simp only [chainRun, reads, bind, Except.bind]
  exact walked

/-- An expression is resolved where those further on are. -/
theorem expression_step {start stop : Nat} (bound : stop < r.tokens.size) (left : r.tokens.size - start ≤ n) :
    Returns (r.expressionRun · start stop) (r.expressionType? start stop) := by
  rw [expressionType?]
  split
  · rename_i nothing
    refine .next (.of_forall fun steps => ?_)
    simp only [expressionRun, nothing]
  rename_i first found
  have behind := Tokens.le_of_operand? found
  split
  case h_1 kind =>
    refine .next (.of_forall fun steps => ?_)
    simp only [expressionRun, found, kind]
  case h_2 kind =>
    split
    · rename_i operand next
      have later := Tokens.lt_of_nextSignificant? next
      split
      · rename_i inside
        refine .next ?_
        filter_upwards [(expressions operand stop bound (by omega)).eventually] with steps type
        simp only [expressionRun, found, kind, next, if_pos inside, type]
      · rename_i outside
        refine .next (.of_forall fun steps => ?_)
        simp only [expressionRun, found, kind, next, if_neg outside]
    · rename_i next
      refine .next (.of_forall fun steps => ?_)
      simp only [expressionRun, found, kind, next]
  case h_3 kind | h_4 kind | h_5 kind | h_6 kind =>
    have walks : Returns (r.chainRun · first stop true) (r.walkChain first stop true) :=
      chain_returns forward expressions first (by omega) (by omega) stop true
    refine .next ?_
    filter_upwards [walks.eventually] with steps walked
    simp only [expressionRun, found, kind, bind, Except.bind, walked, walkedType_eq bound]
    rfl
  case h_7 =>
    refine .next (.of_forall fun steps => ?_)
    simp only [expressionRun, found]

end

include forward

theorem expression_returns (start : Nat) {stop : Nat} (bound : stop < r.tokens.size) :
    Returns (r.expressionRun · start stop) (r.expressionType? start stop) := by
  induction left : r.tokens.size - start using Nat.strongRecOn generalizing start stop with
  | ind n ih =>
    refine expression_step forward (fun start' stop' bound' less => ?_) bound left.le
    exact ih _ less start' bound' rfl

theorem text_returns (start : Nat) {stop : Nat} (bound : stop < r.tokens.size) (resolveLast : Bool) :
    Returns (r.textRun · start stop resolveLast) (r.walkChain start stop resolveLast).text := by
  obtain ⟨enough, walks⟩ := chain_returns forward (fun first _ bound _ => expression_returns forward first bound) start
    (Nat.le_refl _) (by omega) stop resolveLast
  refine ⟨enough, fun steps le => ?_⟩
  have walked := walks steps le
  dsimp only at walked ⊢
  rw [textRun, walked]
  rfl

theorem assigned_returns (n equal : Nat) : Returns (r.assignedRun · n equal) (r.assignedWithin n equal) := by
  induction n generalizing equal with
  | zero => exact ⟨0, fun _ _ => rfl⟩
  | succ n ih =>
    have total : r.assignedWithin (n + 1) equal =
        ((r.tokens.inRange? equal).bind r.tokens.nextSignificant?).bind fun start =>
          (r.tokens.expressionEnd? start).bind fun stop =>
            match (r.tokens.nextSignificant? stop).filter (r.tokens.isAt .equal) with
            | some next => r.assignedWithin n next
            | none => r.expressionType? start stop := by
      rw [assignedWithin, Option.bind_assoc]
      rfl
    rw [total]
    simp only [assignedRun]
    cases first : (r.tokens.inRange? equal).bind r.tokens.nextSignificant? with
    | none => exact ⟨0, fun _ _ => rfl⟩
    | some start =>
      obtain ⟨before, -, next⟩ := Option.bind_eq_some_iff.1 first
      have ends := forward.expressionEnd_returns (Tokens.lt_of_nextSignificant? next).2 none
      rw [Option.or_none] at ends
      rw [Option.bind_some]
      cases last : r.tokens.expressionEnd? start with
      | none =>
        rw [last] at ends
        refine .eventual ?_
        filter_upwards [ends.eventually] with steps ends
        simp only [ends, bind, Except.bind]
        rfl
      | some stop =>
        rw [last] at ends
        rw [Option.bind_some]
        cases following : (r.tokens.nextSignificant? stop).filter (r.tokens.isAt .equal) with
        | some again =>
          refine .eventual ?_
          filter_upwards [ends.eventually, (ih again).eventually] with steps ends rest
          simp only [ends, bind, Except.bind, following, rest]
        | none =>
          have type := expression_returns forward start (Tokens.expressionEnd?_lt last)
          refine .eventual ?_
          filter_upwards [ends.eventually, type.eventually] with steps ends type
          simp only [ends, bind, Except.bind, following, type]

theorem receiver_returns {last : Nat} (bound : last < r.tokens.size) :
    Returns (r.receiverRun · last) (r.receiverType? last) := by
  obtain ⟨enough, back⟩ := forward.chainStart_returns last
  obtain ⟨enough', type⟩ := expression_returns forward (r.tokens.chainStart last) bound
  refine ⟨max enough enough', fun steps le => ?_⟩
  have start := back steps (by omega)
  dsimp only at start ⊢
  rw [receiverRun, start]
  exact type steps (by omega)

end

/-- Looking up the type of a name returns. -/
theorem name_returns (r : Resolver) (index : Nat) (name : String) :
    Returns (r.nameRun · index (some name)) (r.typeOf? index name) := by
  unfold nameRun typeOf?
  rw [Option.some_or]
  exact typeRun_returns r index (Nat.zero_add (maxDepth + 1)) name

theorem token_returns (r : Resolver) (index : Nat) : Returns (r.nameRun · index none) (r.typeAt? index) := by
  unfold nameRun typeAt?
  rw [Option.none_or]
  cases r.tokens[index]? with
  | none => exact ⟨0, fun _ _ => rfl⟩
  | some t =>
    rw [Option.map_some, Option.bind_some, typeOf?]
    exact typeRun_returns r index (Nat.zero_add (maxDepth + 1)) t.text

/-- **Resolution ends.** On the tokens of any source, whatever is bound, included and declared, the type of a name
or of a token, the text of a chain, the name that an assignment binds, the type of an expression, what an `=` assigns
and the type of a receiver are found in a number of steps, without a read past the last token, and are what
the total functions answer. -/
theorem resolution_returns {r : Resolver} {source : Bytes} (tokens : r.tokens = Lexer.tokenize source) (start : Nat)
    {stop : Nat} (bound : stop < r.tokens.size) :
    (∀ name, Returns (r.nameRun · start (some name)) (r.typeOf? start name)) ∧
    Returns (r.nameRun · start none) (r.typeAt? start) ∧
    Returns (r.textRun · start stop true) (r.chainType start stop) ∧
    Returns (r.textRun · start stop false) (r.targetName start stop) ∧
    Returns (r.expressionRun · start stop) (r.expressionType? start stop) ∧
    Returns (r.assignedRun · maxDepth start) (r.assignedType? start) ∧
    Returns (r.receiverRun · stop) (r.receiverType? stop) := by
  have forward : r.tokens.Forward := tokens ▸ Lexer.tokenize_forward source
  exact ⟨name_returns r start, token_returns r start, text_returns forward start bound true,
    text_returns forward start bound false, expression_returns forward start bound,
    assigned_returns forward maxDepth start, receiver_returns forward bound⟩

/-- Two variables that are bound to each other, in a file with a chain that starts at a group. -/
def entangled : Resolver where
  includes := {}
  classes := ⟨[⟨"A", .ofText "/p/a.php", 0, some "B", []⟩, ⟨"B", .ofText "/p/b.php", 0, some "A", []⟩]⟩
  path := .ofText "/p/main.php"
  tokens := Lexer.tokenize (Utf8.encode "<?php $x = (clone $a)->b();")
  bindings := ⟨[⟨"/p/main.php", globalScope, "$a", "$b", 2⟩, ⟨"/p/main.php", globalScope, "$b", "$a", 4⟩], []⟩

/-- The variables lead to each other as often as types may be resolved, and the walk over the chain ends as well. -/
theorem resolution_returns_entangled :
    Returns (entangled.nameRun · 9 none) (some "$b") ∧
      Returns (entangled.expressionRun · 6 14) (entangled.expressionType? 6 14) := by
  have bound : 14 < entangled.tokens.size := by decide +kernel
  have type : entangled.typeAt? 9 = some "$b" := by decide +kernel
  have token := (@resolution_returns entangled _ rfl 9 14 bound).2.1
  have expression := (@resolution_returns entangled _ rfl 6 14 bound).2.2.2.2.1
  rw [type] at token
  exact ⟨token, expression⟩

end PhpRename.Resolver
