import EbnfTables.Proofs.Offsets.Atoms
import EbnfTables.Proofs.Source.Sites

/-!
# Reading sources by byte offsets

The machine that reads right sides, and the reader of definitions, once more with byte offsets and
checks.

* A `State` is a configuration with offsets: an alternation that was begun remembers the offset at
  which it starts;
* `runAt` is the loop over the parts of a right side.  A round reads an item, a bar or a quantifier,
  goes into a group, or leaves one;
* `readDefinitionsAt` is the loop over the definitions.

Both loops check in every round that the offset has grown and is still inside the text.  In
particular it has grown whenever a group is gone into.

Main theorem: `readAt_eq`.  Reading by offsets makes no breach, and gives what `read` gives, with
places for end parts of the text.
-/

namespace EbnfTables.Offsets

variable {text cs : List Char} {limit : ℕ}

/-! ### States -/

/-- An alternation that was begun, with the offset at which it starts. -/
structure OpenAt where
  start : ℕ
  frame : Frame

/-- The state of reading alternatives. -/
structure State where
  innermost : OpenAt
  /-- The alternations around it, the nearest first. -/
  outer : List OpenAt
  offset : ℕ

/-- What one round leads to. -/
inductive Outcome
  /-- There is more to read. -/
  | more (next : State)
  /-- The alternation of the definition is closed. -/
  | done (body : Expr .alternatives) (stop : ℕ)
  | failed (fault : LocatedFault)

/-- An alternation with its place. -/
def openAt (text : List Char) (f : Frame) : OpenAt := ⟨place text f.site, f⟩

/-- A configuration with places for end parts of the text. -/
def stateAt (text : List Char) (c : Config) : State :=
  ⟨openAt text c.frame, c.outer.map (openAt text), place text c.rest⟩

/-- A move with places for end parts of the text. -/
def locateMove (text : List Char) : Move → Outcome
  | .more next => .more (stateAt text next)
  | .done body rest => .done body (place text rest)
  | .failed fault _ => .failed (locateFault text fault)

namespace State

/-- How items are separated: inside a group, line breaks are blanks. -/
def spacing (c : State) : Spacing :=
  match c.outer with
  | [] => .sameLine
  | _ :: _ => .anyLine

/-- Goes on with another frame behind the blanks. -/
def resume (text : List Char) (c : State) (frame : Frame) (offset : ℕ) : Checked Outcome := do
  let next ← skip c.spacing text offset
  return .more ⟨⟨c.innermost.start, frame⟩, c.outer, next⟩

/-- Refuses the text at an offset. -/
def refuse (text : List Char) (error : SyntaxError) (offset : ℕ) : Checked Outcome := do
  let position ← locate text offset
  return .failed ⟨error, position⟩

/-- Closes the innermost alternation. -/
def close (text : List Char) (c : State) : Checked Outcome :=
  if c.innermost.frame.body.contributes then
    match c.outer with
    | [] => do
      match ← readLineEndAt? text c.offset with
      | none => refuse text .expectingNewline c.offset
      | some stop => return .done c.innermost.frame.body stop
    | around :: outer => do
      match ← sliceFrom text c.offset with
      | [] => refuse text .unexpectedEnd c.offset
      | ch :: _ =>
        if ch = ')' then
          resume text ⟨around, outer, c.offset⟩
            (around.frame.push (.group c.innermost.frame.body)) (c.offset + ch.utf8Size)
        else refuse text .expectingCloseParen c.offset
  else refuse text .emptyAlternation c.innermost.start

/-- Reads one item, bar, quantifier or parenthesis. -/
def step (limit : ℕ) (text : List Char) (c : State) : Checked Outcome := do
  match ← readAtomAt? text c.offset with
  | some (.error fault) => return .failed fault
  | some (.ok (e, next)) => resume text c (c.innermost.frame.push e) next
  | none =>
    match ← sliceFrom text c.offset with
    | [] => close text c
    | ch :: _ =>
      if ch = '(' then
        if c.outer.length < limit then
          let next ← skip .anyLine text (c.offset + ch.utf8Size)
          let site ← sliceFrom text next
          return .more ⟨⟨next, .start site⟩, c.innermost :: c.outer, next⟩
        else refuse text (.nestingTooDeep limit) c.offset
      else if ch = '|' then
        let next ← skip .anyLine text (c.offset + ch.utf8Size)
        return .more ⟨⟨c.innermost.start, c.innermost.frame.bar⟩, c.outer, next⟩
      else
        match Quantifier.ofSign? ch with
        | none => close text c
        | some q =>
          match c.innermost.frame.quantify? q with
          | none => refuse text .missingOperand c.offset
          | some frame => resume text c frame (c.offset + ch.utf8Size)

theorem refuse_place {site : List Char} (h : site <:+ text) (error : SyntaxError)
    (finished : Bool) :
    refuse text error (place text site) =
      .ok (locateMove text (.failed ⟨error, site⟩ finished)) := by
  rw [refuse, locate_place h]
  rfl

theorem resume_stateAt {c : Config} {frame : Frame} {rest : List Char} (h : rest <:+ text)
    (hsite : frame.site = c.frame.site) :
    resume text (stateAt text c) frame (place text rest) =
      .ok (locateMove text (.more (c.resume frame rest))) := by
  have hspacing : (stateAt text c).spacing = c.spacing := by
    obtain ⟨f, outer, rest⟩ := c
    cases outer <;> rfl
  rw [resume, hspacing, skip_place h]
  simp only [locateMove, stateAt, openAt, Config.resume, hsite]
  rfl

theorem close_stateAt {c : Config} (h : c.Within text) :
    close text (stateAt text c) = .ok (locateMove text c.close) := by
  obtain ⟨f, outer, rest⟩ := c
  have hrest : rest <:+ text := h.rest
  simp only [close, Config.close, stateAt, openAt]
  by_cases hc : f.body.contributes
  · simp only [hc, if_true]
    cases outer with
    | nil =>
      simp only [List.map_nil]
      rw [readLineEndAt?_place hrest, ok_bind]
      cases readLineEnd? rest with
      | none => exact refuse_place hrest _ _
      | some stop => rfl
    | cons g outer =>
      simp only [List.map_cons]
      rw [sliceFrom_place hrest, ok_bind]
      cases rest with
      | nil => exact refuse_place hrest _ _
      | cons ch rest =>
        by_cases hch : ch = ')'
        · simp only [hch, if_true]
          subst hch
          rw [place_cons hrest]
          exact resume_stateAt (c := ⟨g, outer, rest⟩) ((List.suffix_cons _ _).trans hrest) rfl
        · simp only [hch, if_false]
          exact refuse_place hrest _ _
  · simp only [hc]
    exact refuse_place h.frame _ _

/-- A step by offsets makes no breach, and is a step of the machine. -/
theorem step_stateAt {c : Config} (h : c.Within text) :
    step limit text (stateAt text c) = .ok (locateMove text (c.step limit)) := by
  have hrest := h.rest
  have hoffset : (stateAt text c).offset = place text c.rest := rfl
  unfold step Config.step
  rw [hoffset, readAtomAt?_place hrest, ok_bind]
  cases hatom : readAtom? c.rest with
  | some result =>
    cases result with
    | error fault => rfl
    | ok result =>
      have hnext := (readAtom?_remains hatom).isSuffix.trans hrest
      exact resume_stateAt hnext rfl
  | none =>
    rw [Option.map_none]
    dsimp only
    rw [sliceFrom_place hrest, ok_bind]
    cases htext : c.rest with
    | nil => exact close_stateAt h
    | cons ch rest =>
      rw [htext] at hrest
      have hnext := (List.suffix_cons ch rest).trans hrest
      have hlength : (stateAt text c).outer.length = c.outer.length := List.length_map _
      simp only [place_cons hrest, hlength]
      by_cases hopen : ch = '('
      · simp only [hopen, if_true]
        by_cases hlimit : c.outer.length < limit
        · simp only [hlimit, if_true]
          rw [skip_place hnext, ok_bind,
            sliceFrom_place ((Spacing.anyLine.skip_suffix rest).trans hnext)]
          rfl
        · simp only [hlimit, if_false]
          subst hopen
          exact refuse_place hrest _ _
      · by_cases hbar : ch = '|'
        · simp only [hbar, if_true]
          rw [skip_place hnext]
          rfl
        · simp only [hopen, hbar, if_false]
          cases hsign : Quantifier.ofSign? ch with
          | none => exact close_stateAt h
          | some q =>
            have hframe : (stateAt text c).innermost.frame = c.frame := rfl
            simp only [hframe]
            cases hquantify : c.frame.quantify? q with
            | none => exact refuse_place hrest _ _
            | some frame =>
              obtain ⟨_, _, -, -, rfl⟩ := Frame.quantify?_eq_some_iff.1 hquantify
              exact resume_stateAt hnext rfl

end State

/-! ### Right sides -/

/-- Reads alternatives to the end of their definition. -/
def runAt (limit : ℕ) (text : List Char) (c : State) :
    Checked (Except LocatedFault (Expr .alternatives × ℕ)) := do
  match ← c.step limit text with
  | .more next =>
    if c.offset < next.offset ∧ next.offset ≤ Text.byteLength text then runAt limit text next
    else throw (.noProgress next.offset)
  | .done body stop => return .ok (body, stop)
  | .failed fault => return .error fault
termination_by Text.byteLength text - c.offset

/-- Only the fault of an interruption has a place. -/
def locateRun (text : List Char) :
    Except Interruption (Expr .alternatives × List Char) →
      Except LocatedFault (Expr .alternatives × ℕ)
  | .error i => .error (locateFault text i.fault)
  | .ok (body, rest) => .ok (body, place text rest)

theorem runAt_stateAt {c : Config} (h : c.Within text) :
    runAt limit text (stateAt text c) = .ok (locateRun text (c.run limit)) := by
  fun_induction Config.run limit c with
  | case1 c next hstep ih =>
    have hremains := Config.step_more_remains hstep
    rw [runAt, State.step_stateAt h, ok_bind, hstep]
    simp only [locateMove, stateAt, place_lt h.rest hremains, place_le, and_self, if_true]
    exact ih (h.step (Config.step_of_step_eq_more hstep))
  | case2 c body rest hstep =>
    rw [runAt, State.step_stateAt h, ok_bind, hstep]
    rfl
  | case3 c fault finished hstep =>
    rw [runAt, State.step_stateAt h, ok_bind, hstep]
    rfl

/-- Reads the right side of a definition. -/
def readAlternativesAt (limit : ℕ) (text : List Char) (offset : ℕ) :
    Checked (Except LocatedFault (Expr .alternatives × ℕ)) := do
  let site ← sliceFrom text offset
  runAt limit text ⟨⟨offset, .start site⟩, [], offset⟩

theorem readAlternativesAt_place (h : cs <:+ text) :
    readAlternativesAt limit text (place text cs) =
      .ok (locateRun text (readAlternatives limit cs)) := by
  rw [readAlternativesAt, sliceFrom_place h, ok_bind]
  exact runAt_stateAt (.start h)

/-! ### Definitions -/

/-- A definition with the place of its name. -/
structure LocatedDefinition where
  name : String
  position : Position
  body : Expr .alternatives

/-- A syntax error with its place, and name and place of the definition in which it arose. -/
structure LocatedRefusal where
  fault : LocatedFault
  begun : Option (String × Position)

/-- What a text was taken apart into, with places. -/
structure LocatedReading where
  definitions : List LocatedDefinition
  refusal : Option LocatedRefusal

/-- A definition with its place. -/
def locateDefinition (text : List Char) (d : Definition) : LocatedDefinition :=
  ⟨d.name, .ofRest text d.site, d.body⟩

/-- A refusal with its places. -/
def locateRefusal (text : List Char) (refusal : Refusal) : LocatedRefusal :=
  ⟨locateFault text refusal.fault,
    refusal.begun.map fun d => (d.name, .ofRest text d.site)⟩

/-- A reading with its places. -/
def locateReading (text : List Char) (r : Reading) : LocatedReading :=
  ⟨r.definitions.map (locateDefinition text), r.refusal.map (locateRefusal text)⟩

/-- Refuses the text at an offset. -/
def refuseAt {α : Type} (text : List Char) (error : SyntaxError) (offset : ℕ)
    (begun : Option (String × Position)) : Checked (Except LocatedRefusal α) := do
  let position ← locate text offset
  return .error ⟨⟨error, position⟩, begun⟩

/-- Reads one definition and the blanks behind it.  The place of its name is computed as soon as the
name was read: a definition may be refused there because its rule has a body already. -/
def readDefinitionAt (limit : ℕ) (text : List Char) (offset : ℕ) :
    Checked (Except LocatedRefusal (LocatedDefinition × ℕ)) := do
  match ← readNameAt? text offset with
  | none => refuseAt text .expectingName offset none
  | some (name, behindName) =>
    let sign ← skip .sameLine text behindName
    let position ← locate text offset
    match ← matchText? text sign [':', ':', '='] with
    | none => refuseAt text .expectingDefinition sign (some (name, position))
    | some behindSign =>
      let right ← skip .anyLine text behindSign
      match ← readAlternativesAt limit text right with
      | .error fault => return .error ⟨fault, some (name, position)⟩
      | .ok (body, stop) =>
        let next ← skip .anyLine text stop
        return .ok (⟨name, position, body⟩, next)

theorem readDefinitionAt_place (h : cs <:+ text) :
    readDefinitionAt limit text (place text cs) =
      .ok (match readDefinition limit cs with
        | .error refusal => .error (locateRefusal text refusal)
        | .ok (d, rest) => .ok (locateDefinition text d, place text rest)) := by
  unfold readDefinitionAt readDefinition
  rw [readNameAt?_place h, ok_bind]
  cases hname : readName? cs with
  | none =>
    simp only [Option.map_none]
    rw [refuseAt, locate_place h]
    rfl
  | some result =>
    obtain ⟨name, rest⟩ := result
    have hrest := (readName?_remains hname).isSuffix.trans h
    have hsign := (Spacing.sameLine.skip_suffix rest).trans hrest
    simp only [Option.map_some]
    rw [skip_place hrest, ok_bind, locate_place h, ok_bind, matchText?_place hsign, ok_bind]
    cases hmark : Text.after? [':', ':', '='] (Spacing.sameLine.skip rest) with
    | none =>
      simp only [Option.map_none]
      rw [refuseAt, locate_place hsign]
      rfl
    | some mark =>
      have hmark : mark <:+ text := by
        rw [Text.after?_eq_some_iff.1 hmark] at hsign
        exact (List.suffix_append _ _).trans hsign
      have hright := (Spacing.anyLine.skip_suffix mark).trans hmark
      simp only [Option.map_some]
      rw [skip_place hmark, ok_bind, readAlternativesAt_place hright, ok_bind]
      cases hread : readAlternatives limit (Spacing.anyLine.skip mark) with
      | error i => rfl
      | ok result =>
        obtain ⟨body, stop⟩ := result
        simp only [locateRun]
        rw [skip_place ((Config.run_suffix hread).trans hright)]
        rfl

/-- Reads definitions to the end of the text. -/
def readDefinitionsAt (limit : ℕ) (text : List Char) (offset : ℕ) : Checked LocatedReading := do
  match ← sliceFrom text offset with
  | [] => return ⟨[], none⟩
  | _ :: _ =>
    match ← readDefinitionAt limit text offset with
    | .error refusal => return ⟨[], some refusal⟩
    | .ok (d, next) =>
      if offset < next ∧ next ≤ Text.byteLength text then
        let more ← readDefinitionsAt limit text next
        return ⟨d :: more.definitions, more.refusal⟩
      else throw (.noProgress next)
termination_by Text.byteLength text - offset

theorem readDefinitionsAt_place (h : cs <:+ text) :
    readDefinitionsAt limit text (place text cs) =
      .ok (locateReading text (readDefinitions limit cs)) := by
  fun_induction readDefinitions limit cs with
  | case1 =>
    rw [readDefinitionsAt, sliceFrom_place h]
    rfl
  | case2 c cs refusal hread =>
    rw [readDefinitionsAt, sliceFrom_place h, ok_bind]
    dsimp only
    rw [readDefinitionAt_place h, hread]
    rfl
  | case3 c cs d rest hread more ih =>
    have hremains := readDefinition_remains hread
    rw [readDefinitionsAt, sliceFrom_place h, ok_bind]
    dsimp only
    rw [readDefinitionAt_place h, hread, ok_bind]
    simp only [place_lt h hremains, place_le, and_self, if_true]
    rw [ih (hremains.isSuffix.trans h)]
    rfl

/-- Takes the text of a grammar apart by byte offsets. -/
def readAt (limit : ℕ) (text : List Char) : Checked LocatedReading := do
  let first ← skip .anyLine text 0
  readDefinitionsAt limit text first

/-- Reading by offsets makes no breach, and gives what reading by end parts gives. -/
theorem readAt_eq (limit : ℕ) (text : List Char) :
    readAt limit text = .ok (locateReading text (read limit text)) := by
  rw [readAt, ← place_self text, skip_place List.suffix_rfl, ok_bind]
  exact readDefinitionsAt_place (Spacing.anyLine.skip_suffix text)

end EbnfTables.Offsets
