import EbnfTables.Source.Blank
import EbnfTables.Source.CharClass
import EbnfTables.Source.Literal
import EbnfTables.Source.Name

/-!
# Reading the right side of a definition

Alternatives are read by a machine with a stack.

* A `Frame` is an alternation that was begun and is not finished: where it starts, the
  alternatives before its last bar, and the items read since.
* A `Config` is the frame of the innermost open group (or of the definition itself), the frames
  around it, and what is left of the text.
* `Config.step` reads one item, bar or quantifier, opens a group, or closes the innermost
  alternation; what it leaves is shorter than what it found.
* `Config.run` repeats this until the definition is closed or the text is refused.

A definition ends with its line, so line breaks separate items only inside a group.  What was begun
when a text is refused is kept in an `Interruption`.
-/

namespace EbnfTables

/-- Reads an item other than a group: a literal, a class or a reference.  There is no result if the
text does not begin with one. -/
def readAtom? (cs : List Char) : Option (Except Fault (Expr .item × List Char)) :=
  match cs with
  | [] => none
  | c :: cs' =>
    if c = '"' then
      some (match readLiteral cs cs' with
        | .error fault => .error fault
        | .ok (chars, rest) => .ok (.literal chars, rest))
    else if c = '[' then some (readClass cs cs')
    else (readName? cs).map fun (name, rest) => .ok (.ref name, rest)

theorem readAtom?_remains {cs rest : List Char} {e : Expr .item}
    (h : readAtom? cs = some (.ok (e, rest))) : Text.Remains rest cs := by
  cases cs with
  | nil => cases h
  | cons c cs =>
    simp only [readAtom?] at h
    split at h
    · split at h
      · cases h
      · rename_i hread
        cases h
        exact (readLiteral_remains hread).trans .tail
    · split at h
      · exact (readClass_remains (Option.some.inj h)).trans .tail
      · obtain ⟨⟨name, after⟩, hread, heq⟩ := Option.map_eq_some_iff.1 h
        cases heq
        exact readName?_remains hread

/-- Reads the end of a line, or finds the end of the text. -/
def readLineEnd? (cs : List Char) : Option (List Char) :=
  match cs with
  | [] => some []
  | c :: cs' =>
    if c = '\n' then some cs'
    else if c = '\r' then some ((Text.after? ['\n'] cs').getD cs')
    else none

theorem readLineEnd?_suffix {cs rest : List Char} (h : readLineEnd? cs = some rest) :
    rest <:+ cs := by
  cases cs with
  | nil => cases h; exact List.suffix_rfl
  | cons c cs =>
    simp only [readLineEnd?] at h
    split at h
    · cases h; exact List.suffix_cons c _
    · split at h
      · cases h
        refine List.IsSuffix.trans ?_ (List.suffix_cons c cs)
        cases hp : Text.after? ['\n'] cs with
        | none => exact List.suffix_rfl
        | some after =>
          rw [Text.after?_eq_some_iff.1 hp]
          exact List.suffix_append _ _
      · cases h

/-- An alternation that is not finished. -/
structure Frame where
  /-- The text from the start of the alternation on. -/
  site : List Char
  /-- The alternatives before the last bar. -/
  earlier : Option (Expr .alternatives)
  /-- The items after the last bar. -/
  current : Expr .sequence

namespace Frame

/-- An alternation of which nothing was read. -/
def start (site : List Char) : Frame := ⟨site, none, .nothing⟩

/-- What was read so far. -/
def body (f : Frame) : Expr .alternatives :=
  match f.earlier with
  | none => .only f.current
  | some earlier => .orElse earlier f.current

/-- Adds an item. -/
def push (f : Frame) (e : Expr .item) : Frame := { f with current := .snoc f.current e }

/-- Adds a bar. -/
def bar (f : Frame) : Frame := { f with earlier := some f.body, current := .nothing }

/-- Adds a quantifier, if there is something to repeat. -/
def quantify? (f : Frame) (q : Quantifier) : Option Frame :=
  (f.current.quantifyLast? q).map fun current => { f with current }

end Frame

/-- The state of reading alternatives. -/
structure Config where
  /-- The innermost open alternation. -/
  frame : Frame
  /-- The alternations around it, the nearest first. -/
  outer : List Frame
  /-- What is left of the text. -/
  rest : List Char

/-- What one step of reading leads to. -/
inductive Move
  /-- There is more to read. -/
  | more (next : Config)
  /-- The alternation of the definition is closed. -/
  | done (body : Expr .alternatives) (rest : List Char)
  /-- The text is refused; the flag tells whether the innermost alternation itself was read to its
  end. -/
  | failed (fault : Fault) (finished : Bool)

namespace Config

/-- How items are separated: inside a group, line breaks are blanks. -/
def spacing (c : Config) : Spacing :=
  match c.outer with
  | [] => .sameLine
  | _ :: _ => .anyLine

/-- Goes on with another frame behind the blanks. -/
def resume (c : Config) (frame : Frame) (rest : List Char) : Config :=
  { c with frame, rest := c.spacing.skip rest }

/-- Opens a group behind its parenthesis. -/
def openGroup (c : Config) (rest : List Char) : Config :=
  let rest := Spacing.anyLine.skip rest
  ⟨.start rest, c.frame :: c.outer, rest⟩

/-- Closes the innermost alternation.  It must not be empty; a group ends with a parenthesis, a
definition with its line or with the text. -/
def close (c : Config) : Move :=
  if c.frame.body.contributes then
    match c.outer with
    | [] =>
      match readLineEnd? c.rest with
      | none => .failed ⟨.expectingNewline, c.rest⟩ true
      | some rest => .done c.frame.body rest
    | frame :: outer =>
      match c.rest with
      | [] => .failed ⟨.unexpectedEnd, c.rest⟩ true
      | ch :: rest =>
        if ch = ')' then
          .more (Config.resume ⟨frame, outer, rest⟩ (frame.push (.group c.frame.body)) rest)
        else .failed ⟨.expectingCloseParen, c.rest⟩ true
  else .failed ⟨.emptyAlternation, c.frame.site⟩ false

/-- Reads one item, bar, quantifier or parenthesis.  At most `limit` groups may be open. -/
def step (limit : Nat) (c : Config) : Move :=
  match readAtom? c.rest with
  | some (.error fault) => .failed fault false
  | some (.ok (e, rest)) => .more (c.resume (c.frame.push e) rest)
  | none =>
    match c.rest with
    | [] => c.close
    | ch :: rest =>
      if ch = '(' then
        if c.outer.length < limit then .more (c.openGroup rest)
        else .failed ⟨.nestingTooDeep limit, c.rest⟩ false
      else if ch = '|' then
        .more { c with frame := c.frame.bar, rest := Spacing.anyLine.skip rest }
      else
        match Quantifier.ofSign? ch with
        | none => c.close
        | some q =>
          match c.frame.quantify? q with
          | none => .failed ⟨.missingOperand, c.rest⟩ false
          | some frame => .more (c.resume frame rest)

theorem resume_remains {c : Config} {frame : Frame} {rest text : List Char}
    (h : Text.Remains rest text) : Text.Remains (c.resume frame rest).rest text :=
  .suffix_trans (Spacing.skip_suffix _ _) h

theorem close_more_remains {c next : Config} (h : c.close = .more next) :
    Text.Remains next.rest c.rest := by
  obtain ⟨frame, outer, rest⟩ := c
  simp only [close] at h
  split at h
  · cases outer with
    | nil => simp only at h; split at h <;> cases h
    | cons f outer =>
      cases rest with
      | nil => cases h
      | cons ch rest =>
        simp only at h
        split at h
        · cases h; exact resume_remains .tail
        · cases h
  · cases h

/-- A step that does not end the reading leaves less text. -/
theorem step_more_remains {limit : Nat} {c next : Config} (h : c.step limit = .more next) :
    Text.Remains next.rest c.rest := by
  simp only [step] at h
  split at h
  · cases h
  · rename_i hread
    cases h
    exact resume_remains (readAtom?_remains hread)
  · split at h
    · exact close_more_remains h
    · rename_i ch rest hrest
      rw [hrest]
      split at h
      · split at h
        · cases h; exact .suffix_trans (Spacing.skip_suffix _ _) .tail
        · cases h
      · split at h
        · cases h; exact .suffix_trans (Spacing.skip_suffix _ _) .tail
        · split at h
          · rw [← hrest]; exact close_more_remains h
          · split at h
            · cases h
            · cases h; exact resume_remains .tail

end Config

/-- A refused text, with what was begun when it was refused. -/
structure Interruption where
  fault : Fault
  /-- The alternations that were begun, the innermost first. -/
  frames : List Frame
  /-- Whether the innermost of them was read to its end. -/
  finished : Bool

/-- Reads alternatives to the end of their definition, its line break included. -/
def Config.run (limit : Nat) (c : Config) :
    Except Interruption (Expr .alternatives × List Char) :=
  match _h : c.step limit with
  | .more next => next.run limit
  | .done body rest => .ok (body, rest)
  | .failed fault finished => .error ⟨fault, c.frame :: c.outer, finished⟩
termination_by c.rest.length
decreasing_by exact (step_more_remains _h).length_lt

/-- Reads the right side of a definition. -/
def readAlternatives (limit : Nat) (cs : List Char) :
    Except Interruption (Expr .alternatives × List Char) :=
  Config.run limit ⟨.start cs, [], cs⟩

theorem Config.close_done_suffix {c : Config} {body : Expr .alternatives} {rest : List Char}
    (h : c.close = .done body rest) : rest <:+ c.rest := by
  obtain ⟨frame, outer, text⟩ := c
  simp only [close] at h
  split at h
  · cases outer with
    | nil =>
      simp only at h
      split at h
      · cases h
      · rename_i hend
        cases h
        exact readLineEnd?_suffix hend
    | cons f outer =>
      cases text with
      | nil => cases h
      | cons ch text => simp only at h; split at h <;> cases h
  · cases h

theorem Config.step_done_suffix {limit : Nat} {c : Config} {body : Expr .alternatives}
    {rest : List Char} (h : c.step limit = .done body rest) : rest <:+ c.rest := by
  simp only [step] at h
  split at h
  · cases h
  · cases h
  · split at h
    · exact close_done_suffix h
    · split at h
      · split at h <;> cases h
      · split at h
        · cases h
        · split at h
          · exact close_done_suffix h
          · split at h <;> cases h

theorem Config.run_suffix {limit : Nat} {c : Config} {body : Expr .alternatives}
    {rest : List Char} (h : c.run limit = .ok (body, rest)) : rest <:+ c.rest := by
  fun_induction Config.run limit c with
  | case1 c next hstep ih => exact (ih h).trans (step_more_remains hstep).isSuffix
  | case2 c body' rest' hstep => cases h; exact step_done_suffix hstep
  | case3 => cases h

end EbnfTables
