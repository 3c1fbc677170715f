import EbnfTables.Proofs.Offsets.Cursor
import EbnfTables.Source.Definition

/-!
# Reading the smallest parts by byte offsets

The readers of characters, literals, classes and names once more, with byte offsets in place of end
parts of the text.  They take every character from a checked cut, move by checked moves, and compute
the place of a fault when they report it.  The loops over the characters of a literal and over the
members of a class check in every round that the offset has grown and is still inside the text; this
is also why they end.

Beside each reader stands what it does at the place of an end part: it makes no breach, and gives
what the reader of end parts gives, with places for end parts (`locateResult`).
-/

namespace EbnfTables.Offsets

variable {text site cs : List Char}

/-! ### Faults and results -/

/-- A syntax error with its place. -/
structure LocatedFault where
  error : SyntaxError
  position : Position
  deriving DecidableEq

/-- A fault with its place. -/
def locateFault (text : List Char) (fault : Fault) : LocatedFault :=
  ⟨fault.error, .ofRest text fault.site⟩

/-- A result with places for end parts of the text. -/
def locateResult {α : Type} (text : List Char) :
    Except Fault (α × List Char) → Except LocatedFault (α × ℕ)
  | .error fault => .error (locateFault text fault)
  | .ok (a, rest) => .ok (a, place text rest)

/-- Refuses the text at an offset. -/
def failAt {α : Type} (text : List Char) (error : SyntaxError) (offset : ℕ) :
    Checked (Except LocatedFault α) := do
  let position ← locate text offset
  return .error ⟨error, position⟩

theorem failAt_place {α : Type} (h : site <:+ text) (error : SyntaxError) :
    failAt text error (place text site) =
      .ok (.error (locateFault text ⟨error, site⟩) : Except LocatedFault α) := by
  rw [failAt, locate_place h]
  rfl

/-! ### Characters and literals -/

/-- Reads a character of a literal or a class. -/
def readCharAt (text : List Char) (offset : ℕ) : Checked (Except LocatedFault (Char × ℕ)) := do
  let now ← sliceFrom text offset
  match readChar now with
  | .error error => failAt text error offset
  | .ok (c, rest) => return .ok (c, ← advanceTo text offset rest)

theorem readCharAt_of_error (h : cs <:+ text) {error : SyntaxError}
    (hread : readChar cs = .error error) :
    readCharAt text (place text cs) = .ok (.error (locateFault text ⟨error, cs⟩)) := by
  rw [readCharAt, sliceFrom_place h, ok_bind, hread]
  exact failAt_place h error

theorem readCharAt_of_ok (h : cs <:+ text) {c : Char} {rest : List Char}
    (hread : readChar cs = .ok (c, rest)) :
    readCharAt text (place text cs) = .ok (.ok (c, place text rest)) := by
  rw [readCharAt, sliceFrom_place h, ok_bind, hread]
  dsimp only
  rw [advanceTo_place h (readChar_remains hread).isSuffix]
  rfl

/-- Reads the characters of a literal and its closing quote. -/
def readLiteralAt (text : List Char) (start offset : ℕ) :
    Checked (Except LocatedFault (List Char × ℕ)) := do
  match ← sliceFrom text offset with
  | [] => failAt text .unterminatedLiteral start
  | c :: _ =>
    if c = '"' then return .ok ([], offset + c.utf8Size)
    else
      match ← readCharAt text offset with
      | .error fault => return .error fault
      | .ok (d, next) =>
        if offset < next ∧ next ≤ Text.byteLength text then
          match ← readLiteralAt text start next with
          | .error fault => return .error fault
          | .ok (ds, stop) => return .ok (d :: ds, stop)
        else throw (.noProgress next)
termination_by Text.byteLength text - offset

theorem readLiteralAt_of_readChar {c d : Char} {rest : List Char} (h : c :: cs <:+ text)
    (hc : c ≠ '"') (hread : readChar (c :: cs) = .ok (d, rest)) (start : ℕ) :
    readLiteralAt text start (place text (c :: cs)) = do
      match ← readLiteralAt text start (place text rest) with
      | .error fault => return .error fault
      | .ok (ds, stop) => return .ok (d :: ds, stop) := by
  rw [readLiteralAt, sliceFrom_place h, ok_bind]
  simp only [hc, if_false]
  rw [readCharAt_of_ok h hread, ok_bind]
  simp only [place_lt h (readChar_remains hread), place_le, and_self, if_true]

theorem readLiteralAt_place (hsite : site <:+ text) (h : cs <:+ text) :
    readLiteralAt text (place text site) (place text cs) =
      .ok (locateResult text (readLiteral site cs)) := by
  fun_induction readLiteral site cs with
  | case1 =>
    rw [readLiteralAt, sliceFrom_place h, ok_bind]
    exact failAt_place hsite _
  | case2 cs =>
    rw [readLiteralAt, sliceFrom_place h, ok_bind]
    simp only [if_true, place_cons h]
    rfl
  | case3 c cs hc error hread =>
    rw [readLiteralAt, sliceFrom_place h, ok_bind]
    simp only [hc, if_false]
    rw [readCharAt_of_error h hread]
    rfl
  | case4 c cs hc d rest hread fault hrest ih =>
    have hsuffix := (readChar_remains hread).isSuffix.trans h
    rw [readLiteralAt_of_readChar h hc hread, ih hsuffix, hrest]
    rfl
  | case5 c cs hc d rest hread ds rest' hrest ih =>
    have hsuffix := (readChar_remains hread).isSuffix.trans h
    rw [readLiteralAt_of_readChar h hc hread, ih hsuffix, hrest]
    rfl

/-! ### Classes -/

/-- Reads a member of a class. -/
def readMemberAt (text : List Char) (offset : ℕ) :
    Checked (Except LocatedFault (Member × ℕ)) := do
  match ← readCharAt text offset with
  | .error fault => return .error fault
  | .ok (c, next) =>
    match ← sliceFrom text next with
    | [] => return .ok (.single c, next)
    | dash :: behind =>
      if dash = '-' then
        match behind with
        | [] => failAt text .malformedRange next
        | d :: _ =>
          if d = ']' then return .ok (.single c, next)
          else
            match ← readCharAt text (next + dash.utf8Size) with
            | .error fault => return .error fault
            | .ok (upper, stop) => return .ok (.range c upper, stop)
      else return .ok (.single c, next)

theorem readMemberAt_place (h : cs <:+ text) :
    readMemberAt text (place text cs) = .ok (locateResult text (readMember cs)) := by
  unfold readMemberAt readMember
  cases hread : readChar cs with
  | error error =>
    rw [readCharAt_of_error h hread]
    rfl
  | ok result =>
    obtain ⟨c, rest⟩ := result
    have hrest := (readChar_remains hread).isSuffix.trans h
    rw [readCharAt_of_ok h hread, ok_bind]
    dsimp only
    rw [sliceFrom_place hrest, ok_bind]
    cases rest with
    | nil => rfl
    | cons dash behind =>
      by_cases hdash : dash = '-'
      · simp only [hdash, if_true]
        subst hdash
        cases behind with
        | nil => exact failAt_place hrest _
        | cons d ds =>
          by_cases hd : d = ']'
          · simp only [hd, if_true]
            rfl
          · have hbehind := (List.suffix_cons _ _).trans hrest
            simp only [hd, if_false, place_cons hrest]
            cases hupper : readChar (d :: ds) with
            | error error =>
              rw [readCharAt_of_error hbehind hupper]
              rfl
            | ok result =>
              rw [readCharAt_of_ok hbehind hupper]
              rfl
      · simp only [hdash, if_false]
        rfl

/-- Reads the members of a class and its closing bracket. -/
def readMembersAt (text : List Char) (start offset : ℕ) :
    Checked (Except LocatedFault (List Member × ℕ)) := do
  match ← sliceFrom text offset with
  | [] => failAt text .unterminatedClass start
  | c :: _ =>
    if c = ']' then return .ok ([], offset + c.utf8Size)
    else
      match ← readMemberAt text offset with
      | .error fault => return .error fault
      | .ok (m, next) =>
        if offset < next ∧ next ≤ Text.byteLength text then
          match ← readMembersAt text start next with
          | .error fault => return .error fault
          | .ok (ms, stop) => return .ok (m :: ms, stop)
        else throw (.noProgress next)
termination_by Text.byteLength text - offset

theorem readMembersAt_of_readMember {c : Char} {m : Member} {rest : List Char}
    (h : c :: cs <:+ text) (hc : c ≠ ']') (hread : readMember (c :: cs) = .ok (m, rest))
    (start : ℕ) :
    readMembersAt text start (place text (c :: cs)) = do
      match ← readMembersAt text start (place text rest) with
      | .error fault => return .error fault
      | .ok (ms, stop) => return .ok (m :: ms, stop) := by
  rw [readMembersAt, sliceFrom_place h, ok_bind]
  simp only [hc, if_false]
  rw [readMemberAt_place h, hread, ok_bind]
  simp only [locateResult, place_lt h (readMember_remains hread), place_le, and_self, if_true]

theorem readMembersAt_place (hsite : site <:+ text) (h : cs <:+ text) :
    readMembersAt text (place text site) (place text cs) =
      .ok (locateResult text (readMembers site cs)) := by
  fun_induction readMembers site cs with
  | case1 =>
    rw [readMembersAt, sliceFrom_place h, ok_bind]
    exact failAt_place hsite _
  | case2 cs =>
    rw [readMembersAt, sliceFrom_place h, ok_bind]
    simp only [if_true, place_cons h]
    rfl
  | case3 c cs hc fault hread =>
    rw [readMembersAt, sliceFrom_place h, ok_bind]
    simp only [hc, if_false]
    rw [readMemberAt_place h, hread]
    rfl
  | case4 c cs hc m rest hread fault hrest ih =>
    have hsuffix := (readMember_remains hread).isSuffix.trans h
    rw [readMembersAt_of_readMember h hc hread, ih hsuffix, hrest]
    rfl
  | case5 c cs hc m rest hread ms rest' hrest ih =>
    have hsuffix := (readMember_remains hread).isSuffix.trans h
    rw [readMembersAt_of_readMember h hc hread, ih hsuffix, hrest]
    rfl

/-- Reads a class behind its opening bracket. -/
def readClassAt (text : List Char) (start offset : ℕ) :
    Checked (Except LocatedFault (Expr .item × ℕ)) := do
  let negation ← matchText? text offset ['^']
  match ← readMembersAt text start (negation.getD offset) with
  | .error fault => return .error fault
  | .ok (members, stop) => return .ok (.charClass negation.isSome members, stop)

theorem readNegation_eq (cs : List Char) :
    readNegation cs =
      match Text.after? ['^'] cs with
      | some rest => (true, rest)
      | none => (false, cs) := by
  cases cs with
  | nil => rfl
  | cons c cs =>
    by_cases hc : c = '^'
    · simp [readNegation, Text.after?, hc]
    · simp [readNegation, Text.after?, hc, Ne.symm hc]

theorem readClassAt_place (hsite : site <:+ text) (h : cs <:+ text) :
    readClassAt text (place text site) (place text cs) =
      .ok (locateResult text (readClass site cs)) := by
  have hrest := (readNegation_suffix cs).trans h
  unfold readClassAt readClass
  rw [matchText?_place h, ok_bind]
  rw [readNegation_eq] at hrest ⊢
  cases hafter : Text.after? ['^'] cs with
  | none =>
    simp only [hafter] at hrest ⊢
    rw [Option.map_none, Option.getD_none, readMembersAt_place hsite hrest]
    cases readMembers site cs <;> rfl
  | some rest =>
    simp only [hafter] at hrest ⊢
    rw [Option.map_some, Option.getD_some, readMembersAt_place hsite hrest]
    cases readMembers site rest <;> rfl

/-! ### Names, atoms and line ends -/

/-- Reads a name. -/
def readNameAt? (text : List Char) (offset : ℕ) : Checked (Option (String × ℕ)) := do
  let now ← sliceFrom text offset
  match readName? now with
  | none => return none
  | some (name, rest) => return some (name, ← advanceTo text offset rest)

theorem readNameAt?_place (h : cs <:+ text) :
    readNameAt? text (place text cs) =
      .ok ((readName? cs).map fun (name, rest) => (name, place text rest)) := by
  rw [readNameAt?, sliceFrom_place h, ok_bind]
  cases hread : readName? cs with
  | none => rfl
  | some result =>
    dsimp only
    rw [advanceTo_place h (readName?_remains hread).isSuffix]
    rfl

/-- Reads an item other than a group.  Only a word character makes it look for a name. -/
def readAtomAt? (text : List Char) (offset : ℕ) :
    Checked (Option (Except LocatedFault (Expr .item × ℕ))) := do
  match ← sliceFrom text offset with
  | [] => return none
  | c :: _ =>
    if c = '"' then
      match ← readLiteralAt text offset (offset + c.utf8Size) with
      | .error fault => return some (.error fault)
      | .ok (chars, stop) => return some (.ok (.literal chars, stop))
    else if c = '[' then return some (← readClassAt text offset (offset + c.utf8Size))
    else if isWordChar c then
      match ← readNameAt? text offset with
      | none => throw (.missingName offset)
      | some (name, stop) => return some (.ok (.ref name, stop))
    else return none

theorem readAtomAt?_place (h : cs <:+ text) :
    readAtomAt? text (place text cs) = .ok ((readAtom? cs).map (locateResult text)) := by
  unfold readAtomAt? readAtom?
  rw [sliceFrom_place h, ok_bind]
  cases cs with
  | nil => rfl
  | cons c cs =>
    have hcs := (List.suffix_cons c cs).trans h
    by_cases hquote : c = '"'
    · simp only [hquote, if_true]
      subst hquote
      rw [place_cons h, readLiteralAt_place h hcs]
      cases readLiteral ('"' :: cs) cs <;> rfl
    · by_cases hbracket : c = '['
      · simp only [hbracket, if_true]
        subst hbracket
        rw [place_cons h, readClassAt_place h hcs]
        rfl
      · simp only [hquote, hbracket, if_false]
        by_cases hc : isWordChar c
        · -- a name begins with the word character that was seen
          obtain ⟨result, hread⟩ : ∃ result, readName? (c :: cs) = some result := by
            simp [readName?, hc]
          rw [if_pos hc, readNameAt?_place h, hread]
          rfl
        · have hread : readName? (c :: cs) = none := by simp [readName?, hc]
          rw [if_neg hc, hread]
          rfl

/-- Reads the end of a line, or finds the end of the text. -/
def readLineEndAt? (text : List Char) (offset : ℕ) : Checked (Option ℕ) := do
  match ← sliceFrom text offset with
  | [] => return some offset
  | c :: _ =>
    if c = '\n' then return some (offset + c.utf8Size)
    else if c = '\r' then
      let next ← matchText? text (offset + c.utf8Size) ['\n']
      return some (next.getD (offset + c.utf8Size))
    else return none

theorem readLineEndAt?_place (h : cs <:+ text) :
    readLineEndAt? text (place text cs) = .ok ((readLineEnd? cs).map (place text)) := by
  unfold readLineEndAt? readLineEnd?
  rw [sliceFrom_place h, ok_bind]
  cases cs with
  | nil => rfl
  | cons c cs =>
    by_cases hlf : c = '\n'
    · simp only [hlf, if_true]
      subst hlf
      rw [place_cons h]
      rfl
    · by_cases hcr : c = '\r'
      · simp only [hcr, if_true]
        subst hcr
        rw [place_cons h, matchText?_place ((List.suffix_cons _ _).trans h)]
        cases Text.after? ['\n'] cs <;> rfl
      · simp only [hlf, hcr, if_false]
        rfl

end EbnfTables.Offsets
