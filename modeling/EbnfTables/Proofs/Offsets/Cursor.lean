import EbnfTables.Compile.Run
import EbnfTables.Proofs.Source.Lexical

/-!
# Places as byte offsets

The readers of the library go on with an end part of the text.  Here a place is a byte offset into
one fixed text, as it is for a cursor, and everything that can go wrong with an offset is checked
when it happens: a `Breach` is what must never happen.

* `sliceFrom` and `sliceTo` cut the text at an offset, which has to be a boundary between two
  characters;
* `locate` finds line and column of an offset by such cuts;
* `advanceTo` moves to an end part of what is left, `matchText` over a given text, `skip` over
  blanks and comments.  The last repeats a parser as often as it succeeds, and such a repetition
  breaks down if one round reads nothing.

`place text rest` is the offset at which the end part `rest` of `text` begins.  At such offsets no
operation breaches, and each does what the library does on end parts.
-/

namespace EbnfTables

/-- The place of an end part is the one behind the text before it. -/
theorem Position.ofRest_append (before rest : List Char) :
    Position.ofRest (before ++ rest) rest = .after before := by
  simp [ofRest, Cursor.before, Cursor.position]

/-- The place of an end part is as many bytes into the text as stand before it. -/
theorem Position.offset_ofRest (before rest : List Char) :
    (Position.ofRest (before ++ rest) rest).offset = Text.byteLength before := by
  rw [ofRest_append, after]

namespace Offsets

variable {text rest rest' cs : List Char} {c : Char} {s : Spacing}

/-- What must not happen. -/
inductive Breach
  /-- The text is cut inside a character or behind its end. -/
  | slice (offset : ℕ)
  /-- The cursor is moved to something that is not an end part of what is left. -/
  | notSuffix (offset : ℕ)
  /-- The repetition that skips blanks breaks down. -/
  | blanks (offset : ℕ)
  /-- There is no name where a word character was seen. -/
  | missingName (offset : ℕ)
  /-- A loop goes round without moving the cursor forward, inside the text. -/
  | noProgress (offset : ℕ)
  deriving DecidableEq

/-- A result with its checks. -/
abbrev Checked (α : Type) : Type := Except Breach α

@[simp] theorem ok_bind {α β : Type} (a : α) (f : α → Checked β) :
    ((.ok a : Checked α) >>= f) = f a := rfl

@[simp] theorem pure_eq_ok {α : Type} (a : α) : (pure a : Checked α) = .ok a := rfl

/-! ### Cuts -/

/-- The text up to an offset. -/
def sliceTo (text : List Char) (offset : ℕ) : Checked (List Char) :=
  if offset ≤ Text.byteLength text then
    match Text.takeBytes? offset text with
    | none => .error (.slice offset)
    | some before => .ok before
  else .error (.slice offset)

/-- The text from an offset on. -/
def sliceFrom (text : List Char) (offset : ℕ) : Checked (List Char) := do
  let before ← sliceTo text offset
  return text.drop before.length

/-- The offset at which an end part of a text begins. -/
def place (text rest : List Char) : ℕ := Text.byteLength text - Text.byteLength rest

theorem place_append (before rest : List Char) :
    place (before ++ rest) rest = Text.byteLength before := by
  unfold place
  rw [Text.byteLength_append]
  omega

@[simp] theorem place_self (text : List Char) : place text text = 0 := Nat.sub_self _

theorem place_le (text rest : List Char) : place text rest ≤ Text.byteLength text := Nat.sub_le _ _

theorem place_cons (h : c :: cs <:+ text) : place text (c :: cs) + c.utf8Size = place text cs := by
  obtain ⟨before, rfl⟩ := h
  rw [place_append, List.append_cons, place_append, Text.byteLength_append]
  simp

/-- What reads something moves forward. -/
theorem place_lt (h : rest <:+ text) (h' : Text.Remains rest' rest) :
    place text rest < place text rest' := by
  obtain ⟨c, cs, rfl, hsuffix⟩ := h'
  obtain ⟨between, rfl⟩ := hsuffix
  obtain ⟨before, rfl⟩ := h
  have hpos := c.utf8Size_pos
  rw [place_append, List.append_cons, ← List.append_assoc, place_append]
  simp only [Text.byteLength_append, Text.byteLength_cons]
  omega

/-- Behind any characters there is a boundary. -/
theorem takeBytes?_append (before rest : List Char) :
    Text.takeBytes? (Text.byteLength before) (before ++ rest) = some before := by
  induction before with
  | nil => cases rest <;> rfl
  | cons c before ih =>
    have hpos := c.utf8Size_pos
    have hlen : Text.byteLength (c :: before) = c.utf8Size + Text.byteLength before := rfl
    obtain ⟨n, hn⟩ := Nat.exists_eq_succ_of_ne_zero
      (show Text.byteLength (c :: before) ≠ 0 by omega)
    rw [hn, List.cons_append, Text.takeBytes?, if_pos (by omega),
      show n + 1 - c.utf8Size = Text.byteLength before by omega, ih, Option.map_some]

theorem sliceTo_byteLength (before rest : List Char) :
    sliceTo (before ++ rest) (Text.byteLength before) = .ok before := by
  rw [sliceTo, if_pos, takeBytes?_append]
  rw [Text.byteLength_append]
  omega

@[simp] theorem sliceFrom_place (h : rest <:+ text) :
    sliceFrom text (place text rest) = .ok rest := by
  obtain ⟨before, rfl⟩ := h
  rw [sliceFrom, place_append, sliceTo_byteLength, ok_bind, List.drop_left]
  rfl

/-- There is no boundary inside a character. -/
example : sliceFrom ['é'] 1 = .error (.slice 1) := by decide

/-! ### Lines and columns -/

/-- The offset of the last line feed. -/
def lastLineFeed? : List Char → Option ℕ
  | [] => none
  | c :: cs =>
    match lastLineFeed? cs with
    | some offset => some (c.utf8Size + offset)
    | none => if c = '\n' then some 0 else none

/-- The offset at which the last line begins. -/
def lineStart (text : List Char) : ℕ :=
  match lastLineFeed? text with
  | none => 0
  | some offset => offset + 1

/-- Line and column of an offset; an offset behind the end stands for the end. -/
def locate (text : List Char) (offset : ℕ) : Checked Position := do
  let offset := min offset (Text.byteLength text)
  let before ← sliceTo text offset
  let line ← sliceFrom before (lineStart before)
  return ⟨offset, before.count '\n' + 1, line.length + 1⟩

theorem lastLineFeed?_eq_none (h : '\n' ∉ text) : lastLineFeed? text = none := by
  induction text with
  | nil => rfl
  | cons c cs ih =>
    rw [List.mem_cons, not_or] at h
    rw [lastLineFeed?, ih h.2]
    exact if_neg (Ne.symm h.1)

theorem lastLineFeed?_append {before line : List Char} (h : '\n' ∉ line) :
    lastLineFeed? (before ++ '\n' :: line) = some (Text.byteLength before) := by
  induction before with
  | nil =>
    rw [List.nil_append, lastLineFeed?, lastLineFeed?_eq_none h]
    rfl
  | cons c before ih =>
    rw [List.cons_append, lastLineFeed?, ih]
    rfl

/-- The last line begins at a boundary. -/
theorem sliceFrom_lineStart (text : List Char) :
    sliceFrom text (lineStart text) = .ok (text.reverse.takeWhile (· != '\n')).reverse := by
  by_cases hmem : '\n' ∈ text
  · obtain ⟨line, before, hrow, hline⟩ := List.eq_append_cons_of_mem (List.mem_reverse.2 hmem)
    obtain rfl : text = before.reverse ++ '\n' :: line.reverse := by
      rw [← List.reverse_reverse text, hrow]
      simp
    have hstart : lineStart (before.reverse ++ '\n' :: line.reverse) =
        place (before.reverse ++ '\n' :: line.reverse) line.reverse := by
      rw [lineStart, lastLineFeed?_append (by simpa using hline), List.append_cons, place_append,
        Text.byteLength_append]
      rfl
    have hsuffix : line.reverse <:+ before.reverse ++ '\n' :: line.reverse :=
      (List.suffix_cons _ _).trans (List.suffix_append _ _)
    rw [hstart, sliceFrom_place hsuffix, hrow, List.takeWhile_append_of_pos]
    · simp
    · intro c hc
      simpa using ne_of_mem_of_not_mem hc hline
  · have hall : text.reverse.takeWhile (· != '\n') = text.reverse := by
      rw [List.takeWhile_eq_self_iff]
      intro c hc
      simpa using ne_of_mem_of_not_mem (List.mem_reverse.1 hc) hmem
    rw [hall, lineStart, lastLineFeed?_eq_none hmem, List.reverse_reverse, ← place_self text,
      sliceFrom_place List.suffix_rfl]

/-- Locating a boundary cuts the text at boundaries, and finds its line and column. -/
theorem locate_place (h : rest <:+ text) :
    locate text (place text rest) = .ok (Position.ofRest text rest) := by
  obtain ⟨before, rfl⟩ := h
  have hmin : min (Text.byteLength before) (Text.byteLength (before ++ rest)) =
      Text.byteLength before := by
    rw [Text.byteLength_append]
    omega
  unfold locate
  rw [place_append, hmin]
  dsimp only
  rw [sliceTo_byteLength, ok_bind, sliceFrom_lineStart, ok_bind, List.length_reverse,
    Position.ofRest_append]
  rfl

/-- The place of an end part is a boundary at which it is found again. -/
theorem locate?_ofRest (h : rest <:+ text) :
    Position.locate? text (Position.ofRest text rest).offset =
      some (Position.ofRest text rest) := by
  obtain ⟨before, rfl⟩ := h
  rw [Position.ofRest_append, Position.locate?, Position.after, takeBytes?_append]
  rfl

/-! ### Moves -/

/-- Moves to an end part of what is left. -/
def advanceTo (text : List Char) (offset : ℕ) (rest : List Char) : Checked ℕ := do
  let now ← sliceFrom text offset
  if rest.isSuffixOf now then
    return Text.byteLength text - Text.byteLength rest
  else
    throw (.notSuffix offset)

/-- Moves over a text if it comes next. -/
def matchText? (text : List Char) (offset : ℕ) (expected : List Char) : Checked (Option ℕ) := do
  let now ← sliceFrom text offset
  return if expected.isPrefixOf now then some (offset + Text.byteLength expected) else none

theorem advanceTo_place (h : rest <:+ text) (h' : rest' <:+ rest) :
    advanceTo text (place text rest) rest' = .ok (place text rest') := by
  rw [advanceTo, sliceFrom_place h, ok_bind, if_pos (List.isSuffixOf_iff_suffix.2 h')]
  rfl

theorem matchText?_place (h : rest <:+ text) (expected : List Char) :
    matchText? text (place text rest) expected =
      .ok ((Text.after? expected rest).map (place text)) := by
  rw [matchText?, sliceFrom_place h, ok_bind, pure_eq_ok]
  congr 1
  cases hafter : Text.after? expected rest with
  | some after =>
    obtain rfl := Text.after?_eq_some_iff.1 hafter
    obtain ⟨before, rfl⟩ := h
    rw [if_pos (List.isPrefixOf_iff_prefix.2 (List.prefix_append _ _)), Option.map_some,
      place_append, ← List.append_assoc, place_append, Text.byteLength_append]
  | none =>
    rw [if_neg, Option.map_none]
    rw [List.isPrefixOf_iff_prefix]
    rintro ⟨after, rfl⟩
    rw [Text.after?_eq_some_iff.2 rfl] at hafter
    cases hafter

/-! ### Blanks -/

/-- Repeats a parser as long as it succeeds.  A round that reads nothing breaks the repetition. -/
def many0 (parser : List Char → Option (List Char)) (cs : List Char) : Option (List Char) :=
  match parser cs with
  | none => some cs
  | some rest =>
    if Text.byteLength rest < Text.byteLength cs then many0 parser rest else none
termination_by Text.byteLength cs

/-- A run of blanks, or a comment. -/
def blankOrComment? (s : Spacing) (cs : List Char) : Option (List Char) :=
  match cs.takeWhile s.isBlank with
  | _ :: _ => some (cs.dropWhile s.isBlank)
  | [] =>
    match cs with
    | [] => none
    | c :: cs' => if c = '#' then some (cs'.dropWhile fun d => !isLineBreak d) else none

/-- Moves over blanks and comments. -/
def skip (s : Spacing) (text : List Char) (offset : ℕ) : Checked ℕ := do
  let now ← sliceFrom text offset
  match many0 (blankOrComment? s) now with
  | none => throw (.blanks offset)
  | some rest => advanceTo text offset rest

theorem skip_dropWhile_isBlank (s : Spacing) (cs : List Char) :
    s.skip (cs.dropWhile s.isBlank) = s.skip cs := by
  induction cs with
  | nil => rfl
  | cons c cs ih =>
    by_cases hc : s.isBlank c
    · rw [List.dropWhile_cons_of_pos hc, ih]
      simp [Spacing.skip, Spacing.skipFrom, hc]
    · rw [List.dropWhile_cons_of_neg hc]

theorem skip_dropWhile_comment (s : Spacing) (cs : List Char) :
    s.skip (cs.dropWhile fun d => !isLineBreak d) = s.skip ('#' :: cs) := by
  have hhash : s.skip ('#' :: cs) = s.skipFrom true cs := by
    simp [Spacing.skip, Spacing.skipFrom]
  rw [hhash]
  induction cs with
  | nil => rfl
  | cons c cs ih =>
    by_cases hc : isLineBreak c
    · have hne : c ≠ '#' := by
        rintro rfl
        simp [isLineBreak] at hc
      rw [List.dropWhile_cons_of_neg (by simp [hc])]
      simp [Spacing.skip, Spacing.skipFrom, hc, hne]
    · rw [List.dropWhile_cons_of_pos (by simp [hc]), ih (by simp [Spacing.skip, Spacing.skipFrom])]
      simp [Spacing.skipFrom, hc]

/-- What one round takes. -/
theorem blankOrComment?_cases (h : blankOrComment? s cs = some rest) :
    (∃ c behind, cs = c :: behind ∧ s.isBlank c ∧ rest = behind.dropWhile s.isBlank) ∨
      ∃ behind, cs = '#' :: behind ∧ rest = behind.dropWhile fun d => !isLineBreak d := by
  cases cs with
  | nil => cases h
  | cons c cs =>
    by_cases hc : s.isBlank c
    · rw [blankOrComment?, List.takeWhile_cons_of_pos hc] at h
      obtain rfl := Option.some.inj h
      exact .inl ⟨c, cs, rfl, hc, List.dropWhile_cons_of_pos hc⟩
    · rw [blankOrComment?, List.takeWhile_cons_of_neg hc] at h
      by_cases hhash : c = '#'
      · subst hhash
        obtain rfl := Option.some.inj h
        exact .inr ⟨cs, rfl, rfl⟩
      · simp [hhash] at h

/-- There is no further round exactly where there is neither a blank nor a comment. -/
theorem blankOrComment?_eq_none_iff :
    blankOrComment? s cs = none ↔ ∀ c ∈ cs.head?, s.isBlank c = false ∧ c ≠ '#' := by
  cases cs with
  | nil => simp [blankOrComment?]
  | cons c cs =>
    by_cases hc : s.isBlank c
    · rw [blankOrComment?, List.takeWhile_cons_of_pos hc]
      simp [hc]
    · rw [blankOrComment?, List.takeWhile_cons_of_neg hc]
      simp [hc]

/-- Every round reads something and keeps what is behind the blanks. -/
theorem blankOrComment?_eq_some (h : blankOrComment? s cs = some rest) :
    Text.Remains rest cs ∧ s.skip rest = s.skip cs := by
  rcases blankOrComment?_cases h with ⟨c, behind, rfl, hc, rfl⟩ | ⟨behind, rfl, rfl⟩
  · refine ⟨.cons (List.dropWhile_suffix _), ?_⟩
    rw [← skip_dropWhile_isBlank s (c :: behind), List.dropWhile_cons_of_pos hc]
  · exact ⟨.cons (List.dropWhile_suffix _), skip_dropWhile_comment s behind⟩

theorem byteLength_lt (h : Text.Remains rest cs) : Text.byteLength rest < Text.byteLength cs := by
  have hlt := place_lt (List.suffix_refl cs) h
  unfold place at hlt
  omega

/-- The repetition never breaks down. -/
theorem many0_blankOrComment? (s : Spacing) (cs : List Char) :
    many0 (blankOrComment? s) cs = some (s.skip cs) := by
  fun_induction many0 (blankOrComment? s) cs with
  | case1 cs hnone => rw [s.skip_eq_self (blankOrComment?_eq_none_iff.1 hnone)]
  | case2 cs rest hsome _ ih => rw [ih, (blankOrComment?_eq_some hsome).2]
  | case3 cs rest hsome hle => exact absurd (byteLength_lt (blankOrComment?_eq_some hsome).1) hle

theorem skip_place (h : rest <:+ text) (s : Spacing) :
    skip s text (place text rest) = .ok (place text (s.skip rest)) := by
  unfold skip
  rw [sliceFrom_place h, ok_bind, many0_blankOrComment?]
  exact advanceTo_place h (s.skip_suffix rest)

end Offsets

end EbnfTables
