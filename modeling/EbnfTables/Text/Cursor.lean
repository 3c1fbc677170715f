import EbnfTables.Text.Position
import EbnfTables.Text.Remains

/-!
# Cursors

A cursor divides a text into what was read and what is left.  Matching moves it only if the text
that is left begins as asked.
-/

namespace EbnfTables

/-- A text with a boundary in it. -/
structure Cursor where
  consumed : List Char
  rest : List Char
  deriving DecidableEq

namespace Cursor

/-- The cursor at the start of a text. -/
def start (text : List Char) : Cursor := ⟨[], text⟩

/-- The cursor in `text` in front of its end part `rest`. -/
def before (text rest : List Char) : Cursor :=
  ⟨text.take (text.length - rest.length), rest⟩

/-- The whole text. -/
def text (c : Cursor) : List Char := c.consumed ++ c.rest

/-- Whether nothing is left. -/
def atEnd (c : Cursor) : Bool := c.rest.isEmpty

/-- The next character. -/
def peek? (c : Cursor) : Option Char := c.rest[0]?

/-- The character after the next one. -/
def peekSecond? (c : Cursor) : Option Char := c.rest[1]?

/-- Moves over `n` characters, or to the end if fewer are left. -/
def advance (c : Cursor) (n : Nat) : Cursor :=
  ⟨c.consumed ++ c.rest.take n, c.rest.drop n⟩

/-- Moves over the given text if it comes next. -/
def matchText? (c : Cursor) (expected : List Char) : Option Cursor :=
  (Text.after? expected c.rest).map fun rest => ⟨c.consumed ++ expected, rest⟩

/-- Moves over the given character if it comes next. -/
def matchChar? (c : Cursor) (expected : Char) : Option Cursor :=
  c.matchText? [expected]

/-- Where the cursor is. -/
def position (c : Cursor) : Position := .after c.consumed

@[simp] theorem text_advance (c : Cursor) (n : Nat) : (c.advance n).text = c.text := by
  simp [advance, text]

theorem text_matchText? {c d : Cursor} {expected : List Char}
    (h : c.matchText? expected = some d) : d.text = c.text := by
  obtain ⟨rest, hrest, rfl⟩ := Option.map_eq_some_iff.1 h
  simp [text, Text.after?_eq_some_iff.1 hrest]

theorem text_before {text rest : List Char} (h : rest <:+ text) :
    (before text rest).text = text := by
  obtain ⟨consumed, rfl⟩ := h
  simp [before, Cursor.text]

end Cursor

end EbnfTables
