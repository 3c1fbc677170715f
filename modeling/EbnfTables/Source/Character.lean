import EbnfTables.Source.SyntaxError
import EbnfTables.Text.Remains

/-!
# Characters

Inside literals and classes a character stands for itself or is written as an escape:

* `\n`, `\r` and `\t` are the line feed, the carriage return and the tab;
* `\\`, `\"`, `\[`, `\]` and `\-` are the character after the backslash;
* `\x`, `\u` and `\U` give a code point by exactly two, four and eight hexadecimal digits.
-/

namespace EbnfTables

/-- The character that an escape of one letter stands for. -/
def shortEscape? (c : Char) : Option Char :=
  if c = 'n' then some '\n'
  else if c = 'r' then some '\r'
  else if c = 't' then some '\t'
  else if c = '\\' ∨ c = '"' ∨ c = '[' ∨ c = ']' ∨ c = '-' then some c
  else none

/-- The number of digits that follow the letter of a numeric escape. -/
def escapeWidth? (c : Char) : Option Nat :=
  if c = 'x' then some 2
  else if c = 'u' then some 4
  else if c = 'U' then some 8
  else none

/-- Reads an escape after its backslash. -/
def readEscape : List Char → Except SyntaxError (Char × List Char)
  | [] => .error .unexpectedEnd
  | c :: cs =>
    match shortEscape? c with
    | some d => .ok (d, cs)
    | none =>
      match (escapeWidth? c).bind fun width => Text.readHex? width 0 cs with
      | none => .error (.unknownEscape c)
      | some (n, rest) =>
        if n.isValidChar then .ok (Char.ofNat n, rest) else .error (.invalidCodePoint n)

/-- Reads a character of a literal or a class. -/
def readChar : List Char → Except SyntaxError (Char × List Char)
  | [] => .error .unexpectedEnd
  | c :: cs => if c = '\\' then readEscape cs else .ok (c, cs)

theorem readEscape_remains {cs rest : List Char} {d : Char}
    (h : readEscape cs = .ok (d, rest)) : Text.Remains rest cs := by
  cases cs with
  | nil => simp [readEscape] at h
  | cons c cs =>
    simp only [readEscape] at h
    split at h
    · cases h
      exact .tail
    · split at h
      · cases h
      · rename_i n r hread
        obtain ⟨width, -, hread⟩ := Option.bind_eq_some_iff.1 hread
        split at h
        · cases h
          exact .cons (Text.readHex?_suffix hread)
        · cases h

theorem readChar_remains {cs rest : List Char} {d : Char}
    (h : readChar cs = .ok (d, rest)) : Text.Remains rest cs := by
  cases cs with
  | nil => simp [readChar] at h
  | cons c cs =>
    simp only [readChar] at h
    split at h
    · exact (readEscape_remains h).trans .tail
    · cases h
      exact .tail

end EbnfTables
