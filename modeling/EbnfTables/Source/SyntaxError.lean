import EbnfTables.Text.Hex

/-!
# Syntax errors

`SyntaxError` lists what can be wrong with the text of a grammar, and `Fault` adds where: its `site`
is what was left of the text at the offending place.
-/

namespace EbnfTables

/-- Why a text is not a grammar. -/
inductive SyntaxError
  | unterminatedLiteral
  | unterminatedClass
  /-- A backslash before a character that means nothing there, or too few digits after it. -/
  | unknownEscape (c : Char)
  /-- The number of an escape is no character. -/
  | invalidCodePoint (value : Nat)
  | expectingName
  | expectingDefinition
  | emptyAlternation
  /-- The text ends after the `-` of a range. -/
  | malformedRange
  | unexpectedEnd
  | expectingCloseParen
  /-- A quantifier with nothing to repeat. -/
  | missingOperand
  | expectingNewline
  | nestingTooDeep (limit : Nat)
  deriving DecidableEq

/-- How a syntax error is told. -/
def SyntaxError.message : SyntaxError → String
  | unterminatedLiteral => "unterminated string literal"
  | unterminatedClass => "unterminated character class"
  | unknownEscape c => "unknown escape '\\" ++ String.ofList [c] ++ "'"
  | invalidCodePoint value => "escape U+" ++ Text.hexText value ++ " is not a unicode scalar value"
  | expectingName => "expecting name"
  | expectingDefinition => "expecting '::='"
  | emptyAlternation => "empty alternation"
  | malformedRange => "malformed character range"
  | unexpectedEnd => "unexpected end of input"
  | expectingCloseParen => "expecting ')'"
  | missingOperand => "expecting preceding item to */+/?"
  | expectingNewline => "expecting newline or end"
  | nestingTooDeep limit => "groups nested deeper than " ++ toString limit

/-- A syntax error with the text that was left where it arose. -/
structure Fault where
  error : SyntaxError
  site : List Char
  deriving DecidableEq

end EbnfTables
