import EbnfTables.Source.SyntaxError
import EbnfTables.Text.Position

/-!
# Compile errors

Why a grammar is refused: its text is malformed, or its definitions do not fit together.
-/

namespace EbnfTables

/-- Why a grammar is refused. -/
inductive CompileError
  /-- The text is not a row of definitions. -/
  | malformed (error : SyntaxError) (position : Position)
  /-- A rule is referred to and has no body. -/
  | undefinedRule (name : String)
  /-- A rule is defined that has a body already. -/
  | duplicateRule (name : String) (position : Position)
  /-- There are no definitions. -/
  | emptyGrammar
  /-- The start rule that was asked for has no body. -/
  | missingStartRule (name : String)
  deriving DecidableEq

namespace CompileError

/-- Where the error arose, if it has a place. -/
def position? : CompileError → Option Position
  | malformed _ position | duplicateRule _ position => some position
  | undefinedRule _ | emptyGrammar | missingStartRule _ => none

/-- How a compile error is told. -/
def message : CompileError → String
  | malformed error position => error.message ++ " at " ++ position.describe
  | undefinedRule name => "undefined rule identifier '" ++ name ++ "'"
  | duplicateRule name position =>
    "rule '" ++ name ++ "' is defined more than once, redefinition at " ++ position.describe
  | emptyGrammar => "grammar contains no rule definitions"
  | missingStartRule name => "start rule '" ++ name ++ "' is not defined"

end CompileError

end EbnfTables
