import EbnfTables.Element

/-!
# The log of a compilation

A compilation notes each generated rule when it is named, each definition when it is finished, and
the grammar when it is complete.  The notes before a failure are kept.
-/

namespace EbnfTables

/-- A note in the log. -/
inductive Event
  /-- A rule was generated for a group or a quantifier. -/
  | allocated (name : String) (id : RuleId)
  /-- A definition was compiled. -/
  | compiledRule (name : String) (id : RuleId)
  /-- All definitions were compiled; the sizes of the two tables. -/
  | compiledGrammar (symbols rules : Nat)
  deriving DecidableEq

namespace Event

/-- How important a note is. -/
def level : Event → String
  | allocated _ _ => "TRACE"
  | compiledRule _ _ | compiledGrammar _ _ => "DEBUG"

/-- How a note is told. -/
def message : Event → String
  | allocated _ _ => "allocated synthetic rule"
  | compiledRule _ _ => "compiled rule"
  | compiledGrammar _ _ => "compiled grammar"

end Event

end EbnfTables
