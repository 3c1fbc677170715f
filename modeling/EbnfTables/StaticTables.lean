import EbnfTables.Grammar.Basic
import EbnfTables.Text.Order

/-!
# Static tables

A grammar that was compiled ahead of time is kept as two arrays: its names with their ids, sorted by
name, and its bodies in the order of their ids.  A name is looked up by bisection.
-/

namespace EbnfTables

/-- The id of a name between the places `lo` and `hi` of a table that is sorted by name. -/
def bisect (symbols : Array (String × RuleId)) (name : String) (lo hi : Nat) : Option RuleId :=
  if lo < hi then
    let mid := lo + (hi - lo) / 2
    match symbols[mid]? with
    | none => none
    | some (other, id) =>
      match Text.compareNames other name with
      | .eq => some id
      | .lt => bisect symbols name (mid + 1) hi
      | .gt => bisect symbols name lo mid
  else none
termination_by hi - lo
decreasing_by all_goals omega

/-- The tables of a grammar that was compiled ahead of time. -/
structure StaticTables where
  /-- The names with their ids, in the order of the names. -/
  symbols : Array (String × RuleId)
  /-- The bodies in the order of their ids. -/
  rules : Array Body

namespace StaticTables

/-- The tables without rules. -/
def empty : StaticTables := ⟨#[], #[]⟩

/-- The tables of a compiled grammar. -/
def ofGrammar (g : Grammar) : StaticTables := ⟨g.symbols.sorted.toArray, g.rules.bodies.toArray⟩

/-- The id of a rule. -/
def id? (t : StaticTables) (name : String) : Option RuleId :=
  bisect t.symbols name 0 t.symbols.size

/-- The body of a rule. -/
def rule? (t : StaticTables) (id : RuleId) : Option Body := t.rules[id.toNat]?

end StaticTables

end EbnfTables
