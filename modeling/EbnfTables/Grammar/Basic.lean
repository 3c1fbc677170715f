import EbnfTables.RuleTable
import EbnfTables.SymbolTable

/-!
# Grammars

A compiled grammar is a symbol table together with a rule table.  `Grammar.flatten` lays all bodies
out in one list, with the place at which each rule starts.
-/

namespace EbnfTables

/-- A compiled grammar. -/
structure Grammar where
  symbols : SymbolTable
  rules : RuleTable
  deriving DecidableEq

namespace Grammar

/-- The id of a rule. -/
def id? (g : Grammar) (name : String) : Option RuleId := g.symbols.id? name

/-- The body of a rule. -/
def rule? (g : Grammar) (id : RuleId) : Option Body := g.rules.body? id

/-- The number of rules. -/
def size (g : Grammar) : Nat := g.rules.size

/-- Two grammars agree if their symbol tables agree and their rule tables are the same. -/
def agrees (g h : Grammar) : Bool := g.symbols.agrees h.symbols && g.rules == h.rules

end Grammar

/-- All bodies in one list, and where each of them starts. -/
structure FlatRules where
  elements : List Element
  offsets : List Nat
  deriving DecidableEq

namespace FlatRules

/-- No bodies. -/
def empty : FlatRules := ⟨[], []⟩

/-- Adds a body at the end. -/
def push (f : FlatRules) (body : Body) : FlatRules :=
  ⟨f.elements ++ body, f.offsets ++ [f.elements.length]⟩

end FlatRules

/-- The bodies of a grammar in one list. -/
def Grammar.flatten (g : Grammar) : FlatRules := g.rules.bodies.foldl .push .empty

end EbnfTables
