import EbnfTables.Element

/-!
# Quantifiers

A quantifier repeats the item that it follows.  Tables have no repetition of their own, so a
quantified item becomes a reference to a rule `id` that repeats the item by recursion:

* `E?` becomes `id ::= E | ""`;
* `E*` becomes `id ::= E id | ""`;
* `E+` becomes `id ::= E id | E`.

The recursive alternative comes first, and the recursion is on the right.
-/

namespace EbnfTables

/-- How often the item before the quantifier may occur. -/
inductive Quantifier
  /-- At most once. -/
  | zeroOrOne
  /-- Any number of times. -/
  | zeroOrMore
  /-- At least once. -/
  | oneOrMore
  deriving DecidableEq

namespace Quantifier

/-- The sign by which a quantifier is written. -/
def sign : Quantifier → Char
  | zeroOrOne => '?'
  | zeroOrMore => '*'
  | oneOrMore => '+'

/-- The quantifier with the given sign. -/
def ofSign? (c : Char) : Option Quantifier :=
  [zeroOrOne, zeroOrMore, oneOrMore].find? (·.sign = c)

@[simp] theorem ofSign?_sign (q : Quantifier) : ofSign? q.sign = some q := by
  cases q <;> rfl

/-- The body of the rule `id` that repeats `operand`. -/
def expansion (q : Quantifier) (operand : Body) (id : RuleId) : Body :=
  match q with
  | zeroOrOne => operand ++ [.alt, .stop]
  | zeroOrMore => operand ++ [.ruleRef id, .alt, .stop]
  | oneOrMore => operand ++ [.ruleRef id, .alt] ++ operand ++ [.stop]

theorem expansion_ne_nil (q : Quantifier) (operand : Body) (id : RuleId) :
    q.expansion operand id ≠ [] := by
  cases q <;> simp [expansion]

end Quantifier

end EbnfTables
