import EbnfTables.Quantifier

/-!
# Expressions

The right side of a definition is a tree.  `Level` divides expressions into three levels:

* an *item* is a literal, a class, a reference, a group, or a quantified item;
* a *sequence* is a row of items, built from the left;
* *alternatives* are sequences divided by bars, built from the left.

All three levels are one inductive family, `Expr`, so that a single induction covers them.
`Expr.contributes` tells whether an expression gives any element at all: an empty literal and an
empty class do not.
-/

namespace EbnfTables

/-- A member of a character class. -/
inductive Member
  /-- One character. -/
  | single (c : Char)
  /-- All characters from the first to the second. -/
  | range (lower upper : Char)
  deriving DecidableEq

/-- The levels of expressions. -/
inductive Level
  | item
  | sequence
  | alternatives

/-- The right side of a definition, and its parts. -/
inductive Expr : Level → Type
  /-- The characters in their order. -/
  | literal (chars : List Char) : Expr .item
  /-- One character inside the union of the members, or outside of it. -/
  | charClass (negated : Bool) (members : List Member) : Expr .item
  /-- The rule of the given name. -/
  | ref (name : String) : Expr .item
  /-- Alternatives in parentheses. -/
  | group (body : Expr .alternatives) : Expr .item
  /-- An item with a quantifier behind it. -/
  | repeated (q : Quantifier) (operand : Expr .item) : Expr .item
  /-- No items. -/
  | nothing : Expr .sequence
  /-- A sequence and one more item. -/
  | snoc (front : Expr .sequence) (last : Expr .item) : Expr .sequence
  /-- A single alternative. -/
  | only (sequence : Expr .sequence) : Expr .alternatives
  /-- Alternatives and one more behind a bar. -/
  | orElse (earlier : Expr .alternatives) (last : Expr .sequence) : Expr .alternatives

namespace Expr

/-- Whether an expression gives at least one element. -/
def contributes : {level : Level} → Expr level → Bool
  | _, literal chars => !chars.isEmpty
  | _, charClass _ members => !members.isEmpty
  | _, ref _ | _, group _ | _, repeated _ _ => true
  | _, nothing => false
  | _, snoc front last => front.contributes || last.contributes
  | _, only sequence => sequence.contributes
  | _, orElse _ _ => true

/-- Puts a quantifier behind the last item, if there is one that gives an element. -/
def quantifyLast? (q : Quantifier) : Expr .sequence → Option (Expr .sequence)
  | nothing => none
  | snoc front last => if last.contributes then some (snoc front (repeated q last)) else none

end Expr

end EbnfTables
