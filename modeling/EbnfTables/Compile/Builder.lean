import EbnfTables.Compile.Event
import EbnfTables.RuleTable
import EbnfTables.Source.Expr
import EbnfTables.SymbolTable

/-!
# Building the tables

A `Builder` holds the two tables as far as they are filled, and the log.  `Expr.build` adds an
expression to it and gives the elements that stand for the expression:

* a literal gives a character element for each of its characters, a class gives one run;
* a reference interns its name;
* a group names a new rule, builds its body, and stores it under the new rule;
* a quantified item builds its operand, names a new rule, and stores the operand's repetition.

Generated names are made from the name of the definition in which they arise.
-/

namespace EbnfTables

/-- The elements of a class member whose first element has the given kind. -/
def Member.elements (kind : ElementKind) : Member → Body
  | single c => [⟨kind, c.val⟩]
  | range lower upper => [⟨kind, lower.val⟩, ⟨.rangeUpper, upper.val⟩]

/-- The run that stands for a class.  An empty class has no elements. -/
def classElements (negated : Bool) : List Member → Body
  | [] => []
  | m :: ms =>
    m.elements (if negated then .charNot else .char) ++ ms.flatMap (Member.elements .charAlt)

/-- Tables that are being filled. -/
structure Builder where
  symbols : SymbolTable
  rules : RuleTable
  events : List Event
  deriving DecidableEq

namespace Builder

/-- Nothing is filled in. -/
def empty : Builder := ⟨.empty, .empty, []⟩

/-- Adds a note to the log. -/
def log (b : Builder) (e : Event) : Builder := { b with events := b.events ++ [e] }

/-- The id of a written name. -/
def intern (b : Builder) (name : String) : RuleId × Builder :=
  ((b.symbols.intern name).1, { b with symbols := (b.symbols.intern name).2 })

/-- The id of a rule that is generated inside the definition of `base`. -/
def fresh (b : Builder) (base : String) : RuleId × Builder :=
  ((b.symbols.fresh base).1,
    { b with symbols := (b.symbols.fresh base).2 }.log
      (.allocated (b.symbols.freshName base) b.symbols.nextId))

/-- Stores a body. -/
def define (b : Builder) (id : RuleId) (body : Body) : Builder :=
  { b with rules := b.rules.define id body }

end Builder

/-- Adds an expression to the tables. -/
def Expr.build (base : String) : {level : Level} → Expr level → Builder → Body × Builder
  | _, literal chars, b => (chars.map Element.char, b)
  | _, charClass negated members, b => (classElements negated members, b)
  | _, ref name, b =>
    let (id, b) := b.intern name
    ([.ruleRef id], b)
  | _, group body, b =>
    let (id, b) := b.fresh base
    let (elements, b) := body.build base b
    ([.ruleRef id], b.define id (elements ++ [.stop]))
  | _, repeated q operand, b =>
    let (elements, b) := operand.build base b
    let (id, b) := b.fresh base
    ([.ruleRef id], b.define id (q.expansion elements id))
  | _, nothing, b => ([], b)
  | _, snoc front last, b =>
    let (before, b) := front.build base b
    let (elements, b) := last.build base b
    (before ++ elements, b)
  | _, only sequence, b => sequence.build base b
  | _, orElse earlier last, b =>
    let (before, b) := earlier.build base b
    let (elements, b) := last.build base b
    (before ++ .alt :: elements, b)

end EbnfTables
