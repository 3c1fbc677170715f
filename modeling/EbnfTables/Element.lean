/-!
# Elements of a rule body

A compiled rule body is a flat list of tagged machine words.

* `ElementKind` says what a word stands for, and `ElementKind.tag` is the number a matching
  engine knows it by;
* `Element` is a kind together with its word;
* `Body` is a list of elements.

Inside a body `Element.alt` separates the alternatives and `Element.stop` closes the body.  A
word of kind `ruleRef` refers to a rule by its id.  A run that starts with `char` or `charNot`
and goes on with `rangeUpper` and `charAlt` words describes a single character.
-/

namespace EbnfTables

/-- The number a rule is known by, whether its name was written or generated. -/
abbrev RuleId := UInt32

/-- What a word of a rule body stands for. -/
inductive ElementKind
  /-- The end of a body. -/
  | stop
  /-- The start of another alternative of the same rule. -/
  | alt
  /-- A reference; the word is the id of the rule. -/
  | ruleRef
  /-- A character, or the lower bound of a range. -/
  | char
  /-- Like `char`, but the run that it starts describes the characters outside. -/
  | charNot
  /-- The inclusive upper bound of a range whose lower bound is the word before. -/
  | rangeUpper
  /-- One more character, or lower bound, for the same place as the words before. -/
  | charAlt
  deriving DecidableEq

namespace ElementKind

/-- The number of a kind. -/
def tag : ElementKind → UInt32
  | stop => 0
  | alt => 1
  | ruleRef => 2
  | char => 3
  | charNot => 4
  | rangeUpper => 5
  | charAlt => 6

/-- The kind with the given number. -/
def ofTag? (n : UInt32) : Option ElementKind :=
  [stop, alt, ruleRef, char, charNot, rangeUpper, charAlt].find? (·.tag = n)

/-- The name of a kind in answers and in generated code. -/
def label : ElementKind → String
  | stop => "End"
  | alt => "Alt"
  | ruleRef => "RuleRef"
  | char => "Char"
  | charNot => "CharNot"
  | rangeUpper => "CharRngUpper"
  | charAlt => "CharAlt"

/-- Kinds whose word is a code point. -/
def isChar : ElementKind → Bool
  | char | charNot | rangeUpper | charAlt => true
  | stop | alt | ruleRef => false

/-- Kinds that continue a run started by `char` or `charNot`. -/
def isContinuation : ElementKind → Bool
  | rangeUpper | charAlt => true
  | stop | alt | ruleRef | char | charNot => false

@[simp] theorem ofTag?_tag (k : ElementKind) : ofTag? k.tag = some k := by
  cases k <;> decide

theorem tag_injective {k l : ElementKind} (h : k.tag = l.tag) : k = l := by
  have := ofTag?_tag k
  rw [h, ofTag?_tag] at this
  exact (Option.some.inj this).symm

end ElementKind

/-- One word of a rule body. -/
structure Element where
  kind : ElementKind
  value : UInt32
  deriving DecidableEq

namespace Element

/-- The word that closes a body. -/
def stop : Element := ⟨.stop, 0⟩

/-- The word between two alternatives. -/
def alt : Element := ⟨.alt, 0⟩

/-- A reference to the rule `id`. -/
def ruleRef (id : RuleId) : Element := ⟨.ruleRef, id⟩

/-- The character `c`. -/
def char (c : Char) : Element := ⟨.char, c.val⟩

end Element

/-- The words of a rule, or of a part of one. -/
abbrev Body := List Element

end EbnfTables
