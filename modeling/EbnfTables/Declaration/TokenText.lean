import EbnfTables.Grammar.Basic

/-!
# Generated code

The tables of a grammar are attached to a type by a generated implementation.  It is given as the
text of its tokens: tokens are divided by one space, and there is none just inside brackets and
parentheses.
-/

namespace EbnfTables

/-- A type that is declared, with its parameters. -/
structure TypeHead where
  name : String
  parameters : List String
  deriving DecidableEq

/-- The text of list entries. -/
def separated (entries : List String) : String := String.intercalate " , " entries

namespace TypeHead

/-- The text of the parameters, behind a space. -/
def parameterText (h : TypeHead) : String :=
  if h.parameters.isEmpty then "" else " < " ++ separated h.parameters ++ " >"

end TypeHead

/-- The text of a machine word. -/
def wordText (n : UInt32) : String := toString n.toNat ++ "u32"

/-- The text of a symbol. -/
def symbolText (entry : String × RuleId) : String :=
  "(\"" ++ entry.1 ++ "\" , " ++ wordText entry.2 ++ ")"

/-- The text of an element. -/
def Element.text (e : Element) : String :=
  ":: gbnf :: Element :: new (:: gbnf :: ElementKind :: " ++ e.kind.label ++ " , " ++
    wordText e.value ++ ")"

/-- The text of a body. -/
def bodyText (body : Body) : String := "& [" ++ separated (body.map Element.text) ++ "]"

/-- The text of the implementation that attaches the tables of a grammar to a type. -/
def Grammar.implementationText (g : Grammar) (head : TypeHead) : String :=
  "impl" ++ head.parameterText ++ " :: gbnf :: StaticGrammar for " ++ head.name ++
    head.parameterText ++
    " \x7b const SYMBOLS : & 'static [(& 'static str , :: gbnf :: RuleId)] = & [" ++
    separated (g.symbols.sorted.map symbolText) ++
    "] ; const RULES : & 'static [& 'static [:: gbnf :: Element]] = & [" ++
    separated (g.rules.bodies.map bodyText) ++ "] ; \x7d"

end EbnfTables
