/-!
# Options of a compilation

Options only refuse: they do not change the tables of a grammar that they accept.
-/

namespace EbnfTables

/-- The number of groups that may be open at a time unless another is asked for. -/
def defaultMaxNesting : Nat := 64

/-- What a compilation asks of a grammar. -/
structure CompileOptions where
  /-- A rule that must be defined. -/
  startRule : Option String := none
  /-- The number of groups that may be open at a time. -/
  maxNesting : Nat := defaultMaxNesting
  deriving DecidableEq

namespace CompileOptions

/-- Asks for a start rule. -/
def withStartRule (o : CompileOptions) (name : String) : CompileOptions :=
  { o with startRule := some name }

/-- Sets the number of groups that may be open at a time. -/
def withMaxNesting (o : CompileOptions) (depth : Nat) : CompileOptions :=
  { o with maxNesting := depth }

/-- Whether nothing but the default is asked. -/
def isDefault (o : CompileOptions) : Bool := o = {}

end CompileOptions

end EbnfTables
