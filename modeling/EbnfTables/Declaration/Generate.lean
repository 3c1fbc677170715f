import EbnfTables.Compile.Run
import EbnfTables.Declaration.FileTree
import EbnfTables.Declaration.TokenText

/-!
# Declarations with a grammar

A type is declared with attributes, and exactly one of them must give a grammar: either its text or
the path of a file.  `Declaration.generate` compiles it and gives the text of the implementation
that attaches the tables to the type.  What can go wrong is judged in this order: the number of
sources, their form, the file, and the grammar.
-/

namespace EbnfTables

/-- The value on the right side of an attribute. -/
inductive AttributeValue
  | text (value : String)
  | number (value : Int)
  | truth (value : Bool)

/-- The forms of attributes. -/
inductive AttributeForm
  /-- A name, `=` and a value. -/
  | assigned (value : AttributeValue)
  /-- Only a name. -/
  | bare
  /-- A name with arguments in parentheses. -/
  | applied

/-- An attribute of a declaration. -/
structure Attribute where
  name : String
  form : AttributeForm

/-- The name of the attributes that give the text of a grammar. -/
def inlineName : String := "gbnf_inline"

/-- The name of the attributes that give the path of a grammar. -/
def fileName : String := "gbnf_file"

/-- The value of an attribute that gives a grammar: one of the two names with a value. -/
def Attribute.sourceValue? (a : Attribute) : Option AttributeValue :=
  match a.form with
  | .assigned value => if a.name = inlineName ∨ a.name = fileName then some value else none
  | .bare | .applied => none

/-- The declaration of a type. -/
structure Declaration where
  head : TypeHead
  attributes : List Attribute

/-- Where a grammar is found. -/
inductive GrammarSource
  | inlined (text : String)
  | file (path : String)
  deriving DecidableEq

/-- What the surroundings of a declaration hold. -/
structure Surroundings where
  files : FileTree
  /-- The directory in which paths are looked up, if it is not the current one. -/
  directory : Option String

/-- Why no implementation is generated. -/
inductive GenerateError
  | missingSource
  | multipleSources
  /-- The value of the attribute is not a text. -/
  | sourceNotText
  | unreadable (path : String) (error : ReadError)
  | invalid (error : CompileError)
  deriving DecidableEq

/-- How a failed generation is told. -/
def GenerateError.message : GenerateError → String
  | missingSource => "No grammar source provided"
  | multipleSources => "At most one grammar source can be provided"
  | sourceNotText => "Derive error: attribute not a string"
  | unreadable path error => "Failed to read grammar file: " ++ path ++ ", " ++ error.message
  | invalid error => "Invalid grammar: " ++ error.message

namespace Declaration

/-- The only source of a grammar among the attributes. -/
def source (d : Declaration) : Except GenerateError GrammarSource :=
  match d.attributes.filter fun a => a.sourceValue?.isSome with
  | [] => .error .missingSource
  | [a] =>
    match a.sourceValue? with
    | some (.text value) => .ok (if a.name = fileName then .file value else .inlined value)
    | _ => .error .sourceNotText
  | _ => .error .multipleSources

end Declaration

/-- The text of a grammar source. -/
def GrammarSource.load (s : Surroundings) : GrammarSource → Except GenerateError String
  | inlined text => .ok text
  | file path =>
    let path := joinPath (s.directory.getD ".") path
    match s.files.readText path with
    | .error error => .error (.unreadable path error)
    | .ok text => .ok text

namespace Declaration

/-- The grammar of a declaration. -/
def grammar (s : Surroundings) (d : Declaration) : Except GenerateError Grammar :=
  match d.source with
  | .error error => .error error
  | .ok source =>
    match source.load s with
    | .error error => .error error
    | .ok text =>
      match compile text with
      | .error error => .error (.invalid error)
      | .ok g => .ok g

/-- The text of the implementation that attaches the tables to the declared type. -/
def generate (s : Surroundings) (d : Declaration) : Except GenerateError String :=
  match d.grammar s with
  | .error error => .error error
  | .ok g => .ok (g.implementationText d.head)

end Declaration

end EbnfTables
