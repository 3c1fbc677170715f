import EbnfTables.Compile.Builder
import EbnfTables.Compile.Error
import EbnfTables.Compile.Options
import EbnfTables.Grammar.Printer
import EbnfTables.Source.Definition
import EbnfTables.Text.Cursor

/-!
# Compilation

A compilation takes a text apart, builds the tables definition by definition, and checks that they
are complete.  The first thing that is wrong decides:

* definitions are judged in their order, and a definition whose rule has a body already is refused
  before its right side is looked at;
* a text without definitions is refused;
* then the first reference, by id and by place in the body, to a rule that has no body;
* then a start rule that was asked for and has no body.

`parse` does all but the last two.  `run` also gives the log, `compile` only the grammar or the
error.
-/

namespace EbnfTables

namespace Builder

/-- Adds a definition.  The flag is false if its rule has a body already; then its right side is not
looked at. -/
def addDefinition (b : Builder) (d : Definition) : Builder × Bool :=
  let (id, b) := b.intern d.name
  if b.rules.isDefined id then (b, false)
  else
    let (body, b) := d.body.build d.name b
    ((b.define id (body ++ [.stop])).log (.compiledRule d.name id), true)

/-- Adds definitions, up to the first whose rule has a body already; gives that one. -/
def addDefinitions : List Definition → Builder → Builder × Option Definition
  | [], b => (b, none)
  | d :: ds, b =>
    match b.addDefinition d with
    | (b, false) => (b, some d)
    | (b, true) => addDefinitions ds b

/-- Adds the alternations that were begun when a text was refused, the outermost first.  The rule of
the first is `id`; each of the others is a group inside the one before.  The innermost has a body
only if it was read to its end. -/
def addFrames (base : String) (finished : Bool) : List Frame → RuleId → Builder → Builder
  | [], _, b => b
  | [f], id, b =>
    let (body, b) := f.body.build base b
    if finished then b.define id (body ++ [.stop]) else b
  | f :: g :: fs, _, b =>
    let (_, b) := f.body.build base b
    let (id, b) := b.fresh base
    addFrames base finished (g :: fs) id b

/-- Adds a definition that was begun when the text was refused.  The flag is false if its rule has a
body already. -/
def addOpenDefinition (b : Builder) (d : OpenDefinition) : Builder × Bool :=
  let (id, b) := b.intern d.name
  if b.rules.isDefined id then (b, false)
  else (addFrames d.name d.finished d.frames.reverse id b, true)

/-- The first reference to a rule without a body, in the order of the ids. -/
def firstUndefined? (b : Builder) : Option RuleId :=
  (b.rules.bodies.flatten.find? fun e => e.kind = .ruleRef ∧ b.rules.isDefined e.value = false).map
    Element.value

/-- Whether a rule has a body. -/
def hasRule (b : Builder) (name : String) : Bool :=
  match b.symbols.id? name with
  | none => false
  | some id => b.rules.isDefined id

/-- Checks that the tables are complete. -/
def check (b : Builder) (options : CompileOptions) : Except CompileError Grammar :=
  match b.firstUndefined? with
  | some id => .error (.undefinedRule ((b.symbols.name? id).getD ""))
  | none =>
    match options.startRule with
    | none => .ok ⟨b.symbols, b.rules⟩
    | some name =>
      if b.hasRule name then .ok ⟨b.symbols, b.rules⟩ else .error (.missingStartRule name)

end Builder

/-- What a compilation leads to. -/
structure Run where
  events : List Event
  result : Except CompileError Grammar

/-- A compilation that ends with an error. -/
def Builder.fail (b : Builder) (error : CompileError) : Run := ⟨b.events, .error error⟩

/-- A compilation all of whose definitions were built. -/
def Builder.finish (b : Builder) (options : CompileOptions) : Run :=
  match b.check options with
  | .error error => b.fail error
  | .ok g => ⟨(b.log (.compiledGrammar g.symbols.size g.rules.size)).events, .ok g⟩

/-- The place of the end part `rest` of a text. -/
def Position.ofRest (text rest : List Char) : Position := (Cursor.before text rest).position

/-- Fills the tables from what a text was taken apart into, up to the first thing that is wrong. -/
def Reading.build (text : List Char) (r : Reading) : Builder × Option CompileError :=
  match Builder.empty.addDefinitions r.definitions with
  | (b, some d) => (b, some (.duplicateRule d.name (.ofRest text d.site)))
  | (b, none) =>
    match r.refusal with
    | none => (b, if r.definitions.isEmpty then some .emptyGrammar else none)
    | some ⟨fault, none⟩ => (b, some (.malformed fault.error (.ofRest text fault.site)))
    | some ⟨fault, some d⟩ =>
      match b.addOpenDefinition d with
      | (b, false) => (b, some (.duplicateRule d.name (.ofRest text d.site)))
      | (b, true) => (b, some (.malformed fault.error (.ofRest text fault.site)))

/-- Fills the tables from a text.  Without an error, all its definitions are in the tables; whether
these are complete is not looked at. -/
def parse (limit : Nat) (source : String) : Builder × Option CompileError :=
  (read limit source.toList).build source.toList

/-- Compiles a text and keeps the log. -/
def run (options : CompileOptions) (source : String) : Run :=
  match parse options.maxNesting source with
  | (b, some error) => b.fail error
  | (b, none) => b.finish options

/-- Compiles a text. -/
def compile (source : String) (options : CompileOptions := {}) : Except CompileError Grammar :=
  (run options source).result

/-- Compiles a text, prints the grammar, compiles the printed text, and so on, `n` times after the
first or up to the first failure. -/
def recompilations : (n : Nat) → (source : String) → List (Except CompileError Grammar)
  | 0, source => [compile source]
  | n + 1, source =>
    match compile source with
    | .error e => [.error e]
    | .ok g =>
      .ok g ::
        match g.print? with
        | none => []
        | some printed => recompilations n printed

end EbnfTables
