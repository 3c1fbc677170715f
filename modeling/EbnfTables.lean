import EbnfTables.Element
import EbnfTables.Quantifier
import EbnfTables.SymbolTable
import EbnfTables.RuleTable
import EbnfTables.Text.Order
import EbnfTables.Text.Position
import EbnfTables.Text.Cursor
import EbnfTables.Text.Remains
import EbnfTables.Text.Hex
import EbnfTables.Source.Definition
import EbnfTables.Grammar.Basic
import EbnfTables.Grammar.Printer
import EbnfTables.Compile.Run
import EbnfTables.StaticTables
import EbnfTables.Declaration.Generate
import EbnfTables.Proofs.Source.Lexical
import EbnfTables.Proofs.Source.Faults
import EbnfTables.Proofs.Source.Grammar
import EbnfTables.Proofs.Source.Machine
import EbnfTables.Proofs.Source.Alternatives
import EbnfTables.Proofs.Source.Reading
import EbnfTables.Proofs.Source.Nesting
import EbnfTables.Proofs.Source.Names
import EbnfTables.Proofs.Source.Sites
import EbnfTables.Proofs.Source.Extent
import EbnfTables.Proofs.Tables.Naming
import EbnfTables.Proofs.Tables.Elaboration
import EbnfTables.Proofs.Tables.Representation
import EbnfTables.Proofs.Tables.Building
import EbnfTables.Proofs.Tables.Compilation
import EbnfTables.Proofs.Tables.Layout
import EbnfTables.Proofs.Tables.WellFormed
import EbnfTables.Proofs.Tables.Options
import EbnfTables.Proofs.Tables.References
import EbnfTables.Proofs.Language.Source
import EbnfTables.Proofs.Language.Table
import EbnfTables.Proofs.Language.Preservation
import EbnfTables.Proofs.Language.Derivation
import EbnfTables.Proofs.Language.Repetition
import EbnfTables.Proofs.Printing.Characters
import EbnfTables.Proofs.Printing.Layout
import EbnfTables.Proofs.Printing.Source
import EbnfTables.Proofs.Printing.Classes
import EbnfTables.Proofs.Printing.Flat
import EbnfTables.Proofs.Printing.Recompilation
import EbnfTables.Proofs.Printing.Order
import EbnfTables.Proofs.Printing.Stabilization
import EbnfTables.Proofs.Offsets.Cursor
import EbnfTables.Proofs.Offsets.Atoms
import EbnfTables.Proofs.Offsets.Reader
import EbnfTables.Proofs.Offsets.Safety
import EbnfTables.Proofs.Offsets.Blame
import EbnfTables.Proofs.Tables.Journal
import EbnfTables.Proofs.Tables.WriteOnce
import EbnfTables.Proofs.Tables.Size
import EbnfTables.Proofs.Source.Bare
import EbnfTables.Proofs.Tables.Bare
import EbnfTables.Proofs.Language.Classes
import EbnfTables.Proofs.Tables.Log
import EbnfTables.Proofs.Source.Extension
import EbnfTables.Proofs.Tables.Appending
import EbnfTables.Proofs.Source.Chunks
import EbnfTables.Proofs.Tables.Renaming
import EbnfTables.Proofs.Tables.Reordering
import EbnfTables.Proofs.Tables.Undefined
import EbnfTables.Proofs.Source.Persistence
import EbnfTables.Proofs.Source.Definite
import EbnfTables.Proofs.Tables.Persistence
import EbnfTables.Proofs.Text.Order
import EbnfTables.Proofs.Tables.StaticLookup
import EbnfTables.Proofs.Tables.Symbols
import EbnfTables.Proofs.Declaration.TokenText
import EbnfTables.Proofs.Declaration.Generate
import EbnfTables.Proofs.Tables.Flattening
import EbnfTables.Proofs.Declaration.Sources
import EbnfTables.Proofs.Offsets.Coordinates
import EbnfTables.Proofs.Source.Blanks
