import EbnfTables.Grammar.Basic
import EbnfTables.Text.Hex

/-!
# The printed form of a grammar

Each rule is one line `name ::= …`, in the order of the ids.  References are printed by name and
every run of character elements as a class.  An empty alternative is printed as an empty literal, so
that no line ends with a bar.  Characters that mean something inside a class, and control
characters, are printed as escapes.
-/

namespace EbnfTables

/-- The control characters. -/
def isControl (n : Nat) : Bool := n < 0x20 || (0x7F ≤ n && n < 0xA0)

/-- A character of a class, given by its code point. -/
def printClassChar (value : UInt32) : List Char :=
  let n := value.toNat
  if n = 0x0A then ['\\', 'n']
  else if n = 0x0D then ['\\', 'r']
  else if n = 0x09 then ['\\', 't']
  else if n = '\\'.toNat ∨ n = '['.toNat ∨ n = ']'.toNat ∨ n = '-'.toNat ∨ n = '"'.toNat then
    ['\\', Char.ofNat n]
  else if n = '^'.toNat then ['\\', 'x', '5', 'E']
  else if n.isValidChar ∧ isControl n = false then [Char.ofNat n]
  else if n ≤ 0xFF then '\\' :: 'x' :: Text.hexDigits 2 n
  else if n ≤ 0xFFFF then '\\' :: 'u' :: Text.hexDigits 4 n
  else '\\' :: 'U' :: Text.hexDigits 8 n

/-- What is printed in front of the character of a character element. -/
def ElementKind.opening : ElementKind → List Char
  | char => [' ', '[']
  | charNot => [' ', '[', '^']
  | rangeUpper => ['-']
  | stop | alt | ruleRef | charAlt => []

/-- What is printed behind a character, depending on what follows it. -/
def classClosing : List Element → List Char
  | [] => [']']
  | e :: _ => if e.kind.isContinuation then [] else [']']

/-- The printed form of an alternative that has no elements. -/
def emptyAlternative : List Char := [' ', '"', '"']

/-- Prints the elements of a body before its end.  The flag says whether the alternative at hand
has no elements yet.  There is no printed form for an end inside a body. -/
def printElements? (symbols : SymbolTable) : Bool → List Element → Option (List Char)
  | isEmpty, [] => some (if isEmpty then emptyAlternative else [])
  | isEmpty, e :: es =>
    match e.kind with
    | .stop => none
    | .alt =>
      (printElements? symbols true es).map fun text =>
        (if isEmpty then emptyAlternative else []) ++ [' ', '|'] ++ text
    | .ruleRef =>
      (printElements? symbols false es).map fun text =>
        ' ' :: ((symbols.name? e.value).getD "?").toList ++ text
    | .char | .charNot | .rangeUpper | .charAlt =>
      (printElements? symbols false es).map fun text =>
        e.kind.opening ++ printClassChar e.value ++ classClosing es ++ text

/-- Prints the rule `id`.  A rule without a body is left out. -/
def printRule? (symbols : SymbolTable) (id : RuleId) (body : Body) : Option (List Char) :=
  match body with
  | [] => some []
  | e :: es =>
    (printElements? symbols true (e :: es).dropLast).map fun text =>
      ((symbols.name? id).getD "?").toList ++ [' ', ':', ':', '='] ++ text ++ ['\n']

/-- Prints the rules from the id `first` on. -/
def printRules? (symbols : SymbolTable) : (first : Nat) → List Body → Option (List Char)
  | _, [] => some []
  | first, body :: bodies =>
    match printRule? symbols first.toUInt32 body, printRules? symbols (first + 1) bodies with
    | some line, some lines => some (line ++ lines)
    | _, _ => none

/-- The printed form of a grammar. -/
def Grammar.print? (g : Grammar) : Option String :=
  (printRules? g.symbols 0 g.rules.bodies).map String.ofList

end EbnfTables
