import EbnfTables.Grammar.Printer
import EbnfTables.Proofs.Tables.Layout

/-!
# The printed form of layouts

The printer goes through a body element by element and looks at the neighbours to open and close
classes.  On the body of a layout it does what one would expect of the parts: pieces are printed
with a space in front, rows that are empty as an empty literal, and bars between rows
(`Layout.printElements?_eq`).

`rulesText` puts the lines together, and is what is printed for a grammar whose rules are laid out
(`printRules?_eq`).
-/

namespace EbnfTables

/-! ### Texts of the parts -/

/-- A member as it is printed. -/
def Member.text : Member → List Char
  | single c => printClassChar c.val
  | range lower upper => printClassChar lower.val ++ '-' :: printClassChar upper.val

/-- What stands in front of the members of a class. -/
def negationText (negated : Bool) : List Char := if negated then ['^'] else []

variable (symbols : SymbolTable)

/-- The name of an id. -/
def SymbolTable.nameOf (id : RuleId) : String := (symbols.name? id).getD "?"

/-- A piece as it is printed, without the space in front. -/
def Piece.text : Piece → List Char
  | ref id => (symbols.nameOf id).toList
  | run negated m ms =>
    '[' :: (negationText negated ++ (m.text ++ (ms.flatMap Member.text ++ [']'])))

/-- The pieces of a row, each with a space in front. -/
def Row.piecesText (row : Row) : List Char := row.flatMap fun p => ' ' :: p.text symbols

/-- A row as it is printed. -/
def Row.text (row : Row) : List Char :=
  if row.isEmpty then emptyAlternative else row.piecesText symbols

/-- Further rows, each with a bar in front. -/
def barsText (rows : List Row) : List Char := rows.flatMap fun row => [' ', '|'] ++ row.text symbols

/-- A layout as it is printed. -/
def Layout.text (l : Layout) : List Char := l.first.text symbols ++ barsText symbols l.others

/-- The lines of rules with the given names and layouts. -/
def rulesText : List (String × Layout) → List Char
  | [] => []
  | (name, l) :: rules =>
    name.toList ++ ([' ', ':', ':', '='] ++ (l.text symbols ++ '\n' :: rulesText rules))

/-! ### What is printed -/

theorem classClosing_of_isContinuation {e : Element} {es : Body} (h : e.kind.isContinuation) :
    classClosing (e :: es) = [] := by
  rw [classClosing, if_pos h]

theorem classClosing_of_endsRun {es : Body} (h : es.EndsRun) : classClosing es = [']'] := by
  cases es with
  | nil => rfl
  | cons e es => rw [classClosing, h e rfl, if_neg Bool.false_ne_true]

/-- A member is printed behind what opens its kind. -/
theorem printElements?_member {kind : ElementKind} (hkind : kind.isChar) (m : Member)
    (isEmpty : Bool) (es : Body) :
    printElements? symbols isEmpty (m.elements kind ++ es) =
      (printElements? symbols false es).map fun text =>
        kind.opening ++ (m.text ++ (classClosing es ++ text)) := by
  have hchar (isEmpty : Bool) (value : UInt32) {kind : ElementKind} (hkind : kind.isChar)
      (es : Body) :
      printElements? symbols isEmpty (⟨kind, value⟩ :: es) =
        (printElements? symbols false es).map fun text =>
          kind.opening ++ printClassChar value ++ classClosing es ++ text := by
    rw [printElements?]
    cases kind <;> first | rfl | cases hkind
  cases m with
  | single c =>
    rw [Member.elements, List.singleton_append, hchar isEmpty c.val hkind]
    simp only [Member.text, List.append_assoc]
  | range lower upper =>
    have hcont : (⟨.rangeUpper, upper.val⟩ : Element).kind.isContinuation := rfl
    rw [Member.elements, List.cons_append, List.singleton_append, hchar isEmpty lower.val hkind,
      hchar false upper.val rfl, classClosing_of_isContinuation hcont, Option.map_map]
    simp [Member.text, ElementKind.opening, Function.comp_def]

/-- A run is printed as a class. -/
theorem printElements?_members {kind : ElementKind} (hkind : kind.isChar) (m : Member)
    (ms : List Member) (isEmpty : Bool) {es : Body} (hes : es.EndsRun) :
    printElements? symbols isEmpty
        (m.elements kind ++ (ms.flatMap (Member.elements .charAlt) ++ es)) =
      (printElements? symbols false es).map fun text =>
        kind.opening ++ (m.text ++ (ms.flatMap Member.text ++ ([']'] ++ text))) := by
  induction ms generalizing m kind isEmpty with
  | nil =>
    rw [List.flatMap_nil, List.nil_append, printElements?_member symbols hkind,
      classClosing_of_endsRun hes]
    rfl
  | cons m' ms ih =>
    have hclosing : classClosing (m'.elements .charAlt ++
        (ms.flatMap (Member.elements .charAlt) ++ es)) = [] := by
      cases m' <;> exact classClosing_of_isContinuation rfl
    rw [List.flatMap_cons, List.append_assoc, printElements?_member symbols hkind, hclosing,
      ih rfl, Option.map_map]
    simp [Function.comp_def, ElementKind.opening]

theorem printElements?_piece (p : Piece) (isEmpty : Bool) {es : Body} (hes : es.EndsRun) :
    printElements? symbols isEmpty (p.elements ++ es) =
      (printElements? symbols false es).map fun text => ' ' :: (p.text symbols ++ text) := by
  cases p with
  | ref id =>
    rw [Piece.elements, List.singleton_append, printElements?]
    rfl
  | run negated m ms =>
    rw [Piece.elements, classElements, List.append_assoc, printElements?_members symbols _ m ms
      isEmpty hes]
    · cases negated <;>
        simp [Piece.text, negationText, ElementKind.opening]
    · cases negated <;> rfl

/-- The pieces of a row are printed one after the other. -/
theorem printElements?_row (row : Row) (isEmpty : Bool) {es : Body} (hes : es.EndsRun) :
    printElements? symbols isEmpty (row.elements ++ es) =
      (printElements? symbols (isEmpty && row.isEmpty) es).map fun text =>
        row.piecesText symbols ++ text := by
  induction row generalizing isEmpty with
  | nil => simp [Row.piecesText]
  | cons p row ih =>
    have hhead := Row.endsRun_append row hes
    rw [Row.elements_cons, List.append_assoc, printElements?_piece symbols p isEmpty hhead,
      ih false, Option.map_map]
    simp [Row.piecesText, Function.comp_def]

/-- A layout is printed row by row. -/
theorem Layout.printElements?_eq (l : Layout) :
    printElements? symbols true l.elements = some (l.text symbols) := by
  obtain ⟨row, rows⟩ := l
  induction rows generalizing row with
  | nil =>
    have h : printElements? symbols true (row.elements ++ []) = _ :=
      printElements?_row symbols row true Body.endsRun_nil
    rw [List.append_nil] at h
    rw [elements_mk_nil, h]
    cases row <;> simp [printElements?, text, barsText, Row.text, Row.piecesText]
  | cons row' rows ih =>
    have halt : Body.EndsRun (.alt :: elements ⟨row', rows⟩) := Body.endsRun_cons rfl _
    rw [elements_mk_cons, printElements?_row symbols row true halt, printElements?]
    simp only [Element.alt, ih]
    cases row <;> simp [text, barsText, Row.text, Row.piecesText]

theorem printRule?_eq (id : RuleId) (l : Layout) :
    printRule? symbols id l.body =
      some ((symbols.nameOf id).toList ++
        ([' ', ':', ':', '='] ++ (l.text symbols ++ ['\n']))) := by
  have hne : l.body ≠ [] := by simp [Layout.body]
  have hdrop : l.body.dropLast = l.elements := by simp [Layout.body]
  obtain ⟨e, es, hbody⟩ := List.exists_cons_of_ne_nil hne
  rw [hbody] at hdrop ⊢
  rw [printRule?, hdrop, l.printElements?_eq]
  simp [SymbolTable.nameOf]

/-- Rules are printed in their order, if their names are those of the ids from `first` on. -/
theorem printRules?_eq {rules : List (String × Layout)} {first : ℕ}
    (hnames : ∀ i (hi : i < rules.length), symbols.nameOf (first + i).toUInt32 = rules[i].1) :
    printRules? symbols first (rules.map fun rule => rule.2.body) =
      some (rulesText symbols rules) := by
  induction rules generalizing first with
  | nil => rfl
  | cons rule rules ih =>
    obtain ⟨name, l⟩ := rule
    have hname : symbols.nameOf first.toUInt32 = name := hnames 0 (by simp)
    have hrules := @ih (first + 1) fun i hi => by
      rw [Nat.add_right_comm, Nat.add_assoc]
      exact hnames (i + 1) (by simpa using hi)
    rw [List.map_cons, printRules?, printRule?_eq, hrules, hname]
    simp [rulesText]

end EbnfTables
