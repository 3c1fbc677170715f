import EbnfTables.Proofs.Printing.Characters
import EbnfTables.Proofs.Printing.Layout
import EbnfTables.Proofs.Source.Names

/-!
# Printed grammars are sources

The lines that are printed for rules with layouts are definitions again.  The trees that they are
read as have neither groups nor quantifiers: a reference stays a reference, a run becomes a class,
and an empty row becomes an empty literal.

`Piece.expr`, `Row.expr` and `Layout.expr` are these trees, and `printedDefinitions` the
definitions.  They are built from the left, so the texts are read from the left as well: what is
read so far is an expression whose text ends where the rest is printed
(`ExprText.foldl_snoc`, `ExprText.foldl_orElse`).  Main result: `sourceText_rulesText`.
-/

namespace EbnfTables

/-! ### Classes -/

theorem memberText_text (m : Member) {rest : List Char} (hrest : rest.head? ≠ some '-') :
    MemberText m (m.text ++ rest) rest := by
  cases m with
  | single c =>
    refine .single (readChar_printClassChar c rest) ?_
    rintro after rfl
    exact absurd rfl hrest
  | range lower upper =>
    obtain ⟨d, ds, hupper, hclose, -, -⟩ := exists_printClassChar_eq_cons upper
    rw [Member.text, List.append_assoc, List.cons_append]
    refine .range (readChar_printClassChar lower _) ?_ (readChar_printClassChar upper rest)
    rw [hupper]
    simpa using hclose

/-- No member starts with a sign that means something in a class. -/
theorem Member.exists_text_eq_cons (m : Member) :
    ∃ d ds, m.text = d :: ds ∧ d ≠ ']' ∧ d ≠ '-' ∧ d ≠ '^' := by
  cases m with
  | single c => exact exists_printClassChar_eq_cons c
  | range lower upper =>
    obtain ⟨d, ds, hlower, h⟩ := exists_printClassChar_eq_cons lower
    exact ⟨d, ds ++ '-' :: printClassChar upper.val, by rw [text, hlower, List.cons_append], h⟩

theorem membersText_flatMap_text (ms : List Member) (rest : List Char) :
    MembersText ms (ms.flatMap Member.text ++ ']' :: rest) rest := by
  induction ms with
  | nil => exact .close
  | cons m ms ih =>
    obtain ⟨d, ds, hm, hclose, -, -⟩ := m.exists_text_eq_cons
    rw [List.flatMap_cons, List.append_assoc]
    refine .member ?_ (memberText_text m ?_) ih
    · rw [hm]
      simpa using hclose
    · cases ms with
      | nil => simp
      | cons m' ms =>
        obtain ⟨d', ds', hm', -, hdash, -⟩ := m'.exists_text_eq_cons
        rw [List.flatMap_cons, hm']
        simpa using hdash

theorem classText_text (negated : Bool) (m : Member) (ms : List Member) (rest : List Char) :
    ClassText negated (m :: ms)
      (negationText negated ++ (m.text ++ (ms.flatMap Member.text ++ ']' :: rest))) rest := by
  have h := membersText_flatMap_text (m :: ms) rest
  rw [List.flatMap_cons, List.append_assoc] at h
  cases negated with
  | true => exact .negated h
  | false =>
    obtain ⟨d, ds, hm, -, -, hcaret⟩ := m.exists_text_eq_cons
    refine .plain ?_ h
    rw [negationText, if_neg Bool.false_ne_true, List.nil_append, hm]
    simpa using hcaret

/-! ### Items -/

/-- What is printed behind an item starts with a space or with the end of the line. -/
def EndsItem (rest : List Char) : Prop := rest.head? = some ' ' ∨ rest.head? = some '\n'

/-- The text reads as the item, whatever is printed behind it. -/
structure ReadsAs (text : List Char) (e : Expr .item) : Prop where
  exists_visible : ∃ c cs, text = c :: cs ∧ IsVisible c
  exprText : ∀ depth rest, EndsItem rest → ExprText .sameLine depth e (text ++ rest) rest

theorem nameText_of_isWord {name : String} (h : IsWord name) {rest : List Char}
    (hrest : EndsItem rest) : NameText name (name.toList ++ rest) rest := by
  refine ⟨rfl, h.ne_nil, h.isWordChar_of_mem, ?_⟩
  rintro c cs rfl
  rcases hrest with h | h <;> obtain rfl := Option.some.inj h <;> decide

theorem readsAs_ref {name : String} (h : IsWord name) : ReadsAs name.toList (.ref name) := by
  constructor
  · obtain ⟨c, cs, hname⟩ := List.exists_cons_of_ne_nil h.ne_nil
    refine ⟨c, cs, hname, isVisible_of_isWordChar (h.isWordChar_of_mem c ?_)⟩
    rw [hname]
    exact List.mem_cons_self
  · intro depth rest hrest
    exact .ref (nameText_of_isWord h hrest)

theorem readsAs_class (symbols : SymbolTable) (negated : Bool) (m : Member) (ms : List Member) :
    ReadsAs (Piece.text symbols (.run negated m ms)) (.charClass negated (m :: ms)) := by
  refine ⟨⟨_, _, rfl, by decide⟩, fun depth rest _ => ?_⟩
  have h := classText_text negated m ms rest
  rw [Piece.text, List.cons_append]
  refine .charClass ?_
  simpa using h

theorem readsAs_empty : ReadsAs ['"', '"'] (.literal []) :=
  ⟨⟨_, _, rfl, by decide⟩, fun _ _ _ => .literal .close⟩

/-! ### Trees -/

section Trees

variable (symbols : SymbolTable)

/-- What a printed piece is read as. -/
def Piece.expr : Piece → Expr .item
  | ref id => .ref (symbols.nameOf id)
  | run negated m ms => .charClass negated (m :: ms)

/-- What a printed row is read as, item by item. -/
def Row.items (row : Row) : List (Expr .item) :=
  if row.isEmpty then [.literal []] else row.map (Piece.expr symbols)

/-- What a printed row is read as. -/
def Row.expr (row : Row) : Expr .sequence := (row.items symbols).foldl .snoc .nothing

/-- What a printed layout is read as. -/
def Layout.expr (l : Layout) : Expr .alternatives :=
  l.others.foldl (fun e row => .orElse e (row.expr symbols)) (.only (l.first.expr symbols))

/-- What the lines of rules are read as. -/
def printedDefinitions : List (String × Layout) → List Definition
  | [] => []
  | (name, l) :: rules =>
    ⟨name, rulesText symbols ((name, l) :: rules), l.expr symbols⟩ :: printedDefinitions rules

end Trees

/-- The references have names. -/
def Body.IsNamed (symbols : SymbolTable) (body : Body) : Prop :=
  ∀ e ∈ body, e.kind = .ruleRef → ∃ name, symbols.name? e.value = some name ∧ IsWord name

/-- The layout has an element, and its references have names. -/
structure Layout.IsPrintable (symbols : SymbolTable) (l : Layout) : Prop where
  ne_nil : l.elements ≠ []
  isNamed : Body.IsNamed symbols l.elements

theorem Body.IsNamed.mono {symbols : SymbolTable} {body body' : Body}
    (h : body.IsNamed symbols) (hsub : body' ⊆ body) : body'.IsNamed symbols :=
  fun e he => h e (hsub he)

theorem Layout.IsPrintable.isNamed_row {symbols : SymbolTable} {l : Layout}
    (h : l.IsPrintable symbols) {row : Row} (hrow : row ∈ l.rows) :
    Body.IsNamed symbols row.elements :=
  h.isNamed.mono (l.elements_subset hrow)

variable {symbols : SymbolTable} {depth : ℕ}

/-! ### Reading rows and layouts -/

theorem SymbolTable.nameOf_eq {id : RuleId} {name : String} (h : symbols.name? id = some name) :
    symbols.nameOf id = name := by
  rw [nameOf, h, Option.getD_some]

theorem Row.exists_texts {row : Row} (hrow : Body.IsNamed symbols row.elements) :
    ∃ texts, List.Forall₂ ReadsAs texts (row.items symbols) ∧ texts ≠ [] ∧
      row.text symbols = texts.flatMap fun text => ' ' :: text := by
  cases row with
  | nil => exact ⟨[['"', '"']], .cons readsAs_empty .nil, by simp, rfl⟩
  | cons p row =>
    refine ⟨(p :: row).map (Piece.text symbols), ?_, by simp, ?_⟩
    · show List.Forall₂ ReadsAs ((p :: row).map (Piece.text symbols))
        ((p :: row).map (Piece.expr symbols))
      rw [List.forall₂_map_left_iff, List.forall₂_map_right_iff, List.forall₂_same]
      intro p' hp'
      cases p' with
      | ref id =>
        have hid : Element.ruleRef id ∈ elements (p :: row) :=
          List.mem_flatMap.2 ⟨_, hp', List.mem_singleton_self _⟩
        obtain ⟨name, hname, hword⟩ := hrow _ hid rfl
        have hnameOf : symbols.nameOf id = name := SymbolTable.nameOf_eq hname
        rw [Piece.text, Piece.expr, hnameOf]
        exact readsAs_ref hword
      | run negated m ms => exact readsAs_class symbols negated m ms
    · rw [List.flatMap_map]
      rfl

theorem endsItem_flatMap_append (texts : List (List Char)) {more : List Char}
    (hmore : EndsItem more) : EndsItem ((texts.flatMap fun text => ' ' :: text) ++ more) := by
  cases texts with
  | nil => exact hmore
  | cons text texts => exact .inl rfl

/-- A sequence whose text ends where further items are printed goes on with these items. -/
theorem ExprText.foldl_snoc {texts : List (List Char)} {items : List (Expr .item)}
    (h : List.Forall₂ ReadsAs texts items) {front : Expr .sequence} {text more : List Char}
    (hmore : EndsItem more)
    (hfront : ExprText .sameLine depth front text
      (Spacing.sameLine.skip ((texts.flatMap fun text => ' ' :: text) ++ more))) :
    ExprText .sameLine depth (items.foldl .snoc front) text (Spacing.sameLine.skip more) := by
  induction h generalizing front with
  | nil => exact hfront
  | @cons t e texts items hread _ ih =>
    obtain ⟨c, cs, rfl, hc⟩ := hread.exists_visible
    rw [List.flatMap_cons, List.cons_append, List.cons_append, Spacing.skip_space,
      List.append_assoc, List.cons_append, Spacing.skip_of_isVisible _ hc] at hfront
    refine ih (.snoc hfront (hread.exprText depth _ ?_) (Spacing.skips_skip _ _))
    exact endsItem_flatMap_append texts hmore

/-- A printed row is read as its items. -/
theorem Row.exprText {row : Row} (hrow : Body.IsNamed symbols row.elements) {more : List Char}
    (hmore : EndsItem more) :
    ExprText .sameLine depth (row.expr symbols)
      (Spacing.anyLine.skip (row.text symbols ++ more)) (Spacing.sameLine.skip more) := by
  obtain ⟨texts, htexts, hne, htext⟩ := Row.exists_texts hrow
  -- behind the space in front, all blanks are skipped alike
  have hskip : Spacing.anyLine.skip (row.text symbols ++ more) =
      Spacing.sameLine.skip ((texts.flatMap fun text => ' ' :: text) ++ more) := by
    rw [htext]
    cases texts with
    | nil => exact absurd rfl hne
    | cons text texts =>
      obtain ⟨e, items, hread, -⟩ := List.forall₂_cons_left_iff.1 htexts
      obtain ⟨c, cs, rfl, hc⟩ := hread.exists_visible
      rw [List.flatMap_cons, List.cons_append, List.cons_append, Spacing.skip_space,
        Spacing.skip_space, List.append_assoc, List.cons_append, Spacing.skip_of_isVisible _ hc,
        Spacing.skip_of_isVisible _ hc]
  rw [hskip]
  exact ExprText.foldl_snoc htexts hmore .nothing

/-- Alternatives whose text ends where further rows are printed go on with these rows. -/
theorem ExprText.foldl_orElse {rows : List Row}
    (hrows : ∀ row ∈ rows, Body.IsNamed symbols (Row.elements row))
    {e : Expr .alternatives} {text more : List Char} (hmore : EndsItem more)
    (he : ExprText .sameLine depth e text
      (Spacing.sameLine.skip (barsText symbols rows ++ more))) :
    ExprText .sameLine depth (rows.foldl (fun e row => .orElse e (row.expr symbols)) e) text
      (Spacing.sameLine.skip more) := by
  induction rows generalizing e with
  | nil => exact he
  | cons row rows ih =>
    obtain ⟨hrow, hrows⟩ := List.forall_mem_cons.1 hrows
    have hends : EndsItem (barsText symbols rows ++ more) := by
      cases rows with
      | nil => exact hmore
      | cons row' rows => exact .inl rfl
    have hbar : Spacing.sameLine.skip (barsText symbols (row :: rows) ++ more) =
        '|' :: (row.text symbols ++ (barsText symbols rows ++ more)) := by
      rw [barsText, List.flatMap_cons, List.append_assoc, List.append_assoc, List.cons_append,
        Spacing.skip_space, List.cons_append, Spacing.skip_of_isVisible _ (by decide)]
      rfl
    rw [hbar] at he
    exact ih hrows (.orElse he (Spacing.skips_skip _ _) (Row.exprText hrow hends))

/-- A printed layout is read as its tree, up to the end of the line. -/
theorem Layout.exprText {l : Layout} (hl : l.IsPrintable symbols) (rest : List Char) :
    ExprText .sameLine depth (l.expr symbols)
      (Spacing.anyLine.skip (l.text symbols ++ '\n' :: rest)) ('\n' :: rest) := by
  obtain ⟨hrow, hrows⟩ := List.forall_mem_cons.1 fun row hrow => hl.isNamed_row hrow
  have hends : EndsItem ('\n' :: rest) := .inr rfl
  have hends' : EndsItem (barsText symbols l.others ++ '\n' :: rest) := by
    cases l.others with
    | nil => exact hends
    | cons row rows => exact .inl rfl
  have hskip : Spacing.sameLine.skip ('\n' :: rest) = '\n' :: rest := rfl
  rw [text, List.append_assoc, ← hskip]
  exact ExprText.foldl_orElse hrows hends (.only (Row.exprText hrow hends'))

theorem Row.contributes_expr {row : Row} (h : row ≠ []) : (row.expr symbols).contributes := by
  have hfold (items : List (Expr .item)) (front : Expr .sequence)
      (h : front.contributes ∨ ∃ e ∈ items, e.contributes) :
      (items.foldl .snoc front).contributes := by
    induction items generalizing front with
    | nil => simpa using h
    | cons e items ih =>
      refine ih _ ?_
      rw [Expr.contributes, Bool.or_eq_true, or_assoc]
      rw [List.exists_mem_cons_iff] at h
      exact h
  obtain ⟨p, row, rfl⟩ := List.exists_cons_of_ne_nil h
  refine hfold _ _ (.inr ⟨p.expr symbols, List.mem_cons_self, ?_⟩)
  cases p <;> rfl

theorem Layout.contributes_expr {l : Layout} (h : l.elements ≠ []) :
    (l.expr symbols).contributes := by
  have hfold (rows : List Row) (e : Expr .alternatives) (h : e.contributes ∨ rows ≠ []) :
      (rows.foldl (fun e row => .orElse e (row.expr symbols)) e).contributes := by
    induction rows generalizing e with
    | nil => simpa using h
    | cons row rows ih => exact ih _ (.inl rfl)
  obtain ⟨row, rows⟩ := l
  refine hfold rows _ ?_
  cases rows with
  | nil =>
    refine .inl (Row.contributes_expr ?_)
    rintro rfl
    exact h rfl
  | cons row' rows => exact .inr (by simp)

/-! ### Reading the lines -/

/-- A line starts with a name, so nothing is skipped in front of it. -/
theorem skip_rulesText (symbols : SymbolTable) {rules : List (String × Layout)}
    (hrules : ∀ rule ∈ rules, IsWord rule.1) :
    Spacing.anyLine.skip (rulesText symbols rules) = rulesText symbols rules := by
  cases rules with
  | nil => rfl
  | cons rule rules =>
    have hname := (List.forall_mem_cons.1 hrules).1
    obtain ⟨c, cs, hc⟩ := List.exists_cons_of_ne_nil hname.ne_nil
    rw [rulesText, hc, List.cons_append]
    refine Spacing.skip_of_isVisible _ (isVisible_of_isWordChar ?_) _
    exact hname.isWordChar_of_mem c (hc ▸ List.mem_cons_self)

/-- The lines of rules are the printed definitions. -/
theorem definitionsText_rulesText (limit : ℕ) {rules : List (String × Layout)}
    (hrules : ∀ rule ∈ rules, IsWord rule.1 ∧ rule.2.IsPrintable symbols) :
    DefinitionsText limit (printedDefinitions symbols rules) (rulesText symbols rules) := by
  induction rules with
  | nil => exact .nil
  | cons rule rules ih =>
    obtain ⟨name, l⟩ := rule
    obtain ⟨⟨hname, hl⟩, hrules⟩ := List.forall_mem_cons.1 hrules
    have hmark : Skips .sameLine ([' ', ':', ':', '='] ++ (l.text symbols ++ '\n' ::
        rulesText symbols rules)) (':' :: ':' :: '=' :: (l.text symbols ++ '\n' ::
        rulesText symbols rules)) := Spacing.skip_eq_iff.1 rfl
    have hnext := Spacing.skips_skip .anyLine (rulesText symbols rules)
    rw [skip_rulesText symbols fun rule hrule => (hrules rule hrule).1] at hnext
    refine .cons (.intro (nameText_of_isWord hname (.inl rfl)) hmark (Spacing.skips_skip _ _)
      (Layout.exprText hl _) (Layout.contributes_expr hl.ne_nil)
      (.line .lf hnext)) (ih hrules)

/-- **What is printed is a source**, of whatever nesting. -/
theorem sourceText_rulesText (limit : ℕ) {rules : List (String × Layout)} (hne : rules ≠ [])
    (hrules : ∀ rule ∈ rules, IsWord rule.1 ∧ rule.2.IsPrintable symbols) :
    SourceText limit (printedDefinitions symbols rules) (rulesText symbols rules) := by
  have hskip := skip_rulesText symbols fun rule hrule => (hrules rule hrule).1
  refine ⟨?_, _, Spacing.skip_eq_iff.1 hskip, definitionsText_rulesText limit hrules⟩
  obtain ⟨rule, rules', rfl⟩ := List.exists_cons_of_ne_nil hne
  simp [printedDefinitions]

end EbnfTables
