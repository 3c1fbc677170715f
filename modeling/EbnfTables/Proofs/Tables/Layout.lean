import EbnfTables.Proofs.Tables.Compilation

/-!
# The layout of bodies

A body is a flat list of elements.  `Body.alternatives` takes any body apart, as a reader of tables
does: at the bars, up to the end.

What is written into tables is built from larger parts:

* a `Piece` is a reference, or the run of a class with at least one member;
* a `Row` is a list of pieces, and stands for an alternative;
* a `Layout` is a row and further rows behind bars.

Every body of a compiled grammar is the body of a layout (`ElaboratesAll.exists_layout`), and its
alternatives are the rows (`Layout.alternatives_body`).  Repetition takes rows to layouts
(`Quantifier.body_layout`), so a slice that is moved or doubled never cuts a run.
-/

namespace EbnfTables

/-- The alternatives of a body: what lies between its bars and before its end. -/
def Body.alternatives (body : Body) : List Body :=
  (body.takeWhile fun e => e.kind ≠ .stop).splitOnP fun e => e.kind = .alt

/-- There is neither a bar nor an end among the elements. -/
def Body.IsAlternative (s : Body) : Prop := ∀ e ∈ s, e.kind ≠ .alt ∧ e.kind ≠ .stop

theorem Element.isAlternative_of_isChar {e : Element} (h : e.kind.isChar) :
    e.kind ≠ .alt ∧ e.kind ≠ .stop := by
  constructor <;> rintro hkind <;> rw [hkind] at h <;> cases h

namespace Body.IsAlternative

variable {s s' : Body}

theorem nil : IsAlternative [] := List.forall_mem_nil _

theorem ruleRef (id : RuleId) : IsAlternative [.ruleRef id] :=
  List.forall_mem_singleton.2 ⟨nofun, nofun⟩

theorem append (h : s.IsAlternative) (h' : s'.IsAlternative) : (s ++ s').IsAlternative :=
  List.forall_mem_append.2 ⟨h, h'⟩

theorem splitOnP_eq (h : s.IsAlternative) : (s.splitOnP fun e => e.kind = .alt) = [s] :=
  List.splitOnP_eq_singleton fun e he => by simpa using (h e he).1

theorem takeWhile_append (h : s.IsAlternative) (body : Body) :
    ((s ++ body).takeWhile fun e => e.kind ≠ .stop) = s ++ body.takeWhile fun e => e.kind ≠ .stop :=
  List.takeWhile_append_of_pos fun e he => by simpa using (h e he).2

theorem alternatives_eq (h : s.IsAlternative) : s.alternatives = [s] := by
  have hfront := h.takeWhile_append []
  rw [List.append_nil, List.takeWhile_nil, List.append_nil] at hfront
  rw [alternatives, hfront, h.splitOnP_eq]

/-- A bar divides the alternative in front of it from those behind it. -/
theorem alternatives_append_alt (h : s.IsAlternative) (body : Body) :
    alternatives (s ++ .alt :: body) = s :: body.alternatives := by
  have hfront : ((.alt :: body).takeWhile fun e => e.kind ≠ .stop) =
      .alt :: body.takeWhile fun e => e.kind ≠ .stop := by simp [Element.alt]
  rw [alternatives, h.takeWhile_append, hfront, List.splitOnP_append_cons _ _ (by rfl),
    h.splitOnP_eq]
  rfl

/-- An alternative at the end of a body is the last one. -/
theorem alternatives_append_stop (h : s.IsAlternative) (body : Body) :
    alternatives (s ++ .stop :: body) = [s] := by
  have hfront : ((.stop :: body).takeWhile fun e => e.kind ≠ .stop) = [] := by simp [Element.stop]
  rw [alternatives, h.takeWhile_append, hfront, List.append_nil, h.splitOnP_eq]

end Body.IsAlternative

/-! ### Pieces and rows -/

/-- A part of an alternative that cannot be divided. -/
inductive Piece
  /-- A reference to a rule. -/
  | ref (id : RuleId)
  /-- The class of the given members, of which there is at least one. -/
  | run (negated : Bool) (first : Member) (more : List Member)

/-- The elements of a piece. -/
def Piece.elements : Piece → Body
  | ref id => [.ruleRef id]
  | run negated first more => classElements negated (first :: more)

/-- The pieces of an alternative. -/
abbrev Row := List Piece

/-- The elements of a row. -/
def Row.elements (row : Row) : Body := row.flatMap Piece.elements

theorem Member.kind_eq_or_of_mem_elements {kind : ElementKind} {m : Member} {e : Element}
    (he : e ∈ m.elements kind) : e.kind = kind ∨ e.kind = .rangeUpper := by
  cases m <;> simp only [elements, List.mem_cons, List.not_mem_nil, or_false] at he
  · exact .inl (by rw [he])
  · rcases he with rfl | rfl
    · exact .inl rfl
    · exact .inr rfl

theorem isChar_of_mem_classElements {negated : Bool} {ms : List Member} {e : Element}
    (he : e ∈ classElements negated ms) : e.kind.isChar := by
  cases ms with
  | nil => cases he
  | cons m ms =>
    rw [classElements, List.mem_append, List.mem_flatMap] at he
    rcases he with he | ⟨m', -, he⟩
    · rcases Member.kind_eq_or_of_mem_elements he with h | h
      · rw [h]
        cases negated <;> rfl
      · rw [h]
        rfl
    · rcases Member.kind_eq_or_of_mem_elements he with h | h <;> rw [h] <;> rfl

theorem Member.elements_ne_nil (kind : ElementKind) (m : Member) : m.elements kind ≠ [] := by
  cases m <;> simp [elements]

namespace Row

@[simp] theorem elements_nil : elements [] = [] := rfl

@[simp] theorem elements_append (row row' : Row) :
    elements (row ++ row') = row.elements ++ row'.elements :=
  List.flatMap_append

@[simp] theorem elements_cons (p : Piece) (row : Row) :
    elements (p :: row) = p.elements ++ row.elements := rfl

/-- The elements of a row are references and characters. -/
theorem kind_of_mem {row : Row} {e : Element} (he : e ∈ row.elements) :
    e.kind = .ruleRef ∨ e.kind.isChar := by
  obtain ⟨p, -, hp⟩ := List.mem_flatMap.1 he
  cases p with
  | ref id =>
    obtain rfl := List.mem_singleton.1 hp
    exact .inl rfl
  | run negated m ms =>
    rw [Piece.elements] at hp
    exact .inr (isChar_of_mem_classElements hp)

theorem isAlternative_elements (row : Row) : Body.IsAlternative row.elements := by
  intro e he
  rcases kind_of_mem he with h | h
  · rw [h]
    exact ⟨nofun, nofun⟩
  · exact Element.isAlternative_of_isChar h

/-- The row of a literal. -/
def ofChars (cs : List Char) : Row := cs.map fun c => .run false (.single c) []

@[simp] theorem elements_ofChars (cs : List Char) :
    elements (ofChars cs) = cs.map Element.char := by
  induction cs with
  | nil => rfl
  | cons c cs ih =>
    rw [List.map_cons, ← ih]
    rfl

/-- The row of a class. -/
def ofClass (negated : Bool) : List Member → Row
  | [] => []
  | m :: ms => [.run negated m ms]

@[simp] theorem elements_ofClass (negated : Bool) (ms : List Member) :
    elements (ofClass negated ms) = classElements negated ms := by
  cases ms with
  | nil => rfl
  | cons m ms => simp [ofClass, Piece.elements]

end Row

theorem isContinuation_of_mem_elements {m : Member} {e : Element}
    (he : e ∈ m.elements .charAlt) : e.kind.isContinuation := by
  rcases Member.kind_eq_or_of_mem_elements he with h | h <;> rw [h] <;> rfl

/-- A run starts with its kind, and all that follows are continuations. -/
theorem exists_classElements_eq_cons (negated : Bool) (m : Member) (ms : List Member) :
    ∃ e es, classElements negated (m :: ms) = e :: es ∧
      e.kind = (if negated then .charNot else .char) ∧ ∀ e' ∈ es, e'.kind.isContinuation := by
  have hms : ∀ e' ∈ ms.flatMap (Member.elements .charAlt), e'.kind.isContinuation := by
    intro e' he'
    obtain ⟨m', -, he'⟩ := List.mem_flatMap.1 he'
    exact isContinuation_of_mem_elements he'
  cases m with
  | single c => exact ⟨_, _, rfl, rfl, hms⟩
  | range lower upper => exact ⟨_, _, rfl, rfl, List.forall_mem_cons.2 ⟨rfl, hms⟩⟩

/-- A run that stands in front of the elements ends there: they do not start with a continuation. -/
def Body.EndsRun (es : Body) : Prop := ∀ e, es.head? = some e → e.kind.isContinuation = false

theorem Body.endsRun_nil : EndsRun [] := fun _ he => by cases he

theorem Body.endsRun_cons {e : Element} (h : e.kind.isContinuation = false) (es : Body) :
    EndsRun (e :: es) := by
  intro e' he
  obtain rfl := Option.some.inj he
  exact h

/-- Continuations are found in front of such elements as if these were not there. -/
theorem Body.EndsRun.takeWhile_append {es : Body} (h : es.EndsRun) (s : Body) :
    ((s ++ es).takeWhile fun e => e.kind.isContinuation) =
      s.takeWhile fun e => e.kind.isContinuation := by
  induction s with
  | nil =>
    cases es with
    | nil => rfl
    | cons e es => simp [h e rfl]
  | cons e s ih => by_cases he : e.kind.isContinuation <;> simp [he, ih]

theorem Body.EndsRun.dropWhile_append {es : Body} (h : es.EndsRun) (s : Body) :
    ((s ++ es).dropWhile fun e => e.kind.isContinuation) =
      (s.dropWhile fun e => e.kind.isContinuation) ++ es := by
  induction s with
  | nil =>
    cases es with
    | nil => rfl
    | cons e es => simp [h e rfl]
  | cons e s ih => by_cases he : e.kind.isContinuation <;> simp [he, ih]

/-- No row starts with a continuation. -/
theorem Row.endsRun_elements (row : Row) : Body.EndsRun row.elements := by
  cases row with
  | nil => exact Body.endsRun_nil
  | cons p row =>
    rw [elements_cons]
    cases p with
    | ref id => exact Body.endsRun_cons rfl _
    | run negated m ms =>
      obtain ⟨e, es, heq, hkind, -⟩ := exists_classElements_eq_cons negated m ms
      rw [Piece.elements, heq, List.cons_append]
      refine Body.endsRun_cons ?_ _
      rw [hkind]
      cases negated <;> rfl

theorem Row.endsRun_append (row : Row) {es : Body} (hes : es.EndsRun) :
    Body.EndsRun (row.elements ++ es) := by
  have hrow := row.endsRun_elements
  cases h : row.elements with
  | nil => exact hes
  | cons e es' =>
    rw [h] at hrow
    exact hrow

/-! ### Layouts -/

/-- At least one row. -/
structure Layout where
  first : Row
  others : List Row

namespace Layout

/-- The rows of a layout. -/
def rows (l : Layout) : List Row := l.first :: l.others

/-- The rows with bars between them. -/
def elements (l : Layout) : Body :=
  l.first.elements ++ l.others.flatMap fun row => .alt :: row.elements

/-- The rows with bars between them, and the end. -/
def body (l : Layout) : Body := l.elements ++ [.stop]

/-- The layout with one more row. -/
def push (l : Layout) (row : Row) : Layout := ⟨l.first, l.others ++ [row]⟩

@[simp] theorem elements_mk_nil (row : Row) : elements ⟨row, []⟩ = row.elements := by
  simp [elements]

@[simp] theorem elements_mk_cons (row row' : Row) (rows : List Row) :
    elements ⟨row, row' :: rows⟩ = row.elements ++ .alt :: elements ⟨row', rows⟩ := by
  simp [elements]

@[simp] theorem elements_push (l : Layout) (row : Row) :
    (l.push row).elements = l.elements ++ .alt :: row.elements := by
  simp [elements, push]

theorem elements_subset (l : Layout) {row : Row} (hrow : row ∈ l.rows) :
    row.elements ⊆ l.elements := by
  intro e he
  rcases List.mem_cons.1 hrow with rfl | hrow
  · exact List.mem_append_left _ he
  · exact List.mem_append_right _ (List.mem_flatMap.2 ⟨row, hrow, List.mem_cons_of_mem _ he⟩)

theorem kind_ne_stop_of_mem {l : Layout} {e : Element} (he : e ∈ l.elements) : e.kind ≠ .stop := by
  rcases List.mem_append.1 he with he | he
  · exact (l.first.isAlternative_elements e he).2
  · obtain ⟨row, -, he⟩ := List.mem_flatMap.1 he
    rcases List.mem_cons.1 he with rfl | he
    · decide
    · exact (row.isAlternative_elements e he).2

/-- The alternatives of a layout are its rows, whether or not its end is there. -/
theorem alternatives_elements (l : Layout) :
    Body.alternatives l.elements = l.rows.map Row.elements := by
  obtain ⟨row, rows⟩ := l
  induction rows generalizing row with
  | nil => rw [elements_mk_nil, row.isAlternative_elements.alternatives_eq]; rfl
  | cons row' rows ih =>
    rw [elements_mk_cons, row.isAlternative_elements.alternatives_append_alt, ih]
    rfl

theorem alternatives_body (l : Layout) : Body.alternatives l.body = l.rows.map Row.elements := by
  obtain ⟨row, rows⟩ := l
  unfold body
  induction rows generalizing row with
  | nil => rw [elements_mk_nil, row.isAlternative_elements.alternatives_append_stop]; rfl
  | cons row' rows ih =>
    rw [elements_mk_cons, List.append_assoc, List.cons_append,
      row.isAlternative_elements.alternatives_append_alt, ih]
    rfl

end Layout

/-- The layout of the rule `id` that repeats `operand`. -/
def Quantifier.layout (q : Quantifier) (operand : Row) (id : RuleId) : Layout :=
  match q with
  | zeroOrOne => ⟨operand, [[]]⟩
  | zeroOrMore => ⟨operand ++ [.ref id], [[]]⟩
  | oneOrMore => ⟨operand ++ [.ref id], [operand]⟩

/-- The alternatives of a rule that repeats an operand. -/
theorem Quantifier.alternatives_expansion (q : Quantifier) {operand : Body}
    (h : operand.IsAlternative) (id : RuleId) :
    (q.expansion operand id).alternatives =
      match q with
      | zeroOrOne => [operand, []]
      | zeroOrMore => [operand ++ [.ruleRef id], []]
      | oneOrMore => [operand ++ [.ruleRef id], operand] := by
  have hid := h.append (.ruleRef id)
  have hnil := Body.IsAlternative.nil.alternatives_append_stop []
  cases q with
  | zeroOrOne => exact (h.alternatives_append_alt [.stop]).trans (congrArg _ hnil)
  | zeroOrMore =>
    have hexpansion : zeroOrMore.expansion operand id =
        operand ++ [.ruleRef id] ++ .alt :: [.stop] := by simp [expansion]
    rw [hexpansion]
    exact (hid.alternatives_append_alt [.stop]).trans (congrArg _ hnil)
  | oneOrMore =>
    have hexpansion : oneOrMore.expansion operand id =
        operand ++ [.ruleRef id] ++ .alt :: (operand ++ [.stop]) := by simp [expansion]
    rw [hexpansion, hid.alternatives_append_alt, h.alternatives_append_stop]

theorem Quantifier.body_layout (q : Quantifier) (operand : Row) (id : RuleId) :
    (q.layout operand id).body = q.expansion operand.elements id := by
  cases q <;> simp [layout, expansion, Layout.body, Layout.elements, Piece.elements]

/-! ### Expressions -/

namespace Represents

variable {names : List String} {writes : List (RuleId × Body)} {level : Level} {elements : Body}

/-- The elements of an expression are those of a layout; a row suffices below the level of
alternatives. -/
theorem exists_layout {e : Expr level} (h : Represents names writes e elements) :
    ∃ l : Layout, elements = l.elements ∧ (level ≠ .alternatives → l.others = []) := by
  induction h with
  | @literal cs => exact ⟨⟨Row.ofChars cs, []⟩, by simp, fun _ => rfl⟩
  | @charClass negated ms => exact ⟨⟨Row.ofClass negated ms, []⟩, by simp, fun _ => rfl⟩
  | @ref _ id | @group _ id | @repeated _ _ id =>
    exact ⟨⟨[.ref id], []⟩, by simp [Piece.elements], fun _ => rfl⟩
  | nothing => exact ⟨⟨[], []⟩, by simp, fun _ => rfl⟩
  | snoc _ _ ihfront ihlast =>
    obtain ⟨⟨row, _⟩, rfl, hfront⟩ := ihfront
    obtain ⟨⟨row', _⟩, rfl, hlast⟩ := ihlast
    cases hfront nofun
    cases hlast nofun
    exact ⟨⟨row ++ row', []⟩, by simp, fun _ => rfl⟩
  | only _ ih =>
    obtain ⟨l, hl, -⟩ := ih
    exact ⟨l, hl, fun h => absurd rfl h⟩
  | orElse _ _ ihearlier ihlast =>
    obtain ⟨l, rfl, -⟩ := ihearlier
    obtain ⟨⟨row, _⟩, rfl, hlast⟩ := ihlast
    cases hlast nofun
    exact ⟨l.push row, by simp, fun h => absurd rfl h⟩

/-- The elements of an item or of a sequence are those of a row. -/
theorem exists_row {e : Expr level} (h : Represents names writes e elements)
    (hlevel : level ≠ .alternatives) : ∃ row : Row, elements = row.elements := by
  obtain ⟨⟨row, _⟩, rfl, hrow⟩ := h.exists_layout
  cases hrow hlevel
  exact ⟨row, by simp⟩

end Represents

/-- What is written are bodies of layouts. -/
theorem ElaboratesAll.exists_layout {defs : List Definition} {names : List String}
    {writes : List (RuleId × Body)} (h : ElaboratesAll defs names writes) :
    ∀ w ∈ writes, ∃ l : Layout, w.2 = l.body := by
  intro w hw
  cases h.isBody w hw with
  | alternatives hrep =>
    obtain ⟨l, rfl, -⟩ := hrep.exists_layout
    exact ⟨l, rfl⟩
  | @repetition q _ id _ hrep =>
    obtain ⟨row, rfl⟩ := hrep.exists_row (by simp)
    exact ⟨q.layout row id, (q.body_layout row id).symm⟩

end EbnfTables
