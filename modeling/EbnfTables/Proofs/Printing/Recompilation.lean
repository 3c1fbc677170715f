import EbnfTables.Proofs.Printing.Flat
import EbnfTables.Proofs.Printing.Source
import EbnfTables.Proofs.Tables.WellFormed
import Mathlib.Data.Set.List

/-!
# Printing and compiling again

A compiled grammar is printed, and what is printed compiles to the same grammar, except that the ids
are given out in another order.  Main theorem: `print_compile`.

* The rules of a compiled grammar are laid out: `IsLaidOut` collects what printing and compiling
  again need to know of it (`CompilesTo.exists_isLaidOut`);
* the printed lines are flat definitions of all its names, so they compile and generate nothing
  (`IsLaidOut.exists_compilesTo`);
* names in place of ids, the bodies are those of the grammar that was printed, because the printed
  trees are spelled as the layouts are (`Layout.spelled_expr`).

Since a text is a source in one way only, it can be printed from one grammar only
(`IsLaidOut.eq_of_rulesText_eq`).
-/

namespace EbnfTables

/-! ### Printed trees -/

section Trees

variable {symbols : SymbolTable}

theorem Piece.isFlat_expr (p : Piece) : (p.expr symbols).IsFlat := by
  cases p <;> trivial

theorem Expr.isFlat_foldl_snoc {items : List (Expr .item)} (h : ∀ e ∈ items, e.IsFlat)
    {front : Expr .sequence} (hfront : front.IsFlat) : (items.foldl .snoc front).IsFlat := by
  induction items generalizing front with
  | nil => exact hfront
  | cons e items ih =>
    obtain ⟨he, hitems⟩ := List.forall_mem_cons.1 h
    exact ih hitems ⟨hfront, he⟩

theorem Row.isFlat_expr (row : Row) : (row.expr symbols).IsFlat := by
  refine Expr.isFlat_foldl_snoc ?_ trivial
  unfold items
  split
  · intro e he
    obtain rfl := List.mem_singleton.1 he
    trivial
  · intro e he
    obtain ⟨p, -, rfl⟩ := List.mem_map.1 he
    exact p.isFlat_expr

/-- Printed trees are flat. -/
theorem Layout.isFlat_expr (l : Layout) : (l.expr symbols).IsFlat := by
  have hfold (rows : List Row) (e : Expr .alternatives) (he : e.IsFlat) :
      (rows.foldl (fun e row => .orElse e (row.expr symbols)) e).IsFlat := by
    induction rows generalizing e with
    | nil => exact he
    | cons row rows ih => exact ih _ ⟨he, row.isFlat_expr⟩
  exact hfold _ _ l.first.isFlat_expr

theorem Expr.spelled_foldl_snoc (items : List (Expr .item)) (front : Expr .sequence) :
    (items.foldl .snoc front).spelled = front.spelled ++ items.flatMap Expr.spelled := by
  induction items generalizing front with
  | nil => simp
  | cons e items ih => rw [List.foldl_cons, ih, List.flatMap_cons, spelled, List.append_assoc]

theorem Piece.spelled_expr {p : Piece} (hp : Body.IsNamed symbols p.elements) :
    (p.expr symbols).spelled = Body.spelled symbols p.elements := by
  cases p with
  | ref id =>
    obtain ⟨name, hname, -⟩ := hp (.ruleRef id) List.mem_cons_self rfl
    have hnameOf : symbols.nameOf id = name := SymbolTable.nameOf_eq hname
    rw [expr, Expr.spelled, hnameOf]
    exact congrArg (fun name? => [Sum.inr name?]) hname.symm
  | run negated m ms => exact (Body.spelled_classElements symbols negated (m :: ms)).symm

theorem Row.spelled_expr {row : Row} (hrow : Body.IsNamed symbols row.elements) :
    (row.expr symbols).spelled = Body.spelled symbols row.elements := by
  have hpieces : (row.map (Piece.expr symbols)).flatMap Expr.spelled =
      Body.spelled symbols row.elements := by
    induction row with
    | nil => rfl
    | cons p row ih =>
      rw [elements_cons] at hrow
      have hp := hrow.mono (List.subset_append_left _ _)
      have hrow' := hrow.mono (List.subset_append_right _ _)
      rw [List.map_cons, List.flatMap_cons, elements_cons, Body.spelled_append,
        Piece.spelled_expr hp, ih hrow']
  rw [expr, Expr.spelled_foldl_snoc, ← hpieces, items]
  cases row <;> rfl

/-- Printed trees are spelled as the layouts are. -/
theorem Layout.spelled_expr {l : Layout} (hl : l.IsPrintable symbols) :
    (l.expr symbols).spelled = Body.spelled symbols l.elements := by
  have hfold (rows : List Row) (hrows : ∀ row ∈ rows, Body.IsNamed symbols (Row.elements row))
      (e : Expr .alternatives) :
      (rows.foldl (fun e row => .orElse e (row.expr symbols)) e).spelled =
        e.spelled ++ Body.spelled symbols (rows.flatMap fun row => .alt :: row.elements) := by
    induction rows generalizing e with
    | nil => exact (List.append_nil _).symm
    | cons row rows ih =>
      obtain ⟨hrow, hrows⟩ := List.forall_mem_cons.1 hrows
      rw [List.foldl_cons, ih hrows, Expr.spelled, Row.spelled_expr hrow, List.flatMap_cons,
        Body.spelled_append, List.append_assoc]
      rfl
  obtain ⟨hrow, hrows⟩ := List.forall_mem_cons.1 fun row hrow => hl.isNamed_row hrow
  rw [expr, hfold _ hrows, elements, Body.spelled_append, Expr.spelled, Row.spelled_expr hrow]

/-- If no name is given twice, layouts that are printed as the same tree have the same body. -/
theorem Layout.body_eq_of_expr_eq (hn : symbols.names.Nodup) {l l' : Layout}
    (hl : l.IsPrintable symbols) (hl' : l'.IsPrintable symbols)
    (h : l.expr symbols = l'.expr symbols) : l.body = l'.body := by
  have hspelled : Body.spelled symbols l.elements = Body.spelled symbols l'.elements := by
    rw [← spelled_expr hl, h, spelled_expr hl']
  have hnamed : ∀ e ∈ l.elements, e.kind = .ruleRef → e.value.toNat < symbols.size := by
    intro e he hkind
    obtain ⟨name, hname, -⟩ := hl.isNamed e he hkind
    exact (List.getElem?_eq_some_iff.1 hname).1
  rw [body, Body.spelled_inj hn hnamed hspelled, body]

end Trees

/-- The printed definitions have the names of the rules, and the trees of the layouts. -/
theorem map_printedDefinitions (symbols : SymbolTable) (rules : List (String × Layout)) :
    (printedDefinitions symbols rules).map (fun d => (d.name, d.body)) =
      rules.map fun rule => (rule.1, rule.2.expr symbols) := by
  induction rules with
  | nil => rfl
  | cons rule rules ih => rw [printedDefinitions, List.map_cons, List.map_cons, ih]

theorem map_name_printedDefinitions (symbols : SymbolTable) (rules : List (String × Layout)) :
    (printedDefinitions symbols rules).map Definition.name = rules.map Prod.fst := by
  have h := congrArg (List.map Prod.fst) (map_printedDefinitions symbols rules)
  rw [List.map_map, List.map_map] at h
  exact h

theorem exists_rule_of_mem_printedDefinitions {symbols : SymbolTable}
    {rules : List (String × Layout)} {d : Definition} (hd : d ∈ printedDefinitions symbols rules) :
    ∃ rule ∈ rules, rule.1 = d.name ∧ rule.2.expr symbols = d.body := by
  have hmem := List.mem_map_of_mem (f := fun d : Definition => (d.name, d.body)) hd
  rw [map_printedDefinitions] at hmem
  obtain ⟨rule, hrule, heq⟩ := List.mem_map.1 hmem
  exact ⟨rule, hrule, Prod.mk.inj heq⟩

theorem exists_mem_printedDefinitions {symbols : SymbolTable} {rules : List (String × Layout)}
    {rule : String × Layout} (hrule : rule ∈ rules) :
    ∃ d ∈ printedDefinitions symbols rules, d.name = rule.1 ∧ d.body = rule.2.expr symbols := by
  have hmem := List.mem_map_of_mem (f := fun r : String × Layout => (r.1, r.2.expr symbols)) hrule
  rw [← map_printedDefinitions] at hmem
  obtain ⟨d, hd, heq⟩ := List.mem_map.1 hmem
  exact ⟨d, hd, Prod.mk.inj heq⟩

/-! ### Grammars that are laid out -/

/-- The rules of the grammar, in the order of their ids, have the given names and layouts. -/
structure IsLaidOut (g : Grammar) (rules : List (String × Layout)) : Prop where
  ne_nil : rules ≠ []
  names_eq : g.symbols.names = rules.map Prod.fst
  bodies_eq : g.rules.bodies = rules.map fun rule => rule.2.body
  size_le : g.symbols.size ≤ 2 ^ 32
  nodup : g.symbols.names.Nodup
  printable : ∀ rule ∈ rules, IsWord rule.1 ∧ rule.2.IsPrintable g.symbols

/-- The layouts of compiled bodies can be printed. -/
theorem CompilesTo.isPrintable {options : CompileOptions} {source : String}
    {defs : List Definition} {writes : List (RuleId × Body)} {g : Grammar}
    (h : CompilesTo options source defs writes g) {id : RuleId} {l : Layout}
    (hw : (id, l.body) ∈ writes) : l.IsPrintable g.symbols := by
  have hsound := h.sourceText.isSound
  constructor
  · have hlen := h.elaborates.two_le_length hsound _ hw
    rintro helements
    rw [Layout.body, helements] at hlen
    simp at hlen
  · intro e he hkind
    have hmem : e ∈ l.body := List.mem_append_left _ he
    have hlt := h.mem_writes_iff.1 (h.closed _ hw e hmem hkind)
    refine ⟨_, List.getElem?_eq_getElem hlt, ?_⟩
    exact h.elaborates.isWord hsound _ (List.getElem_mem hlt)

/-- Compiled grammars are laid out, as long as the ids suffice for the names. -/
theorem CompilesTo.exists_isLaidOut_of_size_le {options : CompileOptions} {source : String}
    {defs : List Definition} {writes : List (RuleId × Body)} {g : Grammar}
    (h : CompilesTo options source defs writes g) (hle : g.symbols.size ≤ 2 ^ 32) :
    ∃ rules, IsLaidOut g rules := by
  have hsize : g.symbols.names.length = g.rules.bodies.length := h.size_eq_of_size_le hle
  obtain ⟨ls, hls⟩ : ∃ ls : List Layout, ls.map Layout.body = g.rules.bodies := by
    have hrange : g.rules.bodies ∈ Set.range (List.map Layout.body) := by
      rw [Set.range_list_map]
      intro body hbody
      obtain ⟨id, hw⟩ := h.exists_mem_of_mem_bodies_of_size_le hle hbody
      obtain ⟨l, hl⟩ := h.elaborates.exists_layout _ hw
      exact ⟨l, hl.symm⟩
    exact hrange
  have hlength : ls.length = g.symbols.names.length := by
    rw [hsize, ← hls, List.length_map]
  refine ⟨g.symbols.names.zip ls, ?_, ?_, ?_, hle, h.elaborates.nodup, ?_⟩
  · have hpos := h.size_pos
    rw [SymbolTable.size] at hpos
    rw [← List.length_pos_iff, List.length_zip]
    omega
  · exact (List.map_fst_zip hlength.ge).symm
  · have hzip : (g.symbols.names.zip ls).map Prod.snd = ls := List.map_snd_zip hlength.le
    rw [← hls]
    conv_lhs => rw [← hzip, List.map_map]
    rfl
  · rintro ⟨name, l⟩ hrule
    obtain ⟨hname, hl⟩ := List.of_mem_zip hrule
    have hbody : l.body ∈ g.rules.bodies := hls ▸ List.mem_map_of_mem hl
    obtain ⟨id, hw⟩ := h.exists_mem_of_mem_bodies_of_size_le hle hbody
    exact ⟨h.elaborates.isWord h.sourceText.isSound name hname, h.isPrintable hw⟩

theorem CompilesTo.exists_isLaidOut {options : CompileOptions} {source : String}
    {defs : List Definition} {writes : List (RuleId × Body)} {g : Grammar}
    (h : CompilesTo options source defs writes g) (hlen : source.length < 2 ^ 32) :
    ∃ rules, IsLaidOut g rules :=
  h.exists_isLaidOut_of_size_le (h.size_symbols_le hlen)

namespace IsLaidOut

variable {g : Grammar} {rules : List (String × Layout)}

/-- The places of the rules are ids. -/
theorem toNat_toUInt32 (h : IsLaidOut g rules) {i : ℕ} (hi : i < rules.length) :
    i.toUInt32.toNat = i := by
  have hsize := h.size_le
  rw [SymbolTable.size, h.names_eq, List.length_map] at hsize
  exact toNat_toUInt32_of_lt (by omega)

theorem name?_eq (h : IsLaidOut g rules) {i : ℕ} (hi : i < rules.length) :
    g.symbols.name? i.toUInt32 = some rules[i].1 := by
  rw [SymbolTable.name?, h.toNat_toUInt32 hi, h.names_eq, List.getElem?_map,
    List.getElem?_eq_getElem hi]
  rfl

theorem rule?_eq (h : IsLaidOut g rules) {i : ℕ} (hi : i < rules.length) :
    g.rule? i.toUInt32 = some rules[i].2.body := by
  have hslot : g.rules.slot i.toUInt32 = rules[i].2.body := by
    rw [RuleTable.slot, h.toNat_toUInt32 hi, h.bodies_eq, List.getD_eq_getElem?_getD,
      List.getElem?_map, List.getElem?_eq_getElem hi]
    rfl
  have hdefined : g.rules.isDefined i.toUInt32 := by
    rw [RuleTable.isDefined, hslot]
    simp [Layout.body]
  rw [Grammar.rule?, RuleTable.body?, if_pos hdefined, hslot]

/-- What is printed are the lines of the rules. -/
theorem print?_eq (h : IsLaidOut g rules) :
    g.print? = some (String.ofList (rulesText g.symbols rules)) := by
  have hrules : printRules? g.symbols 0 g.rules.bodies = some (rulesText g.symbols rules) := by
    rw [h.bodies_eq]
    refine printRules?_eq g.symbols fun i hi => ?_
    rw [Nat.zero_add]
    exact SymbolTable.nameOf_eq (h.name?_eq hi)
  rw [Grammar.print?, hrules]
  rfl

theorem sourceText (h : IsLaidOut g rules) (limit : ℕ) :
    SourceText limit (printedDefinitions g.symbols rules)
      (String.ofList (rulesText g.symbols rules)).toList := by
  rw [String.toList_ofList]
  exact sourceText_rulesText limit h.ne_nil h.printable

/-- The names in a printed layout are names of the grammar. -/
theorem refNames_subset (h : IsLaidOut g rules) {rule : String × Layout} (hrule : rule ∈ rules) :
    (rule.2.expr g.symbols).refNames ⊆ g.symbols.names := by
  intro name hname
  have hmem := (Expr.inr_mem_spelled_iff rule.2.isFlat_expr).2 ⟨name, hname, rfl⟩
  rw [Layout.spelled_expr (h.printable rule hrule).2] at hmem
  obtain ⟨e, -, he⟩ := List.mem_map.1 hmem
  unfold Element.spelled at he
  split at he
  · exact List.mem_of_getElem? (Sum.inr.inj he)
  · cases he

theorem isFlat (rules : List (String × Layout)) (symbols : SymbolTable) :
    ∀ d ∈ printedDefinitions symbols rules, d.body.IsFlat := by
  intro d hd
  obtain ⟨rule, -, -, hbody⟩ := exists_rule_of_mem_printedDefinitions hd
  rw [← hbody]
  exact rule.2.isFlat_expr

/-- The printed lines compile, and to the same names. -/
theorem exists_compilesTo (h : IsLaidOut g rules) : ∃ writes g',
    CompilesTo {} (String.ofList (rulesText g.symbols rules)) (printedDefinitions g.symbols rules)
      writes g' ∧ ∀ name, name ∈ g'.symbols.names ↔ name ∈ g.symbols.names := by
  have hnames : (printedDefinitions g.symbols rules).map Definition.name = g.symbols.names := by
    rw [map_name_printedDefinitions, h.names_eq]
  have hname : ∀ d ∈ printedDefinitions g.symbols rules, d.name ∈ g.symbols.names := by
    intro d hd
    rw [← hnames]
    exact List.mem_map_of_mem hd
  have href : ∀ d ∈ printedDefinitions g.symbols rules, d.body.refNames ⊆ g.symbols.names := by
    intro d hd
    obtain ⟨rule, hrule, -, hbody⟩ := exists_rule_of_mem_printedDefinitions hd
    rw [← hbody]
    exact h.refNames_subset hrule
  obtain ⟨names, writes, hall, hsub, hwrites⟩ := exists_elaboratesAll_of_isFlat h.size_le
    (isFlat rules g.symbols) (hnames ▸ h.nodup) hname href
  have hholds : (RuleTable.empty.defineAll writes).Holds writes :=
    RuleTable.holds_empty.defineAll hall.nodup_writes
  -- every name has a line of its own, so no reference lacks a definition
  have hdefined : ∀ name ∈ g.symbols.names, ∃ d ∈ printedDefinitions g.symbols rules,
      d.name = name := by
    intro name hmem
    rw [← hnames] at hmem
    exact List.mem_map.1 hmem
  have hclosed : Closed writes := hall.closed_of_isFlat (isFlat rules g.symbols)
    (fun d hd name hmem => hdefined name (href d hd hmem)) hwrites
  refine ⟨writes, ⟨⟨names⟩, RuleTable.empty.defineAll writes⟩,
    ⟨h.sourceText _, hall, hholds, hclosed, by simp⟩, fun name => ⟨fun hmem => hsub hmem, ?_⟩⟩
  intro hmem
  obtain ⟨d, hd, rfl⟩ := hdefined name hmem
  exact hall.name_mem d hd

/-- Names in place of ids, the bodies are the same in the two grammars. -/
theorem exists_spelled_eq (h : IsLaidOut g rules) {source : String} {options : CompileOptions}
    {writes : List (RuleId × Body)} {g' : Grammar}
    (h' : CompilesTo options source (printedDefinitions g.symbols rules) writes g')
    (hsub : g'.symbols.names ⊆ g.symbols.names) {name : String} (hname : name ∈ g.symbols.names) :
    ∃ id id' body body', g.id? name = some id ∧ g.rule? id = some body ∧
      g'.id? name = some id' ∧ g'.rule? id' = some body' ∧
      body.spelled g.symbols = body'.spelled g'.symbols := by
  have hsize' : g'.symbols.size ≤ 2 ^ 32 :=
    ((h'.elaborates.nodup.subperm hsub).length_le).trans h.size_le
  rw [h.names_eq] at hname
  obtain ⟨i, hi, rfl⟩ := List.getElem_of_mem hname
  rw [List.length_map] at hi
  rw [List.getElem_map]
  obtain ⟨d, hd, hdname, hdbody⟩ := exists_mem_printedDefinitions (List.getElem_mem hi)
  obtain ⟨id', elements, hrep⟩ := h'.elaborates.exists_represents d hd
  have hspelled := hrep.represents.spelled_eq (hdbody ▸ rules[i].2.isFlat_expr)
  rw [hdbody, Layout.spelled_expr (h.printable _ (List.getElem_mem hi)).2] at hspelled
  refine ⟨i.toUInt32, id', rules[i].2.body, elements ++ [.stop], ?_, h.rule?_eq hi, ?_, ?_, ?_⟩
  · exact (SymbolTable.id?_eq_some_iff h.nodup h.size_le).2 (h.name?_eq hi)
  · refine (SymbolTable.id?_eq_some_iff h'.elaborates.nodup hsize').2 ?_
    rw [← hdname]
    exact hrep.name
  · exact h'.rule?_eq_some_iff.2 hrep.body
  · rw [Layout.body, Body.spelled_append, Body.spelled_append, ← hspelled]
    rfl

/-- A text is printed from one grammar only. -/
theorem eq_of_rulesText_eq (h : IsLaidOut g rules) {g' : Grammar}
    {rules' : List (String × Layout)} (h' : IsLaidOut g' rules')
    (heq : rulesText g.symbols rules = rulesText g'.symbols rules') : g = g' := by
  have hsource := h.sourceText 0
  rw [heq] at hsource
  -- the text is read in one way only, so the definitions are the same
  have hdefs := hsource.unique (h'.sourceText 0)
  have hnames : g.symbols.names = g'.symbols.names := by
    rw [h.names_eq, h'.names_eq, ← map_name_printedDefinitions g.symbols, hdefs,
      map_name_printedDefinitions]
  have hsymbols : g.symbols = g'.symbols := congrArg SymbolTable.mk hnames
  have hexprs : rules.map (fun rule => (rule.1, rule.2.expr g.symbols)) =
      rules'.map fun rule => (rule.1, rule.2.expr g.symbols) := by
    rw [← map_printedDefinitions, hdefs, map_printedDefinitions, hsymbols]
  have hbodies : g.rules.bodies = g'.rules.bodies := by
    rw [h.bodies_eq, h'.bodies_eq]
    have hlen : rules.length = rules'.length := by simpa using congrArg List.length hexprs
    refine List.ext_getElem (by simpa using hlen) fun i hi hi' => ?_
    rw [List.length_map] at hi hi'
    rw [List.getElem_map, List.getElem_map]
    have hexpr : rules[i].2.expr g.symbols = rules'[i].2.expr g.symbols := by
      have hget := List.getElem_of_eq hexprs (show i < _ by simpa using hi)
      rw [List.getElem_map, List.getElem_map] at hget
      exact congrArg Prod.snd hget
    refine Layout.body_eq_of_expr_eq h.nodup (h.printable _ (List.getElem_mem hi)).2 ?_ hexpr
    rw [hsymbols]
    exact (h'.printable _ (List.getElem_mem hi')).2
  exact congrArg₂ Grammar.mk hsymbols (congrArg RuleTable.mk hbodies)

/-- Grammars agree only if they are equal, and they are equal if they are printed alike. -/
theorem agrees_iff {g' : Grammar} {rules' : List (String × Layout)} (h' : IsLaidOut g' rules') :
    g.agrees g' = true ↔ g = g' := by
  obtain ⟨symbols, rules⟩ := g
  obtain ⟨symbols', rules'⟩ := g'
  rw [Grammar.agrees, Bool.and_eq_true, SymbolTable.agrees_iff h'.nodup h'.size_le, beq_iff_eq,
    Grammar.mk.injEq]

theorem print?_eq_iff (h : IsLaidOut g rules) {g' : Grammar} {rules' : List (String × Layout)}
    (h' : IsLaidOut g' rules') : g.print? = g'.print? ↔ g = g' := by
  refine ⟨fun heq => ?_, fun heq => by rw [heq]⟩
  rw [h.print?_eq, h'.print?_eq, Option.some.injEq, String.ofList_inj] at heq
  exact h.eq_of_rulesText_eq h' heq

end IsLaidOut

/-- **A compiled grammar can be printed, and what is printed compiles to the same grammar up to the
order of the ids**: it has the same names, nothing is generated, and the bodies of each name are the
same with names in place of ids.  Two compiled grammars are printed alike only if they are equal. -/
theorem print_compile (source : String) (options : CompileOptions) (g : Grammar)
    (hlen : source.length < 2 ^ 32) (hok : compile source options = .ok g) :
    (∃ printed g', g.print? = some printed ∧ compile printed = .ok g' ∧
      (∀ name, name ∈ g'.symbols.names ↔ name ∈ g.symbols.names) ∧
      (∀ name id, .allocated name id ∉ (run {} printed).events) ∧
      ∀ name ∈ g.symbols.names, ∃ id id' body body', g.id? name = some id ∧
        g.rule? id = some body ∧ g'.id? name = some id' ∧ g'.rule? id' = some body' ∧
          body.spelled g.symbols = body'.spelled g'.symbols) ∧
    ∀ source' options' g', source'.length < 2 ^ 32 → compile source' options' = .ok g' →
      (g.print? = g'.print? ↔ g.agrees g' = true) ∧ (g.agrees g' = true ↔ g = g') := by
  obtain ⟨defs, writes, h⟩ := exists_compilesTo hlen hok
  obtain ⟨rules, hrules⟩ := h.exists_isLaidOut hlen
  constructor
  · obtain ⟨writes', g', h', hnames⟩ := hrules.exists_compilesTo
    refine ⟨_, g', hrules.print?_eq, h'.compile_eq_ok, hnames, ?_, ?_⟩
    · exact allocated_notMem_run h'.sourceText (IsLaidOut.isFlat rules g.symbols)
    · intro name hname
      exact hrules.exists_spelled_eq h' (fun name => (hnames name).1) hname
  · intro source' options' g' hlen' hok'
    obtain ⟨defs', writes', h'⟩ := exists_compilesTo hlen' hok'
    obtain ⟨rules', hrules'⟩ := h'.exists_isLaidOut hlen'
    rw [hrules.print?_eq_iff hrules', IsLaidOut.agrees_iff hrules']
    exact ⟨Iff.rfl, Iff.rfl⟩

/-- A grammar with generated rules, and the grammar of its printed form.  They have the same rules,
but not the same ids, and so they are not printed alike. -/
theorem print_compile_group_and_range :
    ∃ g g₂, compile "a ::= (\"x\" | b)*\nb ::= [^a-c]?" = .ok g ∧
      compile ("a ::= a_3\na_1 ::= [x] | b\nb ::= b_4\na_3 ::= a_1 a_3 | \"\"\n" ++
        "b_4 ::= [^a-c] | \"\"\n") = .ok g₂ ∧
      (∃ printed g', g.print? = some printed ∧ compile printed = .ok g' ∧
        ∀ name, name ∈ g'.symbols.names ↔ name ∈ g.symbols.names) ∧ g.print? ≠ g₂.print? := by
  have hok : compile "a ::= (\"x\" | b)*\nb ::= [^a-c]?" =
      .ok ⟨⟨["a", "a_1", "b", "a_3", "b_4"]⟩, ⟨[
        [.ruleRef 3, .stop],
        [.char 'x', .alt, .ruleRef 2, .stop],
        [.ruleRef 4, .stop],
        [.ruleRef 1, .ruleRef 3, .alt, .stop],
        [⟨.charNot, 97⟩, ⟨.rangeUpper, 99⟩, .alt, .stop]]⟩⟩ := by decide +kernel
  have hok₂ : compile ("a ::= a_3\na_1 ::= [x] | b\nb ::= b_4\na_3 ::= a_1 a_3 | \"\"\n" ++
      "b_4 ::= [^a-c] | \"\"\n") =
      .ok ⟨⟨["a", "a_3", "a_1", "b", "b_4"]⟩, ⟨[
        [.ruleRef 1, .stop],
        [.ruleRef 2, .ruleRef 1, .alt, .stop],
        [.char 'x', .alt, .ruleRef 3, .stop],
        [.ruleRef 4, .stop],
        [⟨.charNot, 97⟩, ⟨.rangeUpper, 99⟩, .alt, .stop]]⟩⟩ := by decide +kernel
  obtain ⟨⟨printed, g', hprint, hcompile, hnames, -⟩, hother⟩ :=
    print_compile _ _ _ (by decide +kernel) hok
  refine ⟨_, _, hok, hok₂, ⟨printed, g', hprint, hcompile, hnames⟩, ?_⟩
  rw [ne_eq, (hother _ _ _ (by decide +kernel) hok₂).1]
  decide +kernel

end EbnfTables
