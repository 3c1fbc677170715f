import EbnfTables.Proofs.Printing.Order
import EbnfTables.Proofs.Printing.Recompilation

/-!
# Printing and compiling again and again

Printing and compiling keeps the rules and changes the ids.  Repeated, it comes to an end: the ids
do not change any more after as many rounds as there are rules.  Main theorem:
`recompilations_stable`.

* `Grammar.Spells g shape` gives the rules of a grammar by names: `shape name` is the body of the
  rule, with names in place of ids.  A grammar is determined by its names and its shape
  (`IsLaidOut.eq_of_spells`);
* compiling the printed lines keeps the shape, and puts the names in the order in which the lines
  show them (`IsLaidOut.exists_recompiled`);
* so the rounds of `Grammar.recompile` are the rounds of `seenOrder`, which end.
-/

namespace EbnfTables

/-! ### Names in spelled bodies -/

/-- The names in a body that is spelled. -/
def spelledNames (body : List (Element ⊕ Option String)) : List String :=
  body.filterMap fun
    | .inl _ => none
    | .inr name? => name?

@[simp] theorem spelledNames_append (body body' : List (Element ⊕ Option String)) :
    spelledNames (body ++ body') = spelledNames body ++ spelledNames body' :=
  List.filterMap_append

theorem spelledNames_map_inl (elements : Body) : spelledNames (elements.map .inl) = [] := by
  rw [spelledNames, List.filterMap_map, List.filterMap_eq_nil_iff]
  exact fun _ _ => rfl

/-- The names in the spelling of a flat expression are those that it refers to. -/
theorem Expr.spelledNames_spelled {level : Level} {e : Expr level} (he : e.IsFlat) :
    spelledNames e.spelled = e.refNames := by
  induction e with
  | literal cs =>
    have h := spelledNames_map_inl (cs.map .char)
    rwa [List.map_map] at h
  | charClass => exact spelledNames_map_inl _
  | ref | nothing => rfl
  | group | repeated => exact he.elim
  | only _ ih => exact ih he
  | snoc _ _ ihfront ihlast =>
    rw [spelled, spelledNames_append, ihfront he.1, ihlast he.2, refNames]
  | orElse _ _ ihearlier ihlast =>
    rw [spelled, spelledNames_append, ihearlier he.1, refNames, ← ihlast he.2]
    rfl

/-! ### The order of the names -/

/-- Names that were seen once are not added again. -/
theorem Interned.eraseDups_append {seen names' : List String} {name : String} {id : RuleId}
    (h : Interned seen.eraseDups name id names') : names' = (seen ++ [name]).eraseDups := by
  rw [h.names_eq, List.eraseDups_append, List.cons_removeAll, List.nil_removeAll]
  by_cases hname : name ∈ seen
  · simp [hname]
  · simp [hname, List.eraseDups_cons]

/-- A flat expression adds the names that it refers to, in their order. -/
theorem Elaborates.names_eq_of_isFlat {base : String} {level : Level} {e : Expr level}
    {names names' : List String} {elements : Body} {writes : List (RuleId × Body)}
    (h : Elaborates base e names elements names' writes) (he : e.IsFlat) {seen : List String}
    (hnames : names = seen.eraseDups) : names' = (seen ++ e.refNames).eraseDups := by
  induction h generalizing seen with
  | literal | charClass | nothing =>
    rw [hnames]
    exact congrArg List.eraseDups (List.append_nil seen).symm
  | ref hid => exact Interned.eraseDups_append (hnames ▸ hid)
  | group | repeated => exact he.elim
  | only _ ih => exact ih he hnames
  | snoc _ _ ihfront ihlast | orElse _ _ ihfront ihlast =>
    rw [Expr.refNames, ← List.append_assoc]
    exact ihlast he.2 (ihfront he.1 hnames)

/-- Flat definitions give out ids in the order in which they show names. -/
theorem ElaboratesAll.names_eq_of_isFlat {defs : List Definition} {names : List String}
    {writes : List (RuleId × Body)} (h : ElaboratesAll defs names writes)
    (hflat : ∀ d ∈ defs, d.body.IsFlat) :
    names = (defs.flatMap fun d => d.name :: d.body.refNames).eraseDups := by
  induction h with
  | nil => rfl
  | snoc _ hid _ hbody ih =>
    rw [List.forall_mem_append, List.forall_mem_singleton] at hflat
    have hmid := Interned.eraseDups_append (ih hflat.1 ▸ hid)
    rw [hbody.names_eq_of_isFlat hflat.2 hmid, List.flatMap_append, List.flatMap_singleton,
      List.append_assoc, List.singleton_append]

/-! ### Grammars by names -/

/-- The rule of each name is spelled as the shape says. -/
def Grammar.Spells (g : Grammar) (shape : String → List (Element ⊕ Option String)) : Prop :=
  ∀ name ∈ g.symbols.names, ∃ id body, g.id? name = some id ∧ g.rule? id = some body ∧
    body.spelled g.symbols = shape name

theorem Grammar.exists_spells (g : Grammar)
    (h : ∀ name ∈ g.symbols.names, ∃ id body, g.id? name = some id ∧ g.rule? id = some body) :
    ∃ shape, g.Spells shape := by
  refine ⟨fun name => (((g.id? name).bind g.rule?).map (Body.spelled g.symbols)).getD [], ?_⟩
  intro name hname
  obtain ⟨id, body, hid, hbody⟩ := h name hname
  exact ⟨id, body, hid, hbody, by simp [hid, hbody]⟩

/-- What is compiled from the printed form of a grammar; the grammar itself if there is nothing. -/
def Grammar.recompile (g : Grammar) : Grammar :=
  match g.print? with
  | none => g
  | some printed =>
    match compile printed with
    | .error _ => g
    | .ok g' => g'

namespace IsLaidOut

variable {g g' : Grammar} {rules rules' : List (String × Layout)}
  {shape : String → List (Element ⊕ Option String)}

theorem exists_spells (h : IsLaidOut g rules) : ∃ shape, g.Spells shape := by
  refine g.exists_spells fun name hname => ?_
  rw [h.names_eq] at hname
  obtain ⟨i, hi, rfl⟩ := List.getElem_of_mem hname
  rw [List.length_map] at hi
  refine ⟨i.toUInt32, _, ?_, h.rule?_eq hi⟩
  rw [List.getElem_map]
  exact (SymbolTable.id?_eq_some_iff h.nodup h.size_le).2 (h.name?_eq hi)

theorem spelled_eq (h : IsLaidOut g rules) (hshape : g.Spells shape) {i : ℕ}
    (hi : i < rules.length) : rules[i].2.body.spelled g.symbols = shape rules[i].1 := by
  have hname : rules[i].1 ∈ g.symbols.names := by
    rw [h.names_eq]
    exact List.mem_map_of_mem (List.getElem_mem hi)
  obtain ⟨id, body, hid, hbody, hspelled⟩ := hshape _ hname
  have hid' : g.id? rules[i].1 = some i.toUInt32 :=
    (SymbolTable.id?_eq_some_iff h.nodup h.size_le).2 (h.name?_eq hi)
  obtain rfl : i.toUInt32 = id := Option.some.inj (hid'.symm.trans hid)
  rw [h.rule?_eq hi, Option.some.injEq] at hbody
  rw [hbody, hspelled]

/-- The names that a printed rule refers to are those in its shape. -/
theorem refNames_eq (h : IsLaidOut g rules) (hshape : g.Spells shape)
    {rule : String × Layout} (hrule : rule ∈ rules) :
    (rule.2.expr g.symbols).refNames = spelledNames (shape rule.1) := by
  obtain ⟨i, hi, rfl⟩ := List.getElem_of_mem hrule
  rw [← h.spelled_eq hshape hi, ← Expr.spelledNames_spelled rules[i].2.isFlat_expr,
    Layout.spelled_expr (h.printable _ hrule).2, Layout.body, Body.spelled_append,
    spelledNames_append]
  exact (List.append_nil _).symm

/-- A grammar is determined by its names and its shape. -/
theorem eq_of_spells (h : IsLaidOut g rules) (h' : IsLaidOut g' rules') (hshape : g.Spells shape)
    (hshape' : g'.Spells shape) (hnames : g.symbols.names = g'.symbols.names) : g = g' := by
  have hsymbols : g.symbols = g'.symbols := congrArg SymbolTable.mk hnames
  have hfst : rules.map Prod.fst = rules'.map Prod.fst := by
    rw [← h.names_eq, ← h'.names_eq, hnames]
  have hbodies : g.rules.bodies = g'.rules.bodies := by
    rw [h.bodies_eq, h'.bodies_eq]
    have hlen : rules.length = rules'.length := by simpa using congrArg List.length hfst
    refine List.ext_getElem (by simpa using hlen) fun i hi hi' => ?_
    rw [List.length_map] at hi hi'
    rw [List.getElem_map, List.getElem_map]
    have hname : rules[i].1 = rules'[i].1 := by
      have hget := List.getElem_of_eq hfst (show i < _ by simpa using hi)
      rwa [List.getElem_map, List.getElem_map] at hget
    have hspelled : rules[i].2.body.spelled g.symbols = rules'[i].2.body.spelled g.symbols := by
      rw [h.spelled_eq hshape hi, hsymbols, h'.spelled_eq hshape' hi', hname]
    refine Body.spelled_inj h.nodup (fun e he hkind => ?_) hspelled
    rcases List.mem_append.1 he with he | he
    · obtain ⟨name, hname, -⟩ := (h.printable _ (List.getElem_mem hi)).2.isNamed e he hkind
      exact (List.getElem?_eq_some_iff.1 hname).1
    · rw [List.mem_singleton.1 he] at hkind
      cases hkind
  exact congrArg₂ Grammar.mk hsymbols (congrArg RuleTable.mk hbodies)

/-- **What is printed compiles to the same shape, and to the names in the order of the lines.** -/
theorem exists_recompiled (h : IsLaidOut g rules) (hshape : g.Spells shape) :
    ∃ rules', (∃ printed, g.print? = some printed ∧ compile printed = .ok g.recompile) ∧
      IsLaidOut g.recompile rules' ∧ g.recompile.Spells shape ∧
      g.recompile.symbols.names =
        seenOrder (fun name => spelledNames (shape name)) g.symbols.names := by
  obtain ⟨writes, g', h', hnames⟩ := h.exists_compilesTo
  have hsize : g'.symbols.size ≤ 2 ^ 32 :=
    ((h'.elaborates.nodup.subperm fun name => (hnames name).1).length_le).trans h.size_le
  obtain ⟨rules', hrules'⟩ := h'.exists_isLaidOut_of_size_le hsize
  have hrecompile : g.recompile = g' := by
    rw [Grammar.recompile, h.print?_eq]
    simp only [h'.compile_eq_ok]
  rw [hrecompile]
  refine ⟨rules', ⟨_, h.print?_eq, h'.compile_eq_ok⟩, hrules', ?_, ?_⟩
  · intro name hname
    have hmem := (hnames name).1 hname
    obtain ⟨id, id', body, body', hid, hbody, hid', hbody', hspelled⟩ :=
      h.exists_spelled_eq h' (fun name => (hnames name).1) hmem
    obtain ⟨id₁, body₁, hid₁, hbody₁, hshape₁⟩ := hshape name hmem
    obtain rfl : id = id₁ := Option.some.inj (hid.symm.trans hid₁)
    obtain rfl : body = body₁ := Option.some.inj (hbody.symm.trans hbody₁)
    exact ⟨id', body', hid', hbody', by rw [← hspelled, hshape₁]⟩
  · rw [h'.elaborates.names_eq_of_isFlat (isFlat rules g.symbols), seenOrder, h.names_eq]
    have hlines : (printedDefinitions g.symbols rules).flatMap (fun d => d.name :: d.body.refNames) =
        (rules.map fun rule => (rule.1, rule.2.expr g.symbols)).flatMap
          fun d => d.1 :: d.2.refNames := by
      rw [← map_printedDefinitions, List.flatMap_map]
    rw [hlines, List.flatMap_map, List.flatMap_map]
    refine congrArg List.eraseDups (List.flatMap_congr fun rule hrule => ?_)
    rw [h.refNames_eq hshape hrule]

/-- The names in the shape of a name are names of the grammar. -/
theorem spelledNames_subset (h : IsLaidOut g rules) (hshape : g.Spells shape) :
    ∀ name ∈ g.symbols.names, spelledNames (shape name) ⊆ g.symbols.names := by
  intro name hname
  rw [h.names_eq] at hname
  obtain ⟨rule, hrule, rfl⟩ := List.mem_map.1 hname
  rw [← h.refNames_eq hshape hrule]
  exact h.refNames_subset hrule

/-- Every round leads to a grammar of the same shape, with the names in the order of that round. -/
theorem iterate_recompile (h : IsLaidOut g rules) (hshape : g.Spells shape) (k : ℕ) :
    ∃ rules', IsLaidOut (Grammar.recompile^[k] g) rules' ∧
      (Grammar.recompile^[k] g).Spells shape ∧ (Grammar.recompile^[k] g).symbols.names =
        (seenOrder fun name => spelledNames (shape name))^[k] g.symbols.names := by
  induction k with
  | zero => exact ⟨rules, h, hshape, rfl⟩
  | succ k ih =>
    obtain ⟨rules', h', hshape', hnames⟩ := ih
    obtain ⟨rules'', -, h'', hshape'', hnames'⟩ := h'.exists_recompiled hshape'
    rw [Function.iterate_succ_apply', Function.iterate_succ_apply', ← hnames]
    exact ⟨rules'', h'', hshape'', hnames'⟩

end IsLaidOut

/-! ### The main theorem -/

/-- The rounds that are run are those of `Grammar.recompile`, as long as none fails. -/
theorem recompilations_eq {source : String} {g : Grammar} (hok : compile source = .ok g)
    (hrounds : ∀ k, ∃ printed, (Grammar.recompile^[k] g).print? = some printed ∧
      compile printed = .ok (Grammar.recompile^[k + 1] g)) (n : ℕ) :
    recompilations n source = (List.range (n + 1)).map fun k => .ok (Grammar.recompile^[k] g) := by
  induction n generalizing source g with
  | zero =>
    rw [recompilations, hok]
    rfl
  | succ n ih =>
    obtain ⟨printed, hprint, hnext⟩ := hrounds 0
    rw [Function.iterate_zero_apply] at hprint
    have hmore := ih hnext fun k => hrounds (k + 1)
    rw [recompilations, hok]
    simp only [hprint, hmore]
    have hrange : List.range (n + 1 + 1) = 0 :: (List.range (n + 1)).map Nat.succ :=
      List.range_succ_eq_map
    rw [hrange, List.map_cons, List.map_map]
    rfl

/-- **Printing and compiling again and again never fails, and gives the same grammar from the round
on whose number is that of the rules, less one.** -/
theorem recompilations_stable (source : String) (g₀ : Grammar) (hlen : source.length < 2 ^ 32)
    (hok : compile source = .ok g₀) :
    ∃ g : ℕ → Grammar, g 0 = g₀ ∧
      (∀ k, ∃ printed, (g k).print? = some printed ∧ compile printed = .ok (g (k + 1))) ∧
      (∀ k, g₀.size ≤ k + 1 → g (k + 1) = g k) ∧
      ∀ n, recompilations n source = (List.range (n + 1)).map fun k => .ok (g k) := by
  obtain ⟨defs, writes, h⟩ := exists_compilesTo hlen hok
  obtain ⟨rules, hrules⟩ := h.exists_isLaidOut hlen
  obtain ⟨shape, hshape⟩ := hrules.exists_spells
  have hrounds (k : ℕ) : ∃ printed, (Grammar.recompile^[k] g₀).print? = some printed ∧
      compile printed = .ok (Grammar.recompile^[k + 1] g₀) := by
    obtain ⟨rules', hrules', hshape', -⟩ := hrules.iterate_recompile hshape k
    obtain ⟨rules'', hnext, -⟩ := hrules'.exists_recompiled hshape'
    rwa [Function.iterate_succ_apply']
  refine ⟨fun k => Grammar.recompile^[k] g₀, rfl, hrounds, ?_, recompilations_eq hok hrounds⟩
  intro k hk
  obtain ⟨rules', hrules', hshape', hnames⟩ := hrules.iterate_recompile hshape k
  obtain ⟨rules'', hrules'', hshape'', hnames'⟩ := hrules.iterate_recompile hshape (k + 1)
  refine hrules''.eq_of_spells hrules' hshape'' hshape' ?_
  rw [hnames, hnames']
  refine iterate_seenOrder_eq hrules.nodup (hrules.spelledNames_subset hshape) ?_
  have hsize := h.size_eq hlen
  rw [SymbolTable.size] at hsize
  omega

/-- Four rules that refer to each other from the last line up.  Their ids change in the first round,
and are the same from the third round on at the latest. -/
theorem recompilations_stable_four_rules :
    ∃ g₀, compile "r ::= d\nb ::= [x]\nc ::= b | \"\"\nd ::= c" = .ok g₀ ∧ g₀.size = 4 ∧
      ∃ g : ℕ → Grammar, g 0 = g₀ ∧ g 1 ≠ g 0 ∧ ∀ k, 3 ≤ k → g (k + 1) = g k := by
  have hok : compile "r ::= d\nb ::= [x]\nc ::= b | \"\"\nd ::= c" =
      .ok ⟨⟨["r", "d", "b", "c"]⟩, ⟨[
        [.ruleRef 1, .stop],
        [.ruleRef 3, .stop],
        [.char 'x', .stop],
        [.ruleRef 2, .alt, .stop]]⟩⟩ := by decide +kernel
  obtain ⟨g, hzero, hrounds, hstable, -⟩ :=
    recompilations_stable _ _ (by decide +kernel) hok
  refine ⟨_, hok, rfl, g, hzero, fun heq => ?_, fun k hk => hstable k ?_⟩
  · -- the printed lines are compiled to other ids
    obtain ⟨printed, hprint, hnext⟩ := hrounds 0
    rw [heq, hzero] at hnext
    rw [hzero] at hprint
    have hprinted : some printed =
        some "r ::= d\nd ::= c\nb ::= [x]\nc ::= b | \"\"\n" := by
      rw [← hprint]
      decide +kernel
    obtain rfl := Option.some.inj hprinted
    revert hnext
    decide +kernel
  · exact Nat.succ_le_succ hk

end EbnfTables
