import EbnfTables.Proofs.Tables.WellFormed

/-!
# What references denote

A name that a source refers to may be the name of a definition, or the name of a rule that was
generated.

* The log of the builder notes just the generated rules: `Elaborates.mem_events_iff` for an
  expression, and for a row of definitions `ElaboratesAll.mem_events_iff`.  A generated name is never
  the name of a definition;
* what a row of definitions leads to is there after the first of them already, up to what the others
  define and generate (`ElaboratesAll.exists_front`).

Main theorem: `defined_or_generated_of_mem_refNames`.  In a source that compiles, a name that is
referred to is defined, or it is the name of a rule that was generated up to the end of the
definition in which it is referred to.  The second case does arise: generated names avoid the names
that were written before them and not those that are written later
(`not_forall_refNames_defined`).
-/

namespace EbnfTables

/-- The note about a generated rule has its id and its name. -/
theorem Generated.getElem?_eq {names names' : List String} {base : String} {id : RuleId}
    (h : Generated names base id names') :
    SymbolTable.nextId ⟨names⟩ = id ∧
      names'[id.toNat]? = some (SymbolTable.freshName ⟨names⟩ base) := by
  obtain ⟨hid, hnames⟩ := Prod.mk.inj (Generated.fresh_eq (t := ⟨names⟩) h)
  have hnames' : names ++ [SymbolTable.freshName ⟨names⟩ base] = names' :=
    SymbolTable.mk.inj hnames
  refine ⟨hid, ?_⟩
  rw [h.toNat_id, ← hnames']
  exact List.getElem?_concat_length

/-! ### The log -/

section Names

variable {names names' : List String} {ids ids' : List RuleId} {name name' : String}
  {id k : RuleId}

/-- The names of ids that were given out first are known when the others are. -/
theorem mem_append_and_name_iff (hnames : names <+: names')
    (hids : ∀ k ∈ ids, k.toNat < names.length) :
    k ∈ ids ++ ids' ∧ names'[k.toNat]? = some name ↔
      (k ∈ ids ∧ names[k.toNat]? = some name) ∨ k ∈ ids' ∧ names'[k.toNat]? = some name := by
  rw [List.mem_append, or_and_right]
  refine or_congr_left (and_congr_right fun hk => ?_)
  rw [getElem?_eq_of_isPrefix hnames (hids k hk)]

theorem mem_singleton_and_name_iff (hid : names[id.toNat]? = some name') :
    k ∈ [id] ∧ names[k.toNat]? = some name ↔ name = name' ∧ k = id := by
  rw [List.mem_singleton, and_comm]
  refine and_congr_left fun hk => ?_
  rw [hk, hid, Option.some.injEq, eq_comm]

end Names

/-- The log of an expression notes the rules that are generated for it. -/
theorem Elaborates.mem_events_iff {base : String} {level : Level} {e : Expr level}
    {names names' : List String} {elements : Body} {writes : List (RuleId × Body)}
    (h : Elaborates base e names elements names' writes) (rules : RuleTable) (events : List Event)
    {name : String} {k : RuleId} :
    .allocated name k ∈ (e.build base ⟨⟨names⟩, rules, events⟩).2.events ↔
      .allocated name k ∈ events ∨
        k ∈ writes.map Prod.fst ∧ names'[k.toNat]? = some name := by
  induction h generalizing rules events with
  | literal | charClass | nothing => simp [Expr.build]
  | ref => simp [Expr.build, Builder.intern]
  | @group body id names mid names' elements writes hid hbody ih =>
    obtain ⟨hnext, hfresh⟩ := hid.getElem?_eq
    have hname := getElem?_eq_some_of_isPrefix hbody.isPrefix hfresh
    have hbuild := ih rules
      (events ++ [.allocated (SymbolTable.freshName ⟨names⟩ base) (SymbolTable.nextId ⟨names⟩)])
    simp only [Expr.build, Builder.fresh, Builder.log, Builder.define,
      Generated.fresh_eq (t := ⟨names⟩) hid] at hbuild ⊢
    rw [hbuild, hnext, map_fst_concat, List.mem_append, List.mem_singleton,
      Event.allocated.injEq, List.mem_append, or_and_right, mem_singleton_and_name_iff hname,
      or_right_comm, or_assoc]
  | @repeated q operand id names mid names' elements writes hoperand hid ih =>
    obtain ⟨hnext, hname⟩ := hid.getElem?_eq
    obtain ⟨events', hbuild⟩ := hoperand.build_eq rules events
    have hlog := ih rules events
    rw [hbuild] at hlog
    simp only [Expr.build, hbuild, Builder.fresh, Builder.log, Builder.define, hnext]
    rw [List.mem_append, List.mem_singleton, Event.allocated.injEq, hlog, map_fst_concat,
      mem_append_and_name_iff hid.isPrefix fun k hk => (hoperand.le_toNat_lt k hk).2,
      mem_singleton_and_name_iff hname, or_assoc]
  | only _ ih => exact ih rules events
  | @snoc front last names mid names' before elements writes writes' hfront hlast ihfront ihlast
  | @orElse front last names mid names' before elements writes writes' hfront hlast ihfront
      ihlast =>
    obtain ⟨events', hbuild⟩ := hfront.build_eq rules events
    have hlog := ihfront rules events
    have hlog' := ihlast (rules.defineAll writes) events'
    rw [hbuild] at hlog
    simp only [Expr.build, hbuild]
    rw [hlog', hlog, List.map_append,
      mem_append_and_name_iff hlast.isPrefix fun k hk => (hfront.le_toNat_lt k hk).2, or_assoc]

/-- The name of a generated rule was not there before. -/
theorem Elaborates.notMem_of_getElem?_eq {base : String} {level : Level} {e : Expr level}
    {names names' : List String} {elements : Body} {writes : List (RuleId × Body)}
    (h : Elaborates base e names elements names' writes) (hnodup : names'.Nodup) {name : String}
    {k : RuleId} (hk : k ∈ writes.map Prod.fst) (hget : names'[k.toNat]? = some name) :
    name ∉ names := by
  intro hmem
  obtain ⟨i, hi, hname⟩ := List.getElem_of_mem hmem
  have hget' : names'[i]? = some name :=
    getElem?_eq_some_of_isPrefix h.isPrefix (List.getElem?_eq_some_iff.2 ⟨hi, hname⟩)
  have hlt := (List.getElem?_eq_some_iff.1 hget').1
  have heq : i = k.toNat := (List.getElem?_inj hlt hnodup).1 (hget'.trans hget.symm)
  have hle := (h.le_toNat_lt k hk).1
  omega

namespace ElaboratesAll

variable {defs ds es : List Definition} {names : List String} {writes : List (RuleId × Body)}

/-- One more definition adds its own log, and a note that it is finished. -/
theorem exists_events_concat {d : Definition} {id : RuleId} {mid : List String}
    (hdefs : ElaboratesAll defs names writes) (hid : Interned names d.name id mid)
    (hnew : id ∉ writes.map Prod.fst) :
    ∃ rules, (Builder.empty.addDefinitions (defs ++ [d])).1.events =
      (d.body.build d.name
        ⟨⟨mid⟩, rules, (Builder.empty.addDefinitions defs).1.events⟩).2.events ++
        [.compiledRule d.name id] := by
  obtain ⟨rules, events, heq, hholds⟩ := hdefs.addDefinitions_eq
  have hintern := Interned.intern_eq (t := ⟨names⟩) hid
  have hundefined : rules.isDefined id = false := by
    rw [← Bool.not_eq_true, hholds.isDefined_iff hdefs.body_ne_nil]
    exact hnew
  refine ⟨rules, ?_⟩
  rw [Builder.addDefinitions_append, heq]
  simp only [Builder.addDefinitions_singleton, Builder.addDefinition, Builder.intern, hintern,
    hundefined, Bool.false_eq_true, if_false, if_true, Builder.define, Builder.log]

/-- The log of a row of definitions notes the rules that are generated for it: those that have a
body and are not named for a definition. -/
theorem mem_events_iff (h : ElaboratesAll defs names writes) {name : String} {k : RuleId} :
    .allocated name k ∈ (Builder.empty.addDefinitions defs).1.events ↔
      k ∈ writes.map Prod.fst ∧ names[k.toNat]? = some name ∧ ∀ d ∈ defs, d.name ≠ name := by
  induction h with
  | nil => simp [Builder.addDefinitions, Builder.empty]
  | @snoc defs d id names mid names' elements writes writes' hdefs hid hnew hbody ih =>
    have hall : ElaboratesAll (defs ++ [d]) names' _ := .snoc hdefs hid hnew hbody
    have hearlier := hid.isPrefix.trans hbody.isPrefix
    have hdname : names'[id.toNat]? = some d.name :=
      getElem?_eq_some_of_isPrefix hbody.isPrefix hid.getElem?_eq
    -- the note about the finished definition is none about a generated rule
    have hlog : .allocated name k ∈ (Builder.empty.addDefinitions (defs ++ [d])).1.events ↔
        .allocated name k ∈ (Builder.empty.addDefinitions defs).1.events ∨
          k ∈ writes'.map Prod.fst ∧ names'[k.toNat]? = some name := by
      obtain ⟨rules, hevents⟩ := hdefs.exists_events_concat hid hnew
      rw [hevents]
      simp only [List.mem_append, List.mem_singleton, reduceCtorEq, or_false]
      exact hbody.mem_events_iff rules _
    rw [hlog, ih]
    simp only [List.map_append, List.map_cons, List.map_nil, List.mem_append, List.mem_singleton]
    constructor
    · rintro (⟨hk, hget, hne⟩ | ⟨hk, hget⟩)
      · have hget' := getElem?_eq_some_of_isPrefix hearlier hget
        refine ⟨.inl hk, hget', ?_⟩
        rintro d' (hd' | rfl) hname
        · exact hne d' hd' hname
        · rw [← hname] at hget'
          exact hnew (eq_of_getElem?_eq_some hall.nodup hget' hdname ▸ hk)
      · -- a definition had its name before the rule was generated
        refine ⟨.inr (.inl hk), hget, ?_⟩
        intro d' hd' hname
        refine hbody.notMem_of_getElem?_eq hall.nodup hk hget ?_
        rcases hd' with hd' | rfl
        · exact hname ▸ hid.isPrefix.subset (hdefs.name_mem d' hd')
        · exact hname ▸ hid.mem
    · rintro ⟨hk | hk | rfl, hget, hne⟩
      · rw [getElem?_eq_of_isPrefix hearlier (hdefs.toNat_lt k hk)] at hget
        exact .inl ⟨hk, hget, fun d' hd' => hne d' (.inl hd')⟩
      · exact .inr ⟨hk, hget⟩
      · rw [hdname, Option.some.injEq] at hget
        exact absurd hget (hne d (.inr rfl))

/-- The first definitions of a row are elaborated by themselves.  What the others write has a new
id, or is the body of one of them. -/
theorem exists_front (h : ElaboratesAll (ds ++ es) names writes) :
    ∃ names₁ writes₁, ElaboratesAll ds names₁ writes₁ ∧ names₁ <+: names ∧ writes₁ <+: writes ∧
      ∀ k ∈ writes.map Prod.fst, k ∈ writes₁.map Prod.fst ∨ names₁.length ≤ k.toNat ∨
        ∃ d ∈ es, names[k.toNat]? = some d.name := by
  generalize hrow : ds ++ es = row at h
  induction h generalizing es with
  | nil =>
    obtain ⟨rfl, rfl⟩ := List.append_eq_nil_iff.1 hrow
    exact ⟨[], [], .nil, List.prefix_rfl, List.prefix_rfl, by simp⟩
  | @snoc defs d id names mid names' elements writes writes' hdefs hid hnew hbody ih =>
    cases es using List.reverseRecOn with
    | nil =>
      rw [List.append_nil] at hrow
      subst hrow
      exact ⟨_, _, .snoc hdefs hid hnew hbody, List.prefix_rfl, List.prefix_rfl,
        fun k hk => .inl hk⟩
    | append_singleton es e =>
      rw [← List.append_assoc] at hrow
      obtain ⟨hfront, hlast⟩ := List.append_inj' hrow rfl
      obtain rfl : e = d := by simpa using hlast
      obtain ⟨names₁, writes₁, hall, hearlier, hwritten, hwrites⟩ := ih hfront
      have hlonger := hid.isPrefix.trans hbody.isPrefix
      refine ⟨names₁, writes₁, hall, hearlier.trans hlonger,
        hwritten.trans (List.prefix_append _ _), ?_⟩
      intro k hk
      simp only [List.map_append, List.map_cons, List.map_nil, List.mem_append,
        List.mem_singleton] at hk
      rcases hk with hk | hk | rfl
      · rcases hwrites k hk with hk | hk | ⟨d', hd', hname⟩
        · exact .inl hk
        · exact .inr (.inl hk)
        · exact .inr (.inr ⟨d', List.mem_append_left _ hd',
            getElem?_eq_some_of_isPrefix hlonger hname⟩)
      · have hle := (hbody.le_toNat_lt k hk).1
        have hmid := (hearlier.trans hid.isPrefix).length_le
        exact .inr (.inl (by omega))
      · exact .inr (.inr ⟨e, List.mem_append_right _ List.mem_cons_self,
          getElem?_eq_some_of_isPrefix hbody.isPrefix hid.getElem?_eq⟩)

end ElaboratesAll

/-! ### References -/

/-- A name that an expression refers to is in the tables. -/
theorem Represents.exists_id_of_mem_refNames {names : List String} {writes : List (RuleId × Body)}
    {level : Level} {e : Expr level} {elements : Body} (h : Represents names writes e elements)
    {name : String} (hname : name ∈ e.refNames) : ∃ id : RuleId, names[id.toNat]? = some name := by
  induction h with
  | literal | charClass | nothing => simp [Expr.refNames] at hname
  | @ref name' id hid =>
    obtain rfl := List.mem_singleton.1 hname
    exact ⟨id, hid⟩
  | group _ _ ih | repeated _ _ ih | only _ ih => exact ih hname
  | snoc _ _ ihfront ihlast | orElse _ _ ihfront ihlast =>
    exact (List.mem_append.1 hname).elim ihfront ihlast

theorem SourceText.definitions_read {limit : ℕ} {text : List Char} {defs : List Definition}
    (h : SourceText limit defs text) : (read limit text).definitions = defs := by
  rw [(read_eq_iff.2 h).2]

/-- The log of a compilation that succeeds is that of its definitions, and a note about the tables. -/
theorem run_events_eq {source : String} {options : CompileOptions} {g : Grammar}
    {defs : List Definition} (h : compile source options = .ok g)
    (hsource : SourceText options.maxNesting defs source.toList) :
    (run options source).events = (Builder.empty.addDefinitions defs).1.events ++
      [.compiledGrammar g.symbols.size g.rules.size] := by
  obtain ⟨b, hparse, hcheck⟩ := compile_eq_ok_iff_parse.1 h
  obtain ⟨-, hread⟩ := read_eq_iff.2 hsource
  have hbuild := hparse
  rw [parse, hread, build_eq_none_iff] at hbuild
  rw [hbuild.2.2]
  simp only [run, hparse, Builder.finish, hcheck, Builder.log]

theorem run_events_of_compile_eq_ok {source : String} {options : CompileOptions} {g : Grammar}
    {defs : List Definition} (h : compile source options = .ok g)
    (hsource : SourceText options.maxNesting defs source.toList) {name : String} {id : RuleId} :
    .allocated name id ∈ (run options source).events ↔
      .allocated name id ∈ (Builder.empty.addDefinitions defs).1.events := by
  rw [run_events_eq h hsource]
  simp only [List.mem_append, List.mem_singleton, reduceCtorEq, or_false]

/-- **A name that is referred to is defined, or it was generated before.**  In the first case no rule
of this name is generated.  In the second case, the rule was generated up to the end of the
definition `d` that refers to it, and no definition has its name: the reference denotes the generated
rule.

The ids must suffice for the names, as they do for every source of fewer than `2 ^ 32` characters. -/
theorem defined_or_generated_of_mem_refNames (source : String) (options : CompileOptions)
    (g : Grammar) (hsize : g.symbols.size ≤ 2 ^ 32) (hok : compile source options = .ok g)
    (pre post : List Definition) (d : Definition)
    (hsource : SourceText options.maxNesting (pre ++ d :: post) source.toList) (name : String)
    (hname : name ∈ d.body.refNames) :
    ((∃ d' ∈ pre ++ d :: post, d'.name = name) ∧
      ∀ id, .allocated name id ∉ (run options source).events) ∨
    ((∀ d' ∈ pre ++ d :: post, d'.name ≠ name) ∧
      ∃ id, .allocated name id ∈ (Builder.empty.addDefinitions (pre ++ [d])).1.events ∧
        g.id? name = some id) := by
  obtain ⟨defs, writes, h⟩ := exists_compilesTo_of_size_le hsize hok
  obtain rfl := hsource.unique h.sourceText
  have hevents (id : RuleId) : .allocated name id ∈ (run options source).events ↔ _ :=
    run_events_of_compile_eq_ok hok hsource
  simp only [hevents, h.elaborates.mem_events_iff]
  by_cases hdefined : ∃ d' ∈ pre ++ d :: post, d'.name = name
  · left
    refine ⟨hdefined, ?_⟩
    rintro id ⟨-, -, hne⟩
    obtain ⟨d', hd', hname'⟩ := hdefined
    exact hne d' hd' hname'
  · right
    push Not at hdefined
    refine ⟨hdefined, ?_⟩
    -- the name has its id since the definition that refers to it
    have hrow : pre ++ d :: post = (pre ++ [d]) ++ post := by simp
    obtain ⟨names₁, writes₁, hall, hearlier, -, hwrites⟩ :=
      (hrow ▸ h.elaborates).exists_front
    obtain ⟨_, elements, hrep⟩ := hall.exists_represents d (by simp)
    obtain ⟨id, hid⟩ := hrep.represents.exists_id_of_mem_refNames hname
    have hid' := getElem?_eq_some_of_isPrefix hearlier hid
    have hlt := (List.getElem?_eq_some_iff.1 hid').1
    refine ⟨id, ?_, (SymbolTable.id?_eq_some_iff h.elaborates.nodup hsize).2 hid'⟩
    rw [hall.mem_events_iff]
    refine ⟨?_, hid, fun d' hd' => hdefined d' (by rw [hrow]; exact List.mem_append_left _ hd')⟩
    rcases hwrites id (h.mem_writes_iff.2 hlt) with hk | hk | ⟨d', hd', hget⟩
    · exact hk
    · have := (List.getElem?_eq_some_iff.1 hid).1
      omega
    · rw [hid', Option.some.injEq] at hget
      exact absurd hget.symm (hdefined d' (by simp [hd']))

/-- A reference behind the quantifier that generates a rule of its name. -/
theorem generated_of_mem_refNames_capture :
    ∃ pre d post g, SourceText 64 (pre ++ d :: post) "a ::= \"x\"? a_1".toList ∧
      "a_1" ∈ d.body.refNames ∧ compile "a ::= \"x\"? a_1" = .ok g ∧
      ∃ id, .allocated "a_1" id ∈ (Builder.empty.addDefinitions (pre ++ [d])).1.events ∧
        g.id? "a_1" = some id := by
  have hok : compile "a ::= \"x\"? a_1" = .ok ⟨⟨["a", "a_1"]⟩,
      ⟨[[.ruleRef 1, .ruleRef 1, .stop], [.char 'x', .alt, .stop]]⟩⟩ := by decide +kernel
  have hread : ∃ d ∈ (read 64 "a ::= \"x\"? a_1".toList).definitions,
      "a_1" ∈ d.body.refNames := by decide +kernel
  have hdefs : ∀ d ∈ (read 64 "a ::= \"x\"? a_1".toList).definitions, d.name ≠ "a_1" := by
    decide +kernel
  obtain ⟨defs, _, h⟩ := exists_compilesTo (by decide +kernel) hok
  have hsource : SourceText 64 defs _ := h.sourceText
  rw [hsource.definitions_read] at hread hdefs
  obtain ⟨d, hd, hname⟩ := hread
  obtain ⟨pre, post, rfl⟩ := List.append_of_mem hd
  refine ⟨pre, d, post, _, hsource, hname, hok, ?_⟩
  rcases defined_or_generated_of_mem_refNames _ {} _ (by decide) hok pre post d hsource "a_1" hname
    with ⟨⟨d', hd', hname'⟩, -⟩ | ⟨-, hgenerated⟩
  · exact absurd hname' (hdefs d' hd')
  · exact hgenerated

/-- Not every name that is referred to is defined: a source that compiles may refer to a rule that
was generated. -/
theorem not_forall_refNames_defined :
    ¬ ∀ (source : String) (options : CompileOptions) (g : Grammar) (defs : List Definition),
      compile source options = .ok g → SourceText options.maxNesting defs source.toList →
        ∀ d ∈ defs, ∀ name ∈ d.body.refNames, ∃ d' ∈ defs, d'.name = name := by
  intro hall
  have hok : ∃ g, compile "a ::= \"x\"? a_1" = .ok g :=
    ⟨⟨⟨["a", "a_1"]⟩, ⟨[[.ruleRef 1, .ruleRef 1, .stop], [.char 'x', .alt, .stop]]⟩⟩,
      by decide +kernel⟩
  have hread : ∃ d ∈ (read 64 "a ::= \"x\"? a_1".toList).definitions, ∃ name ∈ d.body.refNames,
      ∀ d' ∈ (read 64 "a ::= \"x\"? a_1".toList).definitions, d'.name ≠ name := by decide +kernel
  obtain ⟨g, hg⟩ := hok
  obtain ⟨defs, _, h⟩ := exists_compilesTo (by decide +kernel) hg
  have hsource : SourceText 64 defs _ := h.sourceText
  rw [hsource.definitions_read] at hread
  obtain ⟨d, hd, name, hname, hne⟩ := hread
  obtain ⟨d', hd', hname'⟩ := hall _ {} g defs hg hsource d hd name hname
  exact hne d' hd' hname'

/-- In front of the quantifier, the same reference is refused. -/
example : compile "a ::= a_1 \"x\"?" = .error (.undefinedRule "a_1") := by decide +kernel

end EbnfTables
