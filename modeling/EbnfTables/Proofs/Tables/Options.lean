import EbnfTables.Proofs.Source.Nesting
import EbnfTables.Proofs.Tables.WellFormed

/-!
# What the options do

Options only refuse.

* A text that does not exceed the bound on nested groups is compiled in the same way under every
  larger bound (`compile_eq_of_le_maxNesting`).
* A start rule that is asked for is looked up in the finished grammar
  (`compile_withStartRule_of_eq_ok`).
* A text is refused for its depth only at a parenthesis that stands inside as many open groups as
  the bound allows (`nestingTooDeep_of_compile`).

Main theorem: `options_only_refuse`.
-/

namespace EbnfTables

/-! ### The bound on nested groups -/

namespace Builder

/-- A definition of `name` comes too late: its rule has a body already. -/
def refuses (b : Builder) (name : String) : Bool :=
  (b.intern name).2.rules.isDefined (b.intern name).1

theorem addDefinition_snd (b : Builder) (d : Definition) :
    (b.addDefinition d).2 = !b.refuses d.name := by
  unfold addDefinition refuses
  cases hdefined : (b.intern d.name).2.rules.isDefined (b.intern d.name).1 <;> simp [hdefined]

theorem addOpenDefinition_snd (b : Builder) (d : OpenDefinition) :
    (b.addOpenDefinition d).2 = !b.refuses d.name := by
  unfold addOpenDefinition refuses
  cases hdefined : (b.intern d.name).2.rules.isDefined (b.intern d.name).1 <;> simp [hdefined]

theorem exists_addDefinition_eq (b : Builder) (d : Definition) :
    ∃ b', b.addDefinition d = (b', !b.refuses d.name) :=
  ⟨_, Prod.ext rfl (b.addDefinition_snd d)⟩

theorem exists_addOpenDefinition_eq (b : Builder) (d : OpenDefinition) :
    ∃ b', b.addOpenDefinition d = (b', !b.refuses d.name) :=
  ⟨_, Prod.ext rfl (b.addOpenDefinition_snd d)⟩

end Builder

namespace Reading

variable {ds : List Definition} {b : Builder}

/-- A reading that comes to a definition whose rule has a body already is refused for it. -/
theorem build_of_begins {name : String} {site : List Char} {r : Reading} (h : r.Begins name site)
    (hds : Builder.empty.addDefinitions ds = (b, none)) (hrefuses : b.refuses name = true)
    (text : List Char) : (build text ⟨ds ++ r.definitions, r.refusal⟩).2 =
      some (.duplicateRule name (.ofRest text site)) := by
  cases h with
  | @definition d ds' refusal hname hsite =>
    obtain ⟨b', hd⟩ := b.exists_addDefinition_eq d
    rw [hname, hrefuses, Bool.not_true] at hd
    simp only [build, Builder.addDefinitions_append, hds, Builder.addDefinitions, hd, hname, hsite]
  | @openDefinition fault d hname hsite =>
    obtain ⟨b', hd⟩ := b.exists_addOpenDefinition_eq d
    rw [hname, hrefuses, Bool.not_true] at hd
    simp only [build, Builder.addDefinitions_append, hds, Builder.addDefinitions, hd, hname, hsite]

/-- A reading that is refused for its text is refused for its fault, unless a definition comes too
late. -/
theorem build_of_refusal {refusal : Refusal} (hds : Builder.empty.addDefinitions ds = (b, none))
    (hbegun : ∀ d, refusal.begun = some d → b.refuses d.name = false) (text : List Char) :
    (build text ⟨ds, some refusal⟩).2 =
      some (.malformed refusal.fault.error (.ofRest text refusal.fault.site)) := by
  obtain ⟨fault, begun⟩ := refusal
  cases begun with
  | none => simp only [build, hds]
  | some d =>
    obtain ⟨b', hd⟩ := b.exists_addOpenDefinition_eq d
    rw [hbegun d rfl, Bool.not_false] at hd
    simp only [build, hds, hd]

/-- A reading that ends inside a definition is refused for its fault, or every reading that comes to
this definition is refused as well, because its rule has a body already. -/
theorem build_eq_of_begins (text : List Char) (ds : List Definition) (fault : Fault)
    {d : OpenDefinition} {r : Reading} (h : r.Begins d.name d.site) :
    (build text ⟨ds, some ⟨fault, some d⟩⟩).2 =
        some (.malformed fault.error (.ofRest text fault.site)) ∨
      (build text ⟨ds ++ r.definitions, r.refusal⟩).2 =
        (build text ⟨ds, some ⟨fault, some d⟩⟩).2 := by
  cases hds : Builder.empty.addDefinitions ds with
  | mk b duplicate =>
    cases duplicate with
    | some d₀ =>
      right
      simp only [build, Builder.addDefinitions_append, hds]
    | none =>
      cases hrefuses : b.refuses d.name with
      | true =>
        right
        have hopen : Begins d.name d.site ⟨[], some ⟨fault, some d⟩⟩ := .openDefinition rfl rfl
        have hopen' := build_of_begins hopen hds hrefuses text
        rw [List.append_nil] at hopen'
        rw [build_of_begins h hds hrefuses, hopen']
      | false =>
        left
        refine build_of_refusal hds (fun d' hd' => ?_) text
        cases hd'
        exact hrefuses

end Reading

theorem compile_of_parse_eq_error {source : String} {options : CompileOptions} {e : CompileError}
    (h : (parse options.maxNesting source).2 = some e) : compile source options = .error e := by
  unfold compile run
  cases hparse : parse options.maxNesting source with
  | mk b error =>
    rw [hparse] at h
    obtain rfl : error = some e := h
    rfl

/-- A text that does not exceed a bound is compiled in the same way under every larger bound. -/
theorem compile_eq_of_le_maxNesting {source : String} {start : Option String} {m m' : ℕ}
    (hle : m ≤ m')
    (hdeep : ∀ k p, compile source ⟨start, m⟩ ≠ .error (.malformed (.nestingTooDeep k) p)) :
    compile source ⟨start, m'⟩ = compile source ⟨start, m⟩ := by
  rcases readDefinitions_eq_or_nestingTooDeep hle (Spacing.anyLine.skip source.toList) with
    heq | ⟨ds, fault, d, r, hlow, hfault, hbegins, hhigh⟩
  · have hread : read m' source.toList = read m source.toList := heq
    unfold compile run parse
    rw [hread]
    rfl
  · -- the bound was exceeded, so something else is wrong with this definition
    have hparse : parse m source = Reading.build source.toList ⟨ds, some ⟨fault, some d⟩⟩ := by
      rw [parse, read, hlow]
    have hparse' :
        parse m' source = Reading.build source.toList ⟨ds ++ r.definitions, r.refusal⟩ := by
      rw [parse, read, hhigh]
    have hrefused : ∃ e, (parse m source).2 = some e := by
      refine Option.ne_none_iff_exists'.1 fun hnone => ?_
      have hok : Reading.build source.toList ⟨ds, some ⟨fault, some d⟩⟩ =
          ((parse m source).1, none) := by rw [← hparse, ← hnone]
      cases (build_eq_none_iff.1 hok).1
    obtain ⟨e, he⟩ := hrefused
    have hcompile : compile source ⟨start, m⟩ = .error e := compile_of_parse_eq_error he
    rw [hparse] at he
    rcases Reading.build_eq_of_begins source.toList ds fault hbegins with hmalformed | heq
    · rw [he, hfault, Option.some.injEq] at hmalformed
      rw [hmalformed] at hcompile
      exact absurd hcompile (hdeep m _)
    · rw [he, ← hparse'] at heq
      rw [hcompile]
      exact compile_of_parse_eq_error heq

/-! ### The start rule -/

theorem compile_withStartRule_of_eq_error {source : String} {m : ℕ} {e : CompileError}
    (h : compile source ⟨none, m⟩ = .error e) (name : String) :
    compile source ⟨some name, m⟩ = .error e := by
  unfold compile run at h ⊢
  cases hparse : parse m source with
  | mk b error =>
    simp only [hparse] at h ⊢
    cases error with
    | some e' => exact h
    | none =>
      simp only [Builder.finish, Builder.check] at h ⊢
      cases hundefined : b.firstUndefined? with
      | some id =>
        simp only [hundefined] at h ⊢
        exact h
      | none =>
        simp only [hundefined] at h
        cases h

/-- Whether a rule has a body. -/
def Grammar.HasRule (g : Grammar) (name : String) : Prop :=
  ∃ id, g.id? name = some id ∧ g.rule? id ≠ none

/-- A start rule that is asked for must have a body in the finished grammar, which stays as it
is. -/
theorem compile_withStartRule_of_eq_ok {source : String} {m : ℕ} {g : Grammar}
    (h : compile source ⟨none, m⟩ = .ok g) (name : String) :
    (g.HasRule name → compile source ⟨some name, m⟩ = .ok g) ∧
      (¬ g.HasRule name → compile source ⟨some name, m⟩ = .error (.missingStartRule name)) := by
  obtain ⟨b, hparse, hcheck⟩ := compile_eq_ok_iff_parse.1 h
  have hparse : parse m source = (b, none) := hparse
  have hundefined : b.firstUndefined? = none := by
    unfold Builder.check at hcheck
    cases hundefined : b.firstUndefined? with
    | none => rfl
    | some id => simp [hundefined] at hcheck
  obtain rfl := eq_of_check_eq_ok hcheck
  have hrule : b.hasRule name = true ↔ Grammar.HasRule ⟨b.symbols, b.rules⟩ name := by
    unfold Builder.hasRule Grammar.HasRule Grammar.rule? RuleTable.body? Grammar.id?
    cases hid : b.symbols.id? name <;> simp
  have hrun : compile source ⟨some name, m⟩ =
      if b.hasRule name then .ok ⟨b.symbols, b.rules⟩ else .error (.missingStartRule name) := by
    unfold compile run
    simp only [hparse, Builder.finish, Builder.check, hundefined]
    by_cases hb : b.hasRule name
    · simp [hb]
    · simp [hb, Builder.fail]
  constructor
  · intro hname
    rw [hrun, if_pos (hrule.2 hname)]
  · intro hname
    rw [hrun, if_neg fun hb => hname (hrule.1 hb)]

/-- If the ids sufficed, every name of a compiled grammar is that of a rule. -/
theorem hasRule_iff_of_compile_eq_ok {source : String} {options : CompileOptions} {g : Grammar}
    (hsize : g.symbols.size ≤ 2 ^ 32) (h : compile source options = .ok g) {name : String} :
    g.HasRule name ↔ g.id? name ≠ none := by
  constructor
  · rintro ⟨id, hid, -⟩
    rw [hid]
    exact Option.some_ne_none id
  · intro hne
    obtain ⟨id, hid⟩ := Option.ne_none_iff_exists'.1 hne
    obtain ⟨defs, writes, hcompiles⟩ := exists_compilesTo_of_size_le hsize h
    have hname := (SymbolTable.id?_eq_some_iff hcompiles.elaborates.nodup hsize).1 hid
    obtain ⟨hlt, -⟩ := List.getElem?_eq_some_iff.1 hname
    obtain ⟨body, hbody⟩ := hcompiles.exists_body hlt
    refine ⟨id, hid, ?_⟩
    rw [hcompiles.rule?_eq_some_iff.2 hbody]
    exact Option.some_ne_none body

/-! ### Groups that are nested too deep -/

theorem exists_refusal_of_build_eq_malformed {text : List Char} {r : Reading} {error : SyntaxError}
    {p : Position} (h : (r.build text).2 = some (.malformed error p)) :
    ∃ refusal, r.refusal = some refusal ∧ error = refusal.fault.error ∧
      p = .ofRest text refusal.fault.site := by
  obtain ⟨site, hrefuses⟩ := r.exists_refuses_of_build_eq_error h (Option.some_ne_none p)
  cases hrefuses with
  | malformed hrefusal => exact ⟨_, hrefusal, rfl, rfl⟩

/-- A text is refused for its depth only at a parenthesis inside as many open groups as the bound
allows. -/
theorem nestingTooDeep_of_compile {source : String} {options : CompileOptions} {k : ℕ}
    {p : Position} (h : compile source options = .error (.malformed (.nestingTooDeep k) p)) :
    k = options.maxNesting ∧ ∃ right more,
      RightSide options.maxNesting source.toList right ∧ p = .ofRest source.toList ('(' :: more) ∧
      ∀ n, Inside right n ('(' :: more) ↔ n = k := by
  obtain ⟨refusal, hrefusal, herror, rfl⟩ :=
    exists_refusal_of_build_eq_malformed
      (parse_eq_of_compile_eq_error h (Option.some_ne_none p))
  obtain ⟨rfl, right, more, hright, hsite, hinside⟩ := nestingTooDeep_of_read hrefusal herror.symm
  refine ⟨rfl, right, more, hright, by rw [hsite], fun n => ⟨fun h => h.unique hinside, ?_⟩⟩
  rintro rfl
  exact hinside

/-! ### All options -/

/-- **Options only refuse.**  A bound on nested groups that is not exceeded may be larger.  A start
rule that is asked for leaves errors and grammars as they are, except that a grammar without its
name is refused.  The bound is exceeded only at a parenthesis inside as many open groups.

What decides about a start rule is whether it has a body.  That every name has one takes an id for
each name: with more than `2 ^ 32` names, ids are given out twice, and a name may be left without
a body. -/
theorem options_only_refuse (source : String) :
    (∀ start m m', m ≤ m' →
      (∀ k p, compile source ⟨start, m⟩ ≠ .error (.malformed (.nestingTooDeep k) p)) →
      compile source ⟨start, m'⟩ = compile source ⟨start, m⟩) ∧
    (∀ name m,
      (∀ e, compile source ⟨none, m⟩ = .error e → compile source ⟨some name, m⟩ = .error e) ∧
      ∀ g, compile source ⟨none, m⟩ = .ok g →
        (g.id? name = none →
          compile source ⟨some name, m⟩ = .error (.missingStartRule name)) ∧
        (g.id? name ≠ none → g.symbols.size ≤ 2 ^ 32 →
          compile source ⟨some name, m⟩ = .ok g) ∧
        (g.HasRule name → compile source ⟨some name, m⟩ = .ok g) ∧
        (¬ g.HasRule name →
          compile source ⟨some name, m⟩ = .error (.missingStartRule name))) ∧
    ∀ start m k p, compile source ⟨start, m⟩ = .error (.malformed (.nestingTooDeep k) p) →
      k = m ∧ ∃ right more, RightSide m source.toList right ∧
        p = .ofRest source.toList ('(' :: more) ∧
        ∀ n, Inside right n ('(' :: more) ↔ n = m := by
  refine ⟨fun start m m' hle hdeep => compile_eq_of_le_maxNesting hle hdeep, ?_, ?_⟩
  · intro name m
    refine ⟨fun e he => compile_withStartRule_of_eq_error he name, fun g hg => ?_⟩
    obtain ⟨hok, hmissing⟩ := compile_withStartRule_of_eq_ok hg name
    refine ⟨fun hid => hmissing ?_, fun hid hsize => hok ?_, hok, hmissing⟩
    · rintro ⟨id, hid', -⟩
      rw [hid] at hid'
      cases hid'
    · exact (hasRule_iff_of_compile_eq_ok hsize hg).2 hid
  · intro start m k p h
    obtain ⟨rfl, hright⟩ := nestingTooDeep_of_compile h
    exact ⟨rfl, hright⟩

/-- Two nested groups under the bounds one, two and five, with and without a start rule. -/
theorem options_only_refuse_two_groups :
    compile "a ::= ((\"x\"))" ⟨none, 5⟩ = compile "a ::= ((\"x\"))" ⟨none, 2⟩ ∧
    compile "a ::= ((\"x\"))" ⟨some "a", 1⟩ = .error (.malformed (.nestingTooDeep 1) ⟨7, 1, 8⟩) ∧
    (∃ g, compile "a ::= ((\"x\"))" ⟨none, 2⟩ = .ok g ∧
      compile "a ::= ((\"x\"))" ⟨some "a_2", 2⟩ = .ok g ∧
      compile "a ::= ((\"x\"))" ⟨some "b", 2⟩ = .error (.missingStartRule "b")) ∧
    ∃ right more, RightSide 1 "a ::= ((\"x\"))".toList right ∧
      ⟨7, 1, 8⟩ = Position.ofRest "a ::= ((\"x\"))".toList ('(' :: more) ∧
      ∀ n, Inside right n ('(' :: more) ↔ n = 1 := by
  obtain ⟨hbound, hstart, hdeep⟩ := options_only_refuse "a ::= ((\"x\"))"
  have hone : compile "a ::= ((\"x\"))" ⟨none, 1⟩ =
      .error (.malformed (.nestingTooDeep 1) ⟨7, 1, 8⟩) := by decide +kernel
  have htwo : compile "a ::= ((\"x\"))" ⟨none, 2⟩ = .ok ⟨⟨["a", "a_1", "a_2"]⟩,
      ⟨[[.ruleRef 1, .stop], [.ruleRef 2, .stop], [.char 'x', .stop]]⟩⟩ := by decide +kernel
  refine ⟨?_, (hstart "a" 1).1 _ hone, ⟨_, htwo, ?_, ?_⟩, (hdeep none 1 1 _ hone).2⟩
  · refine hbound none 2 5 (by decide) fun k p h => ?_
    rw [htwo] at h
    cases h
  · exact ((hstart "a_2" 2).2 _ htwo).2.1 (by decide) (by decide)
  · exact ((hstart "b" 2).2 _ htwo).1 (by decide)

end EbnfTables
