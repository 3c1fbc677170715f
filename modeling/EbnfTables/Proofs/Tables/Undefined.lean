import EbnfTables.Proofs.Tables.Options
import EbnfTables.Proofs.Tables.References

/-!
# Rules without a body

What the check of filled tables finds, and when nothing is there to be filled.

* `RuleTable.Resolves t es`: every rule that the elements refer to has a body in `t`;
* `RuleTable.FirstUndefined t id`: of the rules without a body, `id` is the one that is referred to
  first, by the place of the referring body and by the place in it;
* what is mentioned in the tables of a source has a body, or a name that some definition refers to
  (`ElaboratesAll.of_mentioned`, the converse of `ElaboratesAll.mentioned`).

Main theorem: `compile_semantic_error`.  A text that is well formed is refused exactly for a
reference to a rule without a body, or else for a start rule that is not in the tables.
-/

namespace EbnfTables

namespace RuleTable

/-- Every rule that the elements refer to has a body. -/
def Resolves (t : RuleTable) (es : Body) : Prop :=
  ∀ id, .ruleRef id ∈ es → t.body? id ≠ none

/-- The first reference to a rule without a body is one to `id`. -/
inductive FirstUndefined (t : RuleTable) (id : RuleId) : Prop
  | intro {front back : List Body} {before after : Body}
      (hbodies : t.bodies = front ++ (before ++ .ruleRef id :: after) :: back)
      (hid : t.body? id = none) (hfront : ∀ body ∈ front, t.Resolves body)
      (hbefore : t.Resolves before) : FirstUndefined t id

variable {t : RuleTable}

theorem body?_eq_none_iff {id : RuleId} : t.body? id = none ↔ t.isDefined id = false := by
  unfold body?
  cases t.isDefined id <;> simp

theorem resolves_iff {es : Body} :
    t.Resolves es ↔ ∀ e ∈ es, ¬ (e.kind = .ruleRef ∧ t.isDefined e.value = false) := by
  simp only [Resolves, ne_eq, body?_eq_none_iff]
  constructor
  · rintro h ⟨kind, id⟩ he ⟨rfl, hid⟩
    exact h id he hid
  · intro h id he hid
    exact h _ he ⟨rfl, hid⟩

end RuleTable

/-! ### The check -/

namespace Builder

variable {b : Builder} {options : CompileOptions}

theorem firstUndefined?_eq_some_iff {id : RuleId} :
    b.firstUndefined? = some id ↔ b.rules.FirstUndefined id := by
  rw [firstUndefined?, Option.map_eq_some_iff]
  simp only [List.find?_flatten_eq_some_iff, decide_eq_true_eq, Bool.not_eq_true',
    decide_eq_false_iff_not, ← RuleTable.resolves_iff]
  constructor
  · rintro ⟨⟨kind, value⟩, ⟨⟨rfl, hvalue⟩, front, before, after, back, hbodies, hfront, hbefore⟩,
      rfl⟩
    exact ⟨hbodies, RuleTable.body?_eq_none_iff.2 hvalue, hfront, hbefore⟩
  · rintro ⟨hbodies, hid, hfront, hbefore⟩
    exact ⟨.ruleRef id, ⟨⟨rfl, RuleTable.body?_eq_none_iff.1 hid⟩, _, _, _, _, hbodies, hfront,
      hbefore⟩, rfl⟩

theorem firstUndefined?_eq_none_iff :
    b.firstUndefined? = none ↔ ∀ body ∈ b.rules.bodies, b.rules.Resolves body := by
  simp only [firstUndefined?, Option.map_eq_none_iff, List.find?_eq_none, List.mem_flatten,
    RuleTable.resolves_iff, decide_eq_true_eq]
  constructor
  · intro h body hbody e he
    exact h e ⟨body, hbody, he⟩
  · rintro h e ⟨body, hbody, he⟩
    exact h body hbody e he

theorem check_eq_undefinedRule_iff {name : String} :
    b.check options = .error (.undefinedRule name) ↔
      ∃ id, b.rules.FirstUndefined id ∧ (b.symbols.name? id).getD "" = name := by
  simp only [← firstUndefined?_eq_some_iff]
  unfold check
  cases b.firstUndefined? with
  | some id => simp
  | none =>
    simp only [reduceCtorEq, false_and, exists_false, iff_false]
    split
    · exact nofun
    · split <;> exact nofun

theorem check_eq_missingStartRule_iff {name : String} :
    b.check options = .error (.missingStartRule name) ↔
      (∀ body ∈ b.rules.bodies, b.rules.Resolves body) ∧ options.startRule = some name ∧
        b.hasRule name = false := by
  rw [← firstUndefined?_eq_none_iff]
  unfold check
  cases b.firstUndefined? with
  | some id => simp
  | none =>
    cases options.startRule with
    | none => simp
    | some start =>
      simp only [Option.some.injEq, true_and]
      split
      · rename_i hstart
        simp only [reduceCtorEq, false_iff, not_and, Bool.not_eq_false]
        rintro rfl
        exact hstart
      · rename_i hstart
        rw [Bool.not_eq_true] at hstart
        simp only [Except.error.injEq, CompileError.missingStartRule.injEq]
        refine ⟨?_, And.left⟩
        rintro rfl
        exact ⟨rfl, hstart⟩

/-- A reference to a rule without a body is refused, whichever of them is the first. -/
theorem exists_check_eq_undefinedRule_iff :
    (∃ name, b.check options = .error (.undefinedRule name)) ↔
      ∃ body ∈ b.rules.bodies, ∃ id, .ruleRef id ∈ body ∧ b.rules.body? id = none := by
  have hfirst : (∃ name, b.check options = .error (.undefinedRule name)) ↔
      b.firstUndefined? ≠ none := by
    simp only [check_eq_undefinedRule_iff, ← firstUndefined?_eq_some_iff,
      Option.ne_none_iff_exists']
    exact ⟨fun ⟨_, id, hid, _⟩ => ⟨id, hid⟩, fun ⟨id, hid⟩ => ⟨_, id, hid, rfl⟩⟩
  rw [hfirst, ne_eq, firstUndefined?_eq_none_iff]
  simp only [RuleTable.Resolves, not_forall, not_not, exists_prop]

/-- The check gives the tables, or one of the two errors. -/
theorem check_cases (b : Builder) (options : CompileOptions) :
    (∃ name, b.check options = .error (.undefinedRule name)) ∨
      (∃ name, b.check options = .error (.missingStartRule name)) ∨
      b.check options = .ok ⟨b.symbols, b.rules⟩ := by
  unfold check
  split
  · exact .inl ⟨_, rfl⟩
  · split
    · exact .inr (.inr rfl)
    · split
      · exact .inr (.inr rfl)
      · exact .inr (.inl ⟨_, rfl⟩)

end Builder

/-! ### What is mentioned -/

namespace Mentioned

variable {id k : RuleId} {elements elements' body : Body} {writes writes' : List (RuleId × Body)}

/-- What is mentioned in two parts together is mentioned in one of them. -/
theorem append_cases (h : Mentioned id body (writes ++ writes'))
    (hbody : ∀ r, .ruleRef r ∈ body → .ruleRef r ∈ elements ∨ .ruleRef r ∈ elements') :
    Mentioned id elements writes ∨ Mentioned id elements' writes' := by
  rcases h with h | h | ⟨w, hw, h⟩
  · rw [List.map_append, List.mem_append] at h
    exact h.imp .inl .inl
  · exact (hbody id h).imp (fun h => .inr (.inl h)) fun h => .inr (.inl h)
  · exact (List.mem_append.1 hw).imp (fun hw => .inr (.inr ⟨w, hw, h⟩))
      fun hw => .inr (.inr ⟨w, hw, h⟩)

/-- Behind a generated rule, nothing is mentioned but this rule and what its body is made of. -/
theorem write_cases (h : Mentioned id [.ruleRef k] (writes ++ [(k, body)]))
    (hbody : ∀ r, .ruleRef r ∈ body → r = k ∨ .ruleRef r ∈ elements) :
    id = k ∨ Mentioned id elements writes := by
  rcases h with h | h | ⟨w, hw, h⟩
  · rw [List.map_append, List.mem_append] at h
    exact h.symm.imp (fun h => by simpa using h) .inl
  · exact .inl (Element.mk.inj (List.mem_singleton.1 h)).2
  · rcases List.mem_append.1 hw with hw | hw
    · exact .inr (.inr (.inr ⟨w, hw, h⟩))
    · obtain rfl := List.mem_singleton.1 hw
      exact (hbody id h).imp_right fun hid => .inr (.inl hid)

end Mentioned

/-- What an expression mentions gets a body with it, or is a name that it refers to. -/
theorem Elaborates.of_mentioned {base : String} {level : Level} {e : Expr level}
    {names names' : List String} {elements : Body} {writes : List (RuleId × Body)}
    (h : Elaborates base e names elements names' writes) {id : RuleId}
    (hid : Mentioned id elements writes) :
    id ∈ writes.map Prod.fst ∨ ∃ name ∈ e.refNames, names'[id.toNat]? = some name := by
  induction h with
  | literal =>
    simp only [Mentioned, List.map_nil, List.not_mem_nil, false_and, exists_false, or_false,
      false_or, List.mem_map] at hid
    obtain ⟨c, -, hc⟩ := hid
    cases hc
  | charClass =>
    simp only [Mentioned, List.map_nil, List.not_mem_nil, false_and, exists_false, or_false,
      false_or] at hid
    cases isChar_of_mem_classElements hid
  | nothing => simp [Mentioned] at hid
  | @ref name k names names' hk =>
    obtain rfl : id = k := by simpa [Mentioned, Element.ruleRef] using hid
    exact .inr ⟨name, List.mem_cons_self, hk.getElem?_eq⟩
  | @group body k names mid names' elements writes _ _ ih =>
    have hbody (r : RuleId) (hr : .ruleRef r ∈ elements ++ [.stop]) :
        r = k ∨ .ruleRef r ∈ elements := by
      simpa [Element.ruleRef, Element.stop] using Or.inr hr
    rcases hid.write_cases hbody with rfl | hid
    · exact .inl (by simp)
    · exact (ih hid).imp_left fun hid => by simp [hid]
  | @repeated q operand k names mid names' elements writes _ hk ih =>
    have hbody (r : RuleId) (hr : .ruleRef r ∈ q.expansion elements k) :
        r = k ∨ .ruleRef r ∈ elements := by
      cases q <;>
        simp [Quantifier.expansion, Element.ruleRef, Element.alt, Element.stop] at hr ⊢ <;> tauto
    rcases hid.write_cases hbody with rfl | hid
    · exact .inl (by simp)
    · refine (ih hid).imp (fun hid => by simp [hid]) ?_
      rintro ⟨name, hname, hget⟩
      exact ⟨name, hname, getElem?_eq_some_of_isPrefix hk.isPrefix hget⟩
  | only _ ih => exact ih hid
  | @snoc _ _ _ _ _ before elements writes writes' _ hlast ihfront ihlast
  | @orElse _ _ _ _ _ before elements writes writes' _ hlast ihfront ihlast =>
    have hcases : Mentioned id before writes ∨ Mentioned id elements writes' :=
      hid.append_cases fun r hr => by simpa [Element.ruleRef, Element.alt] using hr
    rcases hcases with hid | hid
    · refine (ihfront hid).imp (fun hid => by simp [hid]) ?_
      rintro ⟨name, hname, hget⟩
      exact ⟨name, List.mem_append_left _ hname,
        getElem?_eq_some_of_isPrefix hlast.isPrefix hget⟩
    · refine (ihlast hid).imp (fun hid => by simp [hid]) ?_
      rintro ⟨name, hname, hget⟩
      exact ⟨name, List.mem_append_right _ hname, hget⟩

namespace ElaboratesAll

variable {defs : List Definition} {names : List String} {writes : List (RuleId × Body)}

/-- What is mentioned in the tables of a row of definitions has a body, or is a name that a
definition refers to. -/
theorem of_mentioned (h : ElaboratesAll defs names writes) {id : RuleId}
    (hid : Mentioned id [] writes) :
    id ∈ writes.map Prod.fst ∨
      ∃ d ∈ defs, ∃ name ∈ d.body.refNames, names[id.toNat]? = some name := by
  induction h with
  | nil => simp [Mentioned] at hid
  | @snoc defs d k names mid names' elements writes writes' _ hk _ hbody ih =>
    have hcases : Mentioned id [] writes ∨
        Mentioned id [] (writes' ++ [(k, elements ++ [.stop])]) :=
      hid.append_cases (by simp)
    rcases hcases with hid | hid
    · refine (ih hid).imp (fun hid => by simp [hid]) ?_
      rintro ⟨d', hd', name, hname, hget⟩
      have hearlier := hk.isPrefix.trans hbody.isPrefix
      exact ⟨d', List.mem_append_left _ hd', name, hname,
        getElem?_eq_some_of_isPrefix hearlier hget⟩
    · have hid' : Mentioned id [.ruleRef k] (writes' ++ [(k, elements ++ [.stop])]) :=
        hid.mono (List.nil_subset _) (List.Subset.refl _)
      have hbody' (r : RuleId) (hr : .ruleRef r ∈ elements ++ [.stop]) :
          r = k ∨ .ruleRef r ∈ elements := by
        simpa [Element.ruleRef, Element.stop] using Or.inr hr
      rcases hid'.write_cases hbody' with rfl | hid
      · exact .inl (by simp)
      · refine (hbody.of_mentioned hid).imp (fun hid => by simp [hid]) ?_
        rintro ⟨name, hname, hget⟩
        exact ⟨d, List.mem_append_right _ List.mem_cons_self, name, hname, hget⟩

/-- A rule without a body that is referred to has a name that a definition refers to, and this is
neither the name of a definition nor that of a generated rule. -/
theorem exists_name_of_firstUndefined (h : ElaboratesAll defs names writes)
    (hsound : ∀ d ∈ defs, d.IsSound) {t : RuleTable} (hholds : t.Holds writes) {id : RuleId}
    (hid : t.FirstUndefined id) :
    ∃ name, names[id.toNat]? = some name ∧ name ≠ "" ∧ (∃ d ∈ defs, name ∈ d.body.refNames) ∧
      (∀ d ∈ defs, d.name ≠ name) ∧
      ∀ k, .allocated name k ∉ (Builder.empty.addDefinitions defs).1.events := by
  cases hid with
  | @intro front back before after hbodies hnone _ _ =>
    have hmissing : id ∉ writes.map Prod.fst := by
      rw [← hholds.isDefined_iff h.body_ne_nil, RuleTable.body?_eq_none_iff.1 hnone]
      exact Bool.false_ne_true
    have hmem : before ++ .ruleRef id :: after ∈ t.bodies := by simp [hbodies]
    have hmentioned : Mentioned id [] writes := by
      rcases hholds.mem_bodies hmem with hnil | ⟨k, hw⟩
      · simp at hnil
      · exact .inr (.inr ⟨_, hw, by simp⟩)
    obtain ⟨d, hd, name, hname, hget⟩ := (h.of_mentioned hmentioned).resolve_left hmissing
    refine ⟨name, hget, ?_, ⟨d, hd, hname⟩, ?_, ?_⟩
    · rintro rfl
      exact ((hsound d hd).refNames "" hname).ne_nil rfl
    · rintro d' hd' rfl
      obtain ⟨k, elements, hrep⟩ := h.exists_represents d' hd'
      obtain rfl := eq_of_getElem?_eq_some h.nodup hget hrep.name
      exact hmissing (List.mem_map_of_mem (f := Prod.fst) hrep.body)
    · intro k hk
      obtain ⟨hwritten, hget', -⟩ := h.mem_events_iff.1 hk
      obtain rfl := eq_of_getElem?_eq_some h.nodup hget hget'
      exact hmissing hwritten

/-- In tables without references to missing bodies, the rules with a body are those with a name. -/
theorem hasRule_iff_mem_names (h : ElaboratesAll defs names writes) (hsize : names.length ≤ 2 ^ 32)
    {b : Builder} (hnames : b.symbols.names = names) (hholds : b.rules.Holds writes)
    (hclosed : Closed writes) {name : String} : b.hasRule name = true ↔ name ∈ b.symbols.names := by
  subst hnames
  rw [hholds.hasRule_iff h.body_ne_nil]
  constructor
  · rintro ⟨id, -, hid⟩
    by_contra hname
    rw [SymbolTable.id?_eq_none_iff.2 hname] at hid
    cases hid
  · intro hname
    obtain ⟨id, hid⟩ := Option.ne_none_iff_exists'.1 fun hnone =>
      SymbolTable.id?_eq_none_iff.1 hnone hname
    have hget := (SymbolTable.id?_eq_some_iff h.nodup hsize).1 hid
    exact ⟨id, (h.mem_writes_iff hclosed).2 (List.getElem?_eq_some_iff.1 hget).1, hid⟩

end ElaboratesAll

/-! ### Compilation -/

variable {source : String} {options : CompileOptions} {b : Builder}

/-- A text that is read without an error is judged by its tables. -/
theorem compile_eq_check (h : parse options.maxNesting source = (b, none)) :
    compile source options = b.check options := by
  unfold compile run
  simp only [h, Builder.finish]
  cases hcheck : b.check options <;> rfl

/-- The log of a text that is refused for its tables is that of its definitions. -/
theorem run_events_of_parse_eq {error : CompileError}
    (h : parse options.maxNesting source = (b, none))
    (herror : compile source options = .error error) : (run options source).events = b.events := by
  have hcheck := (compile_eq_check h).symm.trans herror
  simp only [run, h, Builder.finish, hcheck, Builder.fail]

theorem readDefinitions_eq_nil_iff {limit : ℕ} {text : List Char} :
    readDefinitions limit text = ⟨[], none⟩ ↔ text = [] := by
  rw [readDefinitions_eq_iff]
  constructor
  · intro h
    cases h
    rfl
  · rintro rfl
    exact .nil

theorem Reading.build_eq_emptyGrammar_iff {text : List Char} {r : Reading} :
    (r.build text).2 = some .emptyGrammar ↔ r = ⟨[], none⟩ := by
  constructor
  · intro h
    obtain ⟨defs, refusal⟩ := r
    unfold build at h
    split at h
    · cases h
    · split at h
      · rename_i hrefusal
        cases hrefusal
        cases defs with
        | nil => rfl
        | cons d defs => cases h
      · cases h
      · split at h <;> cases h
  · rintro rfl
    rfl

/-- A text is refused as empty exactly if there is nothing in it but blanks and comments. -/
theorem compile_eq_emptyGrammar_iff :
    compile source options = .error .emptyGrammar ↔ Spacing.anyLine.skip source.toList = [] := by
  have hparse : (parse options.maxNesting source).2 = some .emptyGrammar ↔
      Spacing.anyLine.skip source.toList = [] := by
    rw [parse, Reading.build_eq_emptyGrammar_iff, read, readDefinitions_eq_nil_iff]
  rw [← hparse]
  refine ⟨fun h => ?_, compile_of_parse_eq_error⟩
  cases hresult : (parse options.maxNesting source).2 with
  | some error =>
    rw [compile_of_parse_eq_error hresult] at h
    cases h
    rfl
  | none =>
    -- the check of the tables gives other errors
    rw [compile_eq_check (Prod.ext rfl hresult)] at h
    rcases Builder.check_cases _ options with ⟨_, hcheck⟩ | ⟨_, hcheck⟩ | hcheck <;>
      rw [hcheck] at h <;> cases h

/-- **What is wrong with the tables of a text that is well formed is a rule without a body.**  A
text is refused as empty exactly if there is nothing in it but blanks and comments.  If it is read
without an error, then it is refused for an undefined rule exactly if a body refers to a rule
without a body; the name is that of the first such rule, it is not empty, some definition refers to
it, and it is neither the name of a definition nor that of a generated rule.  Otherwise it is
refused for a start rule exactly if one is asked for that is not in the tables.  Otherwise the
tables are the result. -/
theorem compile_semantic_error (source : String) (options : CompileOptions)
    (hlen : source.length < 2 ^ 32) :
    (compile source options = .error .emptyGrammar ↔ Spacing.anyLine.skip source.toList = []) ∧
    ∀ b, parse options.maxNesting source = (b, none) →
      ((∃ name, compile source options = .error (.undefinedRule name)) ↔
        ∃ body ∈ b.rules.bodies, ∃ id, .ruleRef id ∈ body ∧ b.rules.body? id = none) ∧
      (∀ name, compile source options = .error (.undefinedRule name) →
        (∃ id, b.rules.FirstUndefined id ∧ b.symbols.name? id = some name) ∧ name ≠ "" ∧
        ∃ defs, SourceText options.maxNesting defs source.toList ∧
          (∃ d ∈ defs, name ∈ d.body.refNames) ∧ (∀ d ∈ defs, d.name ≠ name) ∧
          ∀ id, .allocated name id ∉ (run options source).events) ∧
      (∀ name, compile source options = .error (.missingStartRule name) ↔
        (∀ body ∈ b.rules.bodies, b.rules.Resolves body) ∧ options.startRule = some name ∧
          b.symbols.id? name = none) ∧
      ((∀ name, compile source options ≠ .error (.undefinedRule name)) →
        (∀ name, compile source options ≠ .error (.missingStartRule name)) →
        compile source options = .ok ⟨b.symbols, b.rules⟩) := by
  refine ⟨compile_eq_emptyGrammar_iff, fun b hparse => ?_⟩
  obtain ⟨defs, writes, hsource, hall, hholds⟩ := exists_elaboratesAll_of_parse_eq hlen hparse
  have hsize : b.symbols.size ≤ 2 ^ 32 := size_symbols_le_of_parse_eq hlen hparse
  rw [compile_eq_check hparse]
  refine ⟨Builder.exists_check_eq_undefinedRule_iff, fun name hname => ?_, fun name => ?_,
    fun hundefined hmissing => ?_⟩
  · obtain ⟨id, hid, hget⟩ := Builder.check_eq_undefinedRule_iff.1 hname
    obtain ⟨name', hget', hne, href, hdefs, hevents⟩ :=
      hall.exists_name_of_firstUndefined hsource.isSound hholds hid
    have hname? : b.symbols.name? id = some name' := hget'
    rw [hname?, Option.getD_some] at hget
    subst hget
    refine ⟨⟨id, hid, hname?⟩, hne, defs, hsource, href, hdefs, fun k => ?_⟩
    rw [run_events_of_parse_eq hparse ((compile_eq_check hparse).trans hname)]
    have hb := hparse
    rw [parse, (read_eq_iff.2 hsource).2, build_eq_none_iff] at hb
    have hadd := hb.2.2
    rw [hadd] at hevents
    exact hevents k
  · rw [Builder.check_eq_missingStartRule_iff]
    refine and_congr_right fun hresolves => and_congr_right fun _ => ?_
    have hclosed : Closed writes := by
      rw [← hholds.firstUndefined?_eq_none_iff hall.body_ne_nil]
      exact Builder.firstUndefined?_eq_none_iff.2 hresolves
    rw [SymbolTable.id?_eq_none_iff, ← hall.hasRule_iff_mem_names hsize rfl hholds hclosed,
      Bool.not_eq_true]
  · rcases b.check_cases options with ⟨name, hname⟩ | ⟨name, hname⟩ | hok
    · exact absurd hname (hundefined name)
    · exact absurd hname (hmissing name)
    · exact hok

/-- Neither `b` nor `c` is defined.  The name `b` comes first in the text and has an empty slot, and
`c` has none; but the body of `a` comes first in the tables. -/
theorem compile_semantic_error_two_undefined :
    ∃ b, parse 64 "a ::= (b \"x\")* c" = (b, none) ∧ b.rules.size = 4 ∧
      compile "a ::= (b \"x\")* c" = .error (.undefinedRule "c") ∧
      (∃ id, b.rules.FirstUndefined id ∧ b.symbols.name? id = some "c") ∧
      ∃ defs, SourceText 64 defs "a ::= (b \"x\")* c".toList ∧
        (∃ d ∈ defs, "c" ∈ d.body.refNames) ∧ ∀ d ∈ defs, d.name ≠ "c" := by
  have hparse : parse 64 "a ::= (b \"x\")* c" = (⟨⟨["a", "a_1", "b", "a_3", "c"]⟩, ⟨[
      [.ruleRef 3, .ruleRef 4, .stop],
      [.ruleRef 2, .char 'x', .stop],
      [],
      [.ruleRef 1, .ruleRef 3, .alt, .stop]]⟩,
      [.allocated "a_1" 1, .allocated "a_3" 3, .compiledRule "a" 0]⟩, none) := by decide +kernel
  have hcompile : compile "a ::= (b \"x\")* c" = .error (.undefinedRule "c") := by decide +kernel
  obtain ⟨-, hparsed⟩ := compile_semantic_error "a ::= (b \"x\")* c" {} (by decide +kernel)
  obtain ⟨hfirst, -, defs, hsource, href, hdefs, -⟩ := (hparsed _ hparse).2.1 "c" hcompile
  exact ⟨_, hparse, rfl, hcompile, hfirst, defs, hsource, href, hdefs⟩

end EbnfTables
