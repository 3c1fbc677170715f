import EbnfTables.Proofs.Tables.Building

/-!
# Compilation

`CompilesTo options source defs writes g` collects what a successful compilation means: the text is
a source, its definitions are elaborated into the tables of `g`, these are closed, and the start
rule that was asked for has a body.  A compilation succeeds exactly in this case
(`exists_compilesTo`, `CompilesTo.compile_eq_ok`).

The fields are all that later modules use of a compiled grammar.
-/

namespace EbnfTables

/-- Every rule that is referred to is among the bodies. -/
def Closed (writes : List (RuleId × Body)) : Prop :=
  ∀ w ∈ writes, ∀ e ∈ w.2, e.kind = .ruleRef → e.value ∈ writes.map Prod.fst

/-- `source` is the row of definitions `defs`, and `g` are their tables. -/
structure CompilesTo (options : CompileOptions) (source : String) (defs : List Definition)
    (writes : List (RuleId × Body)) (g : Grammar) : Prop where
  sourceText : SourceText options.maxNesting defs source.toList
  elaborates : ElaboratesAll defs g.symbols.names writes
  holds : g.rules.Holds writes
  closed : Closed writes
  start : ∀ name, options.startRule = some name →
    ∃ id ∈ writes.map Prod.fst, g.symbols.id? name = some id

namespace RuleTable.Holds

variable {t : RuleTable} {writes : List (RuleId × Body)}

theorem size_le (h : t.Holds writes) : t.size ≤ 2 ^ 32 :=
  (h.size_le_iff _).2 fun id _ => id.toNat_lt

theorem getElem_eq_slot (h : t.Holds writes) {i : ℕ} (hi : i < t.bodies.length) :
    t.bodies[i] = t.slot i.toUInt32 := by
  rw [slot, toNat_toUInt32_of_lt (lt_of_lt_of_le hi h.size_le), List.getD_eq_getElem?_getD,
    List.getElem?_eq_getElem hi, Option.getD_some]

/-- The table lists the bodies that were written, and empty slots. -/
theorem mem_bodies (h : t.Holds writes) {body : Body} (hbody : body ∈ t.bodies) :
    body = [] ∨ ∃ id, (id, body) ∈ writes := by
  obtain ⟨i, hi, rfl⟩ := List.getElem_of_mem hbody
  rw [h.getElem_eq_slot hi]
  by_cases hid : i.toUInt32 ∈ writes.map Prod.fst
  · obtain ⟨w, hw, hfst⟩ := List.mem_map.1 hid
    rw [← hfst, h.slot_of_mem w.1 w.2 hw]
    exact .inr ⟨w.1, hw⟩
  · exact .inl (h.slot_of_notMem _ hid)

theorem mem_bodies_of_mem (h : t.Holds writes) {id : RuleId} {body : Body}
    (hw : (id, body) ∈ writes) : body ∈ t.bodies := by
  have hid : id ∈ writes.map Prod.fst := List.mem_map_of_mem (f := Prod.fst) hw
  have hlt : id.toNat < t.bodies.length := (h.size_le_iff t.size).1 le_rfl id hid
  rw [← h.slot_of_mem id body hw, slot, List.getD_eq_getElem?_getD, List.getElem?_eq_getElem hlt,
    Option.getD_some]
  exact List.getElem_mem hlt

/-- No reference lacks a body if and only if the bodies are closed. -/
theorem firstUndefined?_eq_none_iff {b : Builder} (h : b.rules.Holds writes)
    (hne : ∀ w ∈ writes, w.2 ≠ []) : b.firstUndefined? = none ↔ Closed writes := by
  simp only [Builder.firstUndefined?, Option.map_eq_none_iff, List.find?_eq_none,
    List.mem_flatten, decide_eq_true_eq, not_and, Bool.not_eq_false, h.isDefined_iff hne,
    forall_exists_index, and_imp]
  constructor
  · intro hall w hw e he
    exact hall e w.2 (h.mem_bodies_of_mem hw) he
  · intro hclosed e body hbody he
    rcases h.mem_bodies hbody with rfl | ⟨id, hw⟩
    · cases he
    · exact hclosed (id, body) hw e he

theorem hasRule_iff {b : Builder} (h : b.rules.Holds writes) (hne : ∀ w ∈ writes, w.2 ≠ [])
    {name : String} :
    b.hasRule name = true ↔ ∃ id ∈ writes.map Prod.fst, b.symbols.id? name = some id := by
  unfold Builder.hasRule
  cases hid : b.symbols.id? name with
  | none => simp
  | some id => simp [h.isDefined_iff hne]

end RuleTable.Holds

theorem check_eq_ok_iff {b : Builder} {options : CompileOptions} {g : Grammar}
    {writes : List (RuleId × Body)} (h : b.rules.Holds writes) (hne : ∀ w ∈ writes, w.2 ≠ []) :
    b.check options = .ok g ↔ g = ⟨b.symbols, b.rules⟩ ∧ Closed writes ∧
      ∀ name, options.startRule = some name →
        ∃ id ∈ writes.map Prod.fst, b.symbols.id? name = some id := by
  rw [← h.firstUndefined?_eq_none_iff hne]
  unfold Builder.check
  cases hundefined : b.firstUndefined? with
  | some id => simp
  | none =>
    cases hstart : options.startRule with
    | none => simp [eq_comm]
    | some name =>
      have hrule : b.hasRule name = true ↔ _ := h.hasRule_iff hne
      by_cases hb : b.hasRule name = true
      · simp only [hb, if_true, Except.ok.injEq, Option.some.injEq, forall_eq', true_and]
        exact ⟨fun hg => ⟨hg.symm, hrule.1 hb⟩, fun hg => hg.1.symm⟩
      · simp only [hb, if_false, reduceCtorEq, false_iff]
        rintro ⟨-, -, hall⟩
        exact hb (hrule.2 (hall name rfl))

theorem compile_eq_ok_iff_parse {source : String} {options : CompileOptions} {g : Grammar} :
    compile source options = .ok g ↔
      ∃ b, parse options.maxNesting source = (b, none) ∧ b.check options = .ok g := by
  unfold compile run
  cases hparse : parse options.maxNesting source with
  | mk b error =>
    cases error with
    | some error => simp [Builder.fail]
    | none =>
      simp only [Builder.finish, Builder.fail]
      cases hcheck : b.check options with
      | error error => simp [hcheck]
      | ok g' => simp [hcheck]

/-- The check of the tables blames no place. -/
theorem position?_of_check_eq_error {b : Builder} {options : CompileOptions} {e : CompileError}
    (h : b.check options = .error e) : e.position? = none := by
  unfold Builder.check at h
  split at h
  · cases h; rfl
  · split at h
    · cases h
    · split at h <;> cases h
      rfl

/-- An error with a place arises before the tables are checked. -/
theorem parse_eq_of_compile_eq_error {source : String} {options : CompileOptions}
    {e : CompileError} (h : compile source options = .error e) (hplace : e.position? ≠ none) :
    (parse options.maxNesting source).2 = some e := by
  unfold compile run at h
  cases hparse : parse options.maxNesting source with
  | mk b error =>
    simp only [hparse] at h
    cases error with
    | some error =>
      cases h
      rfl
    | none =>
      simp only [Builder.finish] at h
      cases hcheck : b.check options with
      | ok g =>
        rw [hcheck] at h
        cases h
      | error e' =>
        rw [hcheck] at h
        cases h
        exact absurd (position?_of_check_eq_error hcheck) hplace

/-- What the text of a reading is refused for, and the end part of the text that is blamed. -/
inductive Reading.Refuses (text : List Char) (r : Reading) : CompileError → List Char → Prop
  /-- A definition whose rule has a body already is blamed on its name. -/
  | duplicate {d : Definition} (hd : d ∈ r.definitions) :
      Refuses text r (.duplicateRule d.name (.ofRest text d.site)) d.site
  /-- Such a definition may be wrong behind its name as well. -/
  | openDuplicate {refusal : Refusal} {d : OpenDefinition} (h : r.refusal = some refusal)
      (hd : refusal.begun = some d) :
      Refuses text r (.duplicateRule d.name (.ofRest text d.site)) d.site
  | malformed {refusal : Refusal} (h : r.refusal = some refusal) :
      Refuses text r (.malformed refusal.fault.error (.ofRest text refusal.fault.site))
        refusal.fault.site

theorem Reading.Refuses.position?_eq {text site : List Char} {r : Reading} {e : CompileError}
    (h : r.Refuses text e site) : e.position? = some (.ofRest text site) := by
  cases h <;> rfl

/-- An error with a place is one of the text. -/
theorem Reading.exists_refuses_of_build_eq_error {text : List Char} {r : Reading}
    {e : CompileError} (h : (r.build text).2 = some e) (hplace : e.position? ≠ none) :
    ∃ site, r.Refuses text e site := by
  unfold Reading.build at h
  split at h
  · rename_i b d hadd
    cases h
    obtain ⟨front, back, -, hdefinitions, -⟩ := Builder.exists_of_addDefinitions_eq_some hadd
    exact ⟨d.site, .duplicate (by rw [hdefinitions]; simp)⟩
  · split at h
    · split at h <;> cases h
      exact absurd rfl hplace
    · rename_i fault hrefusal
      cases h
      exact ⟨fault.site, .malformed hrefusal⟩
    · rename_i fault d hrefusal
      split at h
      · cases h
        exact ⟨d.site, .openDuplicate hrefusal rfl⟩
      · cases h
        exact ⟨fault.site, .malformed hrefusal⟩

theorem exists_refuses_of_compile_eq_error {source : String} {options : CompileOptions}
    {e : CompileError} (h : compile source options = .error e) (hplace : e.position? ≠ none) :
    ∃ site, (read options.maxNesting source.toList).Refuses source.toList e site :=
  Reading.exists_refuses_of_build_eq_error (parse_eq_of_compile_eq_error h hplace) hplace

/-- What the check of the tables gives are the tables. -/
theorem eq_of_check_eq_ok {b : Builder} {options : CompileOptions} {g : Grammar}
    (h : b.check options = .ok g) : g = ⟨b.symbols, b.rules⟩ := by
  unfold Builder.check at h
  split at h
  · cases h
  · split at h
    · cases h; rfl
    · split at h <;> cases h
      rfl

/-- What was compiled compiles from its definitions, if the ids sufficed. -/
theorem exists_compilesTo_of_size_le {source : String} {options : CompileOptions} {g : Grammar}
    (hsize : g.symbols.size ≤ 2 ^ 32) (h : compile source options = .ok g) :
    ∃ defs writes, CompilesTo options source defs writes g := by
  obtain ⟨b, hparse, hcheck⟩ := compile_eq_ok_iff_parse.1 h
  have hg := eq_of_check_eq_ok hcheck
  subst hg
  obtain ⟨defs, writes, hsource, hall, hholds⟩ := exists_elaboratesAll_of_size_le hsize hparse
  obtain ⟨-, hclosed, hstart⟩ := (check_eq_ok_iff hholds hall.body_ne_nil).1 hcheck
  exact ⟨defs, writes, hsource, hall, hholds, hclosed, hstart⟩

/-- There are no more names than characters. -/
theorem size_symbols_le_length {source : String} {options : CompileOptions} {g : Grammar}
    (h : compile source options = .ok g) : g.symbols.size ≤ source.length := by
  obtain ⟨b, hparse, hcheck⟩ := compile_eq_ok_iff_parse.1 h
  have hsize := size_parse_le options.maxNesting source
  rw [hparse] at hsize
  rwa [eq_of_check_eq_ok hcheck]

/-- The ids suffice for a text that is short enough. -/
theorem size_symbols_le_of_compile_eq_ok {source : String} {options : CompileOptions} {g : Grammar}
    (hlen : source.length < 2 ^ 32) (h : compile source options = .ok g) :
    g.symbols.size ≤ 2 ^ 32 :=
  (size_symbols_le_length h).trans hlen.le

theorem exists_compilesTo {source : String} {options : CompileOptions} {g : Grammar}
    (hlen : source.length < 2 ^ 32) (h : compile source options = .ok g) :
    ∃ defs writes, CompilesTo options source defs writes g :=
  exists_compilesTo_of_size_le (size_symbols_le_of_compile_eq_ok hlen h) h

/-- A source whose definitions can be elaborated into closed tables compiles. -/
theorem CompilesTo.compile_eq_ok {source : String} {options : CompileOptions} {g : Grammar}
    {defs : List Definition} {writes : List (RuleId × Body)}
    (h : CompilesTo options source defs writes g) : compile source options = .ok g := by
  obtain ⟨events, hparse⟩ := parse_eq_of_elaboratesAll h.sourceText h.elaborates h.holds
  refine compile_eq_ok_iff_parse.2 ⟨_, hparse, ?_⟩
  rw [check_eq_ok_iff h.holds h.elaborates.body_ne_nil]
  exact ⟨rfl, h.closed, h.start⟩

/-- The rules of a compiled grammar are the bodies that were written. -/
theorem CompilesTo.rule?_eq_some_iff {source : String} {options : CompileOptions} {g : Grammar}
    {defs : List Definition} {writes : List (RuleId × Body)}
    (h : CompilesTo options source defs writes g) {id : RuleId} {body : Body} :
    g.rule? id = some body ↔ (id, body) ∈ writes := by
  have hdefined : g.rules.isDefined id = true ↔ _ := h.holds.isDefined_iff h.elaborates.body_ne_nil
  rw [Grammar.rule?, RuleTable.body?]
  constructor
  · intro hbody
    split at hbody
    · rename_i hid
      obtain ⟨w, hw, rfl⟩ := List.mem_map.1 (hdefined.1 hid)
      rw [h.holds.slot_of_mem w.1 w.2 hw, Option.some.injEq] at hbody
      rwa [← hbody]
    · cases hbody
  · intro hw
    have hid : id ∈ writes.map Prod.fst := List.mem_map_of_mem (f := Prod.fst) hw
    rw [if_pos (hdefined.2 hid), h.holds.slot_of_mem id body hw]

end EbnfTables
