import EbnfTables.Proofs.Language.Table
import EbnfTables.Proofs.Tables.WellFormed

/-!
# Compilation preserves languages

The words of a rule that is defined in a source are the words of its id in the tables.  Main
theorem: `compile_language_eq`.

Both languages are least solutions, so there are two inclusions, each between a least solution and
a solution of the other side:

* words of the tables, given to the names, solve the definitions (`Represents.language_le`).  A
  repetition is where this needs an argument: the rule of `E*` solves `X = E X + 1`, and `E*` is the
  least to do so;
* conversely a rule id gets the words that all expressions represented by it have in common
  (`commonLanguage`), and these solve the bodies (`Represents.le_language`).  This does not ask
  which of the expressions the rule was made for, and an id that stands for a repetition may occur
  in its own body.
-/

namespace EbnfTables

open scoped Computability

variable {names : List String} {writes : List (RuleId × Body)}

/-! ### The words of elements -/

theorem Body.language_map_char (T : RuleId → Language Char) (cs : List Char) :
    Body.language T (cs.map Element.char) = {cs} := by
  rw [← Row.elements_ofChars, Row.language_elements, Row.language_ofChars]

theorem Body.language_classElements (T : RuleId → Language Char) (L : String → Language Char)
    (negated : Bool) (ms : List Member) :
    Body.language T (classElements negated ms) = (Expr.charClass negated ms).language L := by
  rw [← Row.elements_ofClass, Row.language_elements, Row.language_ofClass T L]

theorem Body.language_nil (T : RuleId → Language Char) : Body.language T [] = 1 := by
  rw [← Row.elements_nil, Row.language_elements, Row.language_nil]

namespace Represents

variable (T : RuleId → Language Char) {before elements : Body}

/-- The end of a body adds nothing to its words. -/
theorem language_append_stop {level : Level} {e : Expr level}
    (h : Represents names writes e elements) :
    Body.language T (elements ++ [.stop]) = Body.language T elements := by
  obtain ⟨l, rfl, -⟩ := h.exists_layout
  rw [← Layout.body, Layout.language_body]

theorem language_append {front : Expr .sequence} {last : Expr .item}
    (hfront : Represents names writes front before)
    (hlast : Represents names writes last elements) :
    Body.language T (before ++ elements) = Body.language T before * Body.language T elements := by
  obtain ⟨row, rfl⟩ := hfront.exists_row (by simp)
  obtain ⟨row', rfl⟩ := hlast.exists_row (by simp)
  rw [← Row.elements_append, Row.language_elements, Row.language_append, Row.language_elements,
    Row.language_elements]

theorem language_bar {earlier : Expr .alternatives} {last : Expr .sequence}
    (hearlier : Represents names writes earlier before)
    (hlast : Represents names writes last elements) :
    Body.language T (before ++ .alt :: elements) =
      Body.language T before + Body.language T elements := by
  obtain ⟨l, rfl, -⟩ := hearlier.exists_layout
  obtain ⟨row, rfl⟩ := hlast.exists_row (by simp)
  rw [← Layout.elements_push, Layout.language_push, Row.language_elements]

theorem language_expansion {operand : Expr .item} (h : Represents names writes operand elements)
    (q : Quantifier) (id : RuleId) :
    Body.language T (q.expansion elements id) =
      q.unfolding (Body.language T elements) (T id) := by
  obtain ⟨row, rfl⟩ := h.exists_row (by simp)
  rw [q.language_expansion T row.isAlternative_elements id, row.stretchLanguage_elements T,
    Row.language_elements]

end Represents

/-! ### Words of the source are words of the tables -/

/-- The words of an expression are words of its elements, if this is so for the names and the tables
solve the bodies. -/
theorem Represents.language_le {level : Level} {e : Expr level} {elements : Body}
    {L : String → Language Char} {T : RuleId → Language Char}
    (h : Represents names writes e elements)
    (hnames : ∀ (id : RuleId) name, names[id.toNat]? = some name → L name ≤ T id)
    (hwrites : ∀ w ∈ writes, Body.language T w.2 ≤ T w.1) :
    e.language L ≤ Body.language T elements := by
  induction h with
  | literal => exact (Body.language_map_char T _).ge
  | charClass => exact (Body.language_classElements T L _ _).ge
  | @ref name id hid =>
    rw [Body.language_ruleRef]
    exact hnames id name hid
  | group hbody hw ih =>
    have hle := hwrites _ hw
    rw [hbody.language_append_stop] at hle
    rw [Body.language_ruleRef]
    exact ih.trans hle
  | @repeated q operand id elements hoperand hw ih =>
    -- the words of the generated rule contain a solution of the equation for the repetition
    have hle := hwrites _ hw
    rw [hoperand.language_expansion] at hle
    rw [Body.language_ruleRef, Expr.language_repeated]
    exact Quantifier.repetition_le ((Quantifier.unfolding_mono ih le_rfl).trans hle)
  | nothing => exact (Body.language_nil T).ge
  | snoc hfront hlast ihfront ihlast =>
    rw [hfront.language_append T hlast]
    exact mul_le_mul' ihfront ihlast
  | only _ ih => exact ih
  | orElse hearlier hlast ihearlier ihlast =>
    rw [hearlier.language_bar T hlast]
    exact add_le_add ihearlier ihlast

/-! ### Words of the tables are words of the source -/

/-- The words that all expressions that are represented by a reference to the rule have in
common. -/
def commonLanguage (names : List String) (writes : List (RuleId × Body)) (defs : List Definition)
    (id : RuleId) : Language Char :=
  {w | ∀ e : Expr .item, Represents names writes e [.ruleRef id] → e.Grounded defs →
    w ∈ e.language (sourceLanguage defs)}

theorem commonLanguage_le {defs : List Definition} {e : Expr .item} {id : RuleId}
    (h : Represents names writes e [.ruleRef id]) (he : e.Grounded defs) :
    commonLanguage names writes defs id ≤ e.language (sourceLanguage defs) :=
  fun _ hw => hw e h he

/-- With these words for the rules, the words of elements are words of the expression. -/
theorem Represents.le_language {defs : List Definition} {level : Level} {e : Expr level}
    {elements : Body} (h : Represents names writes e elements) (he : e.Grounded defs) :
    Body.language (commonLanguage names writes defs) elements ≤
      e.language (sourceLanguage defs) := by
  -- a reference has no more words than any expression it represents, so no body is looked at here
  induction h with
  | literal => exact (Body.language_map_char _ _).le
  | charClass => exact (Body.language_classElements _ _ _ _).le
  | ref hid =>
    rw [Body.language_ruleRef]
    exact commonLanguage_le (.ref hid) he
  | group hbody hw =>
    rw [Body.language_ruleRef]
    exact commonLanguage_le (.group hbody hw) he
  | repeated hoperand hw =>
    rw [Body.language_ruleRef]
    exact commonLanguage_le (.repeated hoperand hw) he
  | nothing => exact (Body.language_nil _).le
  | snoc hfront hlast ihfront ihlast =>
    obtain ⟨hefront, helast⟩ := List.forall_mem_append.1 he
    rw [hfront.language_append _ hlast]
    exact mul_le_mul' (ihfront hefront) (ihlast helast)
  | only _ ih => exact ih he
  | orElse hearlier hlast ihearlier ihlast =>
    obtain ⟨heearlier, helast⟩ := List.forall_mem_append.1 he
    rw [hearlier.language_bar _ hlast]
    exact add_le_add (ihearlier heearlier) (ihlast helast)

/-- With these words for the rules, the body of a repetition has only words of the repetition. -/
theorem Represents.language_expansion_le {defs : List Definition} {q : Quantifier}
    {operand : Expr .item} {id : RuleId} {elements : Body}
    (h : Represents names writes operand elements) (hw : (id, q.expansion elements id) ∈ writes)
    (he : operand.Grounded defs) :
    Body.language (commonLanguage names writes defs) (q.expansion elements id) ≤
      (Expr.repeated q operand).language (sourceLanguage defs) := by
  -- the body refers to the rule itself, whose words are among those of this very repetition
  have hself := commonLanguage_le (.repeated h hw) he
  rw [Expr.language_repeated] at hself ⊢
  rw [h.language_expansion, ← q.unfolding_repetition]
  exact Quantifier.unfolding_mono (h.le_language he) hself

/-! ### Both are the same -/

section Compiled

variable {options : CompileOptions} {source : String} {defs : List Definition} {g : Grammar}

/-- The words of the tables solve the definitions. -/
theorem CompilesTo.sourceLanguage_le (h : CompilesTo options source defs writes g) {id : RuleId}
    {name : String} (hid : g.symbols.names[id.toNat]? = some name) :
    sourceLanguage defs name ≤ g.language id := by
  -- each name has the words of all ids with this name, of which there is only one
  let L : String → Language Char := fun name =>
    {w | ∃ k : RuleId, g.symbols.names[k.toNat]? = some name ∧ w ∈ g.language k}
  have hL {k : RuleId} {name : String} (hk : g.symbols.names[k.toNat]? = some name) :
      L name ≤ g.language k := by
    rintro w ⟨l, hl, hw⟩
    rwa [eq_of_getElem?_eq_some h.elaborates.nodup hk hl]
  suffices hsolves : ∀ d ∈ defs, d.body.language L ≤ L d.name from
    (EbnfTables.sourceLanguage_le hsolves name).trans (hL hid)
  intro d hd w hw
  obtain ⟨k, elements, hrep⟩ := h.elaborates.exists_represents d hd
  refine ⟨k, hrep.name, ?_⟩
  have hle := hrep.represents.language_le (fun _ _ => hL) fun w hw => by
    rw [← Grammar.language_eq (h.rule?_eq_some_iff.2 hw)]
  rw [Grammar.language_eq (h.rule?_eq_some_iff.2 hrep.body)]
  rw [hrep.represents.language_append_stop]
  exact hle hw

/-- If all names are defined, the words that expressions have in common solve the bodies. -/
theorem CompilesTo.language_le (h : CompilesTo options source defs writes g)
    (hground : ∀ d ∈ defs, d.body.Grounded defs) :
    g.language ≤ commonLanguage g.symbols.names writes defs := by
  refine Grammar.language_le fun id body hbody w hw e hrep he => ?_
  rw [h.rule?_eq_some_iff] at hbody
  have hbody_eq {body' : Body} (hw' : (id, body') ∈ writes) : body = body' := by
    rw [← h.holds.slot_of_mem id body hbody, h.holds.slot_of_mem id body' hw']
  -- a single reference may be that of a name, of a group, or of a repetition
  generalize hels : [Element.ruleRef id] = elements at hrep
  cases hrep with
  | @literal cs =>
    obtain ⟨c, -, hc⟩ := List.mem_map.1 (hels ▸ List.mem_singleton_self (Element.ruleRef id))
    cases hc
  | charClass =>
    cases isChar_of_mem_classElements (hels ▸ List.mem_singleton_self (Element.ruleRef id))
  | @ref name id' hid =>
    obtain rfl : id = id' := congrArg Element.value (List.singleton_inj.1 hels)
    obtain ⟨d, hd, rfl⟩ := he name List.mem_cons_self
    obtain ⟨k, elements, hd'⟩ := h.elaborates.exists_represents d hd
    obtain rfl : id = k := eq_of_getElem?_eq_some h.elaborates.nodup hid hd'.name
    obtain rfl := hbody_eq hd'.body
    rw [hd'.represents.language_append_stop] at hw
    have hle := hd'.represents.le_language (hground d hd)
    exact language_body_le_sourceLanguage hd (hle hw)
  | @group _ id' elements hgroup hw' =>
    obtain rfl : id = id' := congrArg Element.value (List.singleton_inj.1 hels)
    obtain rfl := hbody_eq hw'
    rw [hgroup.language_append_stop] at hw
    exact hgroup.le_language he hw
  | @repeated q operand id' elements hoperand hw' =>
    obtain rfl : id = id' := congrArg Element.value (List.singleton_inj.1 hels)
    obtain rfl := hbody_eq hw'
    exact hoperand.language_expansion_le hw' he hw

/-- **Compilation preserves the language of every rule that is defined in the source**, provided
that all names in the source are defined there. -/
theorem compile_language_eq (source : String) (options : CompileOptions) (g : Grammar)
    (hlen : source.length < 2 ^ 32) (hok : compile source options = .ok g) :
    ∃ defs, SourceText options.maxNesting defs source.toList ∧
      ((∀ d ∈ defs, d.body.Grounded defs) → ∀ d ∈ defs, ∃ id,
        g.id? d.name = some id ∧ sourceLanguage defs d.name = g.language id) := by
  obtain ⟨defs, writes, h⟩ := exists_compilesTo hlen hok
  refine ⟨defs, h.sourceText, fun hground d hd => ?_⟩
  obtain ⟨id, elements, hrep⟩ := h.elaborates.exists_represents d hd
  refine ⟨id, ?_, le_antisymm (h.sourceLanguage_le hrep.name) ?_⟩
  · exact (SymbolTable.id?_eq_some_iff h.elaborates.nodup (h.size_symbols_le hlen)).2 hrep.name
  · refine (h.language_le hground id).trans (commonLanguage_le (.ref hrep.name) ?_)
    intro name hname
    obtain rfl := List.mem_singleton.1 hname
    exact ⟨d, hd, rfl⟩

/-- A group with a repetition of itself, and a negated range. -/
theorem language_eq_group_and_range :
    ∃ g defs, compile "a ::= (\"x\" | b)*\nb ::= [^a-c]?" = .ok g ∧
      SourceText 64 defs "a ::= (\"x\" | b)*\nb ::= [^a-c]?".toList ∧
        ∀ d ∈ defs, ∃ id,
          g.id? d.name = some id ∧ sourceLanguage defs d.name = g.language id := by
  have hok : ∃ g, compile "a ::= (\"x\" | b)*\nb ::= [^a-c]?" = .ok g :=
    ⟨⟨⟨["a", "a_1", "b", "a_3", "b_4"]⟩, ⟨[
      [.ruleRef 3, .stop],
      [.char 'x', .alt, .ruleRef 2, .stop],
      [.ruleRef 4, .stop],
      [.ruleRef 1, .ruleRef 3, .alt, .stop],
      [⟨.charNot, 97⟩, ⟨.rangeUpper, 99⟩, .alt, .stop]]⟩⟩, by decide +kernel⟩
  obtain ⟨g, hg⟩ := hok
  obtain ⟨defs, hsource, h⟩ := compile_language_eq _ _ g (by decide +kernel) hg
  refine ⟨g, defs, hg, hsource, h ?_⟩
  have hread := (read_eq_iff.2 hsource).2
  have hground : ∀ d ∈ (read 64 "a ::= (\"x\" | b)*\nb ::= [^a-c]?".toList).definitions,
      d.body.Grounded (read 64 "a ::= (\"x\" | b)*\nb ::= [^a-c]?".toList).definitions := by
    decide +kernel
  rw [show (64 : ℕ) = ({} : CompileOptions).maxNesting from rfl, hread] at hground
  exact hground

end Compiled

end EbnfTables
