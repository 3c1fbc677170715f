import EbnfTables.Proofs.Tables.Flattening
import EbnfTables.Proofs.Tables.Journal
import EbnfTables.Proofs.Tables.Log

/-!
# The size of the tables

Groups and quantifiers do not make the tables grow beyond their source, however they are nested.

The one place where elements are copied is `+`, which repeats its operand twice.  But then a single
reference takes the place of the operand, so nothing is copied twice.  The bound that carries the
induction counts the elements that were not stored yet twice, once for their place in a body and
once for the copy (`Elaborates.elementCount_le`).  The step for `+` uses up all five that its sign
allows.

Ids are places in the symbol table.  The journal of a compilation shows that no id is truncated when
it is given out, as there are no more names than characters.

Main theorem: `tables_size_le`.
-/

namespace EbnfTables

/-! ### The number of elements -/

/-- The number of elements in bodies. -/
def elementCount (writes : List (RuleId × Body)) : ℕ := (writes.map fun w => w.2.length).sum

@[simp] theorem elementCount_nil : elementCount [] = 0 := rfl

@[simp] theorem elementCount_append (writes writes' : List (RuleId × Body)) :
    elementCount (writes ++ writes') = elementCount writes + elementCount writes' := by
  simp [elementCount]

@[simp] theorem elementCount_singleton (id : RuleId) (body : Body) :
    elementCount [(id, body)] = body.length := by
  simp [elementCount]

theorem Member.length_elements_le (m : Member) (kind : ElementKind) :
    (m.elements kind).length ≤ m.span := by
  cases m <;> simp [elements, span]

theorem length_classElements_le (negated : Bool) (ms : List Member) :
    (classElements negated ms).length ≤ (ms.map Member.span).sum := by
  have hrest (ms : List Member) :
      (ms.flatMap (Member.elements .charAlt)).length ≤ (ms.map Member.span).sum := by
    induction ms with
    | nil => exact le_rfl
    | cons m ms ih =>
      have := m.length_elements_le .charAlt
      rw [List.flatMap_cons, List.length_append, List.map_cons, List.sum_cons]
      omega
  cases ms with
  | nil => exact le_rfl
  | cons m ms =>
    have := m.length_elements_le (if negated then .charNot else .char)
    have := hrest ms
    rw [classElements, List.length_append, List.map_cons, List.sum_cons]
    omega

theorem Quantifier.length_expansion_le (q : Quantifier) (operand : Body) (id : RuleId) :
    (q.expansion operand id).length ≤ 2 * operand.length + 3 := by
  cases q <;> simp only [expansion, List.length_append, List.length_cons, List.length_nil] <;> omega

/-- **An expression gives at most five elements for a character**, if those that are not stored yet
are counted twice. -/
theorem Elaborates.elementCount_le {base : String} {level : Level} {e : Expr level}
    {names names' : List String} {elements : Body} {writes : List (RuleId × Body)}
    (h : Elaborates base e names elements names' writes) :
    elementCount writes + 2 * elements.length ≤ 5 * e.span := by
  induction h with
  | literal =>
    simp only [elementCount_nil, List.length_map, Expr.span]
    omega
  | @charClass negated ms _ =>
    have := length_classElements_le negated ms
    simp only [elementCount_nil, Expr.span]
    omega
  | ref =>
    simp only [elementCount_nil, List.length_singleton, Expr.span]
    omega
  | nothing => exact le_rfl
  | group _ _ ih =>
    simp only [elementCount_append, elementCount_singleton, List.length_append,
      List.length_singleton, Expr.span]
    omega
  | @repeated q operand id _ _ _ elements writes _ _ ih =>
    -- the elements of the operand are counted twice already, and two of them are stored
    have := q.length_expansion_le elements id
    simp only [elementCount_append, elementCount_singleton, List.length_singleton, Expr.span]
    omega
  | snoc _ _ ihfront ihlast =>
    simp only [elementCount_append, List.length_append, Expr.span]
    omega
  | only _ ih => exact ih
  | orElse _ _ ihearlier ihlast =>
    simp only [elementCount_append, List.length_append, List.length_cons, Expr.span]
    omega

theorem ElaboratesAll.elementCount_le {defs : List Definition} {names : List String}
    {writes : List (RuleId × Body)} (h : ElaboratesAll defs names writes) :
    elementCount writes ≤ 5 * span defs := by
  induction h with
  | nil => exact le_rfl
  | snoc _ _ _ hbody ih =>
    have := hbody.elementCount_le
    simp only [elementCount_append, elementCount_singleton, List.length_append,
      List.length_singleton, span_concat]
    omega

/-! ### Compiled grammars -/

namespace CompilesTo

variable {source : String} {options : CompileOptions} {g : Grammar} {defs : List Definition}
  {writes : List (RuleId × Body)}

/-- A compiled grammar has the bodies that were written, in the order of their ids. -/
theorem bodies_perm (h : CompilesTo options source defs writes g)
    (hlen : source.length < 2 ^ 32) : g.rules.bodies.Perm (writes.map Prod.snd) := by
  have hbodies : g.rules.bodies = (List.range g.size).map fun i => g.rules.slot i.toUInt32 := by
    refine List.ext_getElem (by simp [Grammar.size, RuleTable.size]) fun i hi _ => ?_
    rw [h.holds.getElem_eq_slot hi, List.getElem_map, List.getElem_range]
  have hwrites : writes.map Prod.snd =
      ((writes.map Prod.fst).map UInt32.toNat).map fun i => g.rules.slot i.toUInt32 := by
    rw [List.map_map, List.map_map]
    refine List.map_congr_left fun w hw => ?_
    simp [h.holds.slot_of_mem w.1 w.2 hw]
  rw [hbodies, hwrites]
  exact ((h.map_toNat_writes_perm hlen).map _).symm

theorem length_flatten (h : CompilesTo options source defs writes g)
    (hlen : source.length < 2 ^ 32) : g.flatten.elements.length = elementCount writes := by
  rw [g.holds_flatten.elements_eq, List.length_flatten,
    ((h.bodies_perm hlen).map List.length).sum_nat, List.map_map]
  rfl

theorem length_flatten_le (h : CompilesTo options source defs writes g)
    (hlen : source.length < 2 ^ 32) : g.flatten.elements.length ≤ 5 * source.length := by
  have hspan := h.sourceText.span_le
  rw [String.length_toList] at hspan
  rw [h.length_flatten hlen]
  exact h.elaborates.elementCount_le.trans (Nat.mul_le_mul_left 5 hspan)

theorem size_le_length (h : CompilesTo options source defs writes g)
    (hlen : source.length < 2 ^ 32) : g.size ≤ source.length := by
  rw [← h.size_eq hlen]
  exact size_symbols_le_length h.compile_eq_ok

end CompilesTo

/-- **The tables do not grow beyond their source, and no id is truncated.**  A grammar that was
compiled has no more rules than its source has characters, and at most five times as many elements.
In the journal of a compilation, whether it succeeds or not, each id that is given out is the number
of the names at that time; so the ids are given out one after the other, and neither two ids nor two
names are the same. -/
theorem tables_size_le (source : String) (options : CompileOptions)
    (hlen : source.length < 2 ^ 32) :
    (∀ g, compile source options = .ok g →
      g.size ≤ source.length ∧ g.flatten.elements.length ≤ 5 * source.length) ∧
    (journal options.maxNesting source).tables = (parse options.maxNesting source).1 ∧
    (∀ e ∈ (journal options.maxNesting source).entries, ∀ id, e.newId? = some id →
      id.toNat = e.before.symbols.size) ∧
    (journal options.maxNesting source).newIds.map UInt32.toNat =
      List.range (parse options.maxNesting source).1.symbols.size ∧
    (parse options.maxNesting source).1.symbols.size ≤ source.length ∧
    (journal options.maxNesting source).newIds.Nodup ∧
    (parse options.maxNesting source).1.symbols.names.Nodup := by
  have hsound := isSound_journal options.maxNesting hlen
  have htables : (journal options.maxNesting source).tables = (parse options.maxNesting source).1 :=
    Reading.tables_journal _ _
  have hnewIds := hsound.newIds
  have hnodup := hsound.nodup
  rw [htables] at hnewIds hnodup
  refine ⟨fun g hg => ?_, htables, fun e he id hid => ((hsound.entries e he).newId id hid).1,
    hnewIds, size_parse_le _ _, ?_, hnodup⟩
  · obtain ⟨defs, writes, h⟩ := exists_compilesTo hlen hg
    exact ⟨h.size_le_length hlen, h.length_flatten_le hlen⟩
  · refine List.Nodup.of_map UInt32.toNat ?_
    rw [hnewIds]
    exact List.nodup_range

/-- Quantifiers behind quantifiers, and a group inside a group. -/
theorem tables_size_le_nested :
    ∃ g, compile "a ::= ((\"x\")+ b)+*\nb ::= [^a-c]+" = .ok g ∧ g.size = 8 ∧
      g.flatten.elements.length = 30 ∧ 8 ≤ 32 ∧ 30 ≤ 5 * 32 ∧
      (journal 64 "a ::= ((\"x\")+ b)+*\nb ::= [^a-c]+").newIds.map UInt32.toNat =
        List.range 8 ∧
      (journal 64 "a ::= ((\"x\")+ b)+*\nb ::= [^a-c]+").newIds.Nodup := by
  obtain ⟨g, hg, hsize, hflatten⟩ :
      ∃ g, compile "a ::= ((\"x\")+ b)+*\nb ::= [^a-c]+" = .ok g ∧ g.size = 8 ∧
        g.flatten.elements.length = 30 :=
    ⟨⟨⟨["a", "a_1", "a_2", "a_3", "b", "a_5", "a_6", "b_7"]⟩, ⟨[
      [.ruleRef 6, .stop],
      [.ruleRef 3, .ruleRef 4, .stop],
      [.char 'x', .stop],
      [.ruleRef 2, .ruleRef 3, .alt, .ruleRef 2, .stop],
      [.ruleRef 7, .stop],
      [.ruleRef 1, .ruleRef 5, .alt, .ruleRef 1, .stop],
      [.ruleRef 5, .ruleRef 6, .alt, .stop],
      [⟨.charNot, 97⟩, ⟨.rangeUpper, 99⟩, .ruleRef 7, .alt, ⟨.charNot, 97⟩, ⟨.rangeUpper, 99⟩,
        .stop]]⟩⟩, by decide +kernel, rfl, rfl⟩
  obtain ⟨hbounds, -, -, hnewIds, -, hnodup, -⟩ :=
    tables_size_le "a ::= ((\"x\")+ b)+*\nb ::= [^a-c]+" {} (by decide +kernel)
  obtain ⟨hrules, helements⟩ := hbounds g hg
  have hlength : "a ::= ((\"x\")+ b)+*\nb ::= [^a-c]+".length = 32 := by decide +kernel
  have hnames : (parse 64 "a ::= ((\"x\")+ b)+*\nb ::= [^a-c]+").1.symbols.size = 8 := by
    decide +kernel
  rw [hsize, hlength] at hrules
  rw [hflatten, hlength] at helements
  exact ⟨g, hg, hsize, hflatten, hrules, helements, hnames ▸ hnewIds, hnodup⟩

end EbnfTables
