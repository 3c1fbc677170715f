import EbnfTables.Proofs.Source.Extension
import EbnfTables.Proofs.Tables.References

/-!
# Rules that are appended

Definitions that are appended to a source in a new line leave the rules before them as they are.

* Elaboration looks at what definitions say and not at where they stand
  (`ElaboratesAll.of_map_rule_eq`);
* the names and the bodies of the first definitions of a row come first (`ElaboratesAll.exists_front`),
  and tables without gaps that hold more bodies are longer (`RuleTable.Holds.bodies_isPrefix`);
* a definition whose last alternative is empty is the exception: it would go on in the new line.  It
  is recognised by the end of its body (`Represents.isSuffix_of_endsWithBar`).

Main theorem: `compile_append_isPrefix`.
-/

namespace EbnfTables

/-- Definitions that say the same have the same tables. -/
theorem ElaboratesAll.of_map_rule_eq {defs defs' : List Definition} {names : List String}
    {writes : List (RuleId × Body)} (h : ElaboratesAll defs names writes)
    (heq : defs.map Definition.rule = defs'.map Definition.rule) :
    ElaboratesAll defs' names writes := by
  induction h generalizing defs' with
  | nil =>
    obtain rfl := List.map_eq_nil_iff.1 heq.symm
    exact .nil
  | @snoc defs d id names mid names' elements writes writes' _ hid hnew hbody ih =>
    rw [List.map_append] at heq
    obtain ⟨ds, es, rfl, hds, hes⟩ := List.append_eq_map_iff.1 heq
    obtain ⟨⟨name, site, body⟩, rfl, hrule⟩ := List.map_eq_singleton_iff.1 hes
    obtain ⟨rfl, rfl⟩ := Prod.mk.inj hrule
    exact .snoc (ih hds.symm) hid hnew hbody

/-- A table without gaps is the front of one that holds more bodies. -/
theorem RuleTable.Holds.bodies_isPrefix {t t' : RuleTable} {writes writes' : List (RuleId × Body)}
    (h : t.Holds writes) (h' : t'.Holds writes') (hsub : writes ⊆ writes')
    (hfull : ∀ id : RuleId, id.toNat < t.size → t.slot id ≠ []) : t.bodies <+: t'.bodies := by
  rw [List.prefix_iff_getElem?]
  intro i hi
  have hid : i.toUInt32.toNat = i := toNat_toUInt32_of_lt (hi.trans_le h.size_le)
  have hmem : i.toUInt32 ∈ writes.map Prod.fst := by
    by_contra hnot
    exact hfull i.toUInt32 (hid.symm ▸ hi) (h.slot_of_notMem _ hnot)
  obtain ⟨⟨k, body⟩, hw, rfl⟩ := List.mem_map.1 hmem
  have hi' : i < t'.bodies.length := by
    have hmem' := List.mem_map_of_mem (f := Prod.fst) (hsub hw)
    have hlt : i.toUInt32.toNat < t'.size := (h'.size_le_iff t'.size).1 le_rfl _ hmem'
    rwa [hid] at hlt
  rw [List.getElem?_eq_getElem hi', h'.getElem_eq_slot, h.getElem_eq_slot,
    h.slot_of_mem _ body hw, h'.slot_of_mem _ body (hsub hw)]

/-- The tables of a source do not depend on how its definitions were elaborated. -/
theorem CompilesTo.eq_of_elaboratesAll {source : String} {options : CompileOptions} {g : Grammar}
    {defs : List Definition} {writes writes₁ : List (RuleId × Body)} {names : List String}
    (h : CompilesTo options source defs writes g) (hall : ElaboratesAll defs names writes₁) :
    names = g.symbols.names ∧ g.rules.Holds writes₁ := by
  obtain ⟨rules, events, hadd, hholds⟩ := h.elaborates.addDefinitions_eq
  obtain ⟨rules₁, events₁, hadd₁, hholds₁⟩ := hall.addDefinitions_eq
  rw [hadd] at hadd₁
  cases hadd₁
  rw [h.holds.unique hholds]
  exact ⟨rfl, hholds₁⟩

/-- An empty last alternative can be seen at the end of the elements. -/
theorem Represents.isSuffix_of_endsWithBar {names : List String} {writes : List (RuleId × Body)}
    {level : Level} {e : Expr level} {elements : Body} (h : Represents names writes e elements)
    (hbar : e.endsWithBar) : [Element.alt] <:+ elements := by
  cases h with
  | orElse _ hlast =>
    cases hlast with
    | nothing => exact List.suffix_append _ _
    | snoc => cases hbar
  | _ => cases hbar

/-- **Rules that are appended leave the earlier ones as they are.**  Let a source compile, and let the
body of its last definition `d` not end with an empty alternative.  If the source with more behind a
line break compiles as well, then its names begin with the names before, and its bodies with the
bodies before. -/
theorem compile_append_isPrefix (source more : String) (options : CompileOptions) (g g' : Grammar)
    (d : Definition) (id : RuleId) (body : Body) (hlen : source.length + more.length < 2 ^ 32)
    (hok : compile source options = .ok g)
    (hlast : (read options.maxNesting source.toList).definitions.getLast? = some d)
    (hid : g.id? d.name = some id) (hbody : g.rule? id = some body)
    (hbar : ¬ [.alt, .stop] <:+ body)
    (hok' : compile (source ++ "\n" ++ more) options = .ok g') :
    g.symbols.names <+: g'.symbols.names ∧ g.rules.bodies <+: g'.rules.bodies := by
  have hlen₁ : source.length < 2 ^ 32 := by omega
  have hsize : g.symbols.size ≤ 2 ^ 32 := size_symbols_le_of_compile_eq_ok hlen₁ hok
  have hsize' : g'.symbols.size ≤ 2 ^ 32 := by
    have hle := size_symbols_le_length hok'
    simp only [String.length_append] at hle
    have hbreak : "\n".length = 1 := rfl
    omega
  obtain ⟨defs, writes, h⟩ := exists_compilesTo_of_size_le hsize hok
  obtain ⟨defs', writes', h'⟩ := exists_compilesTo_of_size_le hsize' hok'
  rw [h.sourceText.definitions_read, List.getLast?_eq_some_iff] at hlast
  obtain ⟨ds, rfl⟩ := hlast
  -- the last definition does not end with a bar
  have hdbar : d.body.endsWithBar = false := by
    rw [← Bool.not_eq_true]
    intro hends
    obtain ⟨k, elements, hname, hmem, hrep⟩ := h.elaborates.exists_represents d (by simp)
    have hk : g.id? d.name = some k := (SymbolTable.id?_eq_some_iff h.elaborates.nodup hsize).2 hname
    obtain rfl : id = k := Option.some.inj (hid.symm.trans hk)
    have hbody' := h.rule?_eq_some_iff.2 hmem
    obtain rfl : body = elements ++ [.stop] := Option.some.inj (hbody.symm.trans hbody')
    obtain ⟨before, rfl⟩ := hrep.isSuffix_of_endsWithBar hends
    exact hbar ⟨before, by simp⟩
  have hsource' : SourceText options.maxNesting defs' (source.toList ++ '\n' :: more.toList) := by
    have := h'.sourceText
    simpa [String.toList_append] using this
  obtain ⟨front, es, rfl, hfront⟩ := h.sourceText.exists_append hdbar hsource'
  obtain ⟨names₁, writes₁, hall, hnames, hwrites, -⟩ := h'.elaborates.exists_front
  obtain ⟨rfl, hholds⟩ := h.eq_of_elaboratesAll (hall.of_map_rule_eq hfront)
  refine ⟨hnames, hholds.bodies_isPrefix h'.holds hwrites.subset fun k hk => ?_⟩
  have hk' : k.toNat < g.symbols.size := (h.size_eq_of_size_le hsize).symm ▸ hk
  obtain ⟨body', hmem⟩ := h.exists_body hk'
  rw [h.holds.slot_of_mem k body' hmem]
  exact h.elaborates.body_ne_nil _ hmem

/-- A rule with a group and a comment behind it, and one that refers to it. -/
theorem compile_append_isPrefix_group :
    ∃ g g', compile "a ::= (\"x\" | \"y\")? # end" = .ok g ∧
      compile ("a ::= (\"x\" | \"y\")? # end" ++ "\n" ++ "b ::= a [^z]*") = .ok g' ∧
      g.symbols.names <+: g'.symbols.names ∧ g.rules.bodies <+: g'.rules.bodies := by
  have hok : compile "a ::= (\"x\" | \"y\")? # end" = .ok ⟨⟨["a", "a_1", "a_2"]⟩, ⟨[
      [.ruleRef 2, .stop],
      [.char 'x', .alt, .char 'y', .stop],
      [.ruleRef 1, .alt, .stop]]⟩⟩ := by decide +kernel
  have hok' : ∃ g, compile ("a ::= (\"x\" | \"y\")? # end" ++ "\n" ++ "b ::= a [^z]*") = .ok g :=
    ⟨⟨⟨["a", "a_1", "a_2", "b", "b_4"]⟩, ⟨[
      [.ruleRef 2, .stop],
      [.char 'x', .alt, .char 'y', .stop],
      [.ruleRef 1, .alt, .stop],
      [.ruleRef 0, .ruleRef 4, .stop],
      [⟨.charNot, 122⟩, .ruleRef 4, .alt, .stop]]⟩⟩, by decide +kernel⟩
  have hread : (read 64 "a ::= (\"x\" | \"y\")? # end".toList).definitions.getLast?.map
      Definition.name = some "a" := by decide +kernel
  obtain ⟨g', hg'⟩ := hok'
  obtain ⟨d, hlast, hname⟩ := Option.map_eq_some_iff.1 hread
  exact ⟨_, g', hok, hg', compile_append_isPrefix _ _ {} _ g' d 0 [.ruleRef 2, .stop]
    (by decide +kernel) hok hlast (by rw [hname]; decide +kernel) (by decide +kernel)
    (by decide +kernel) hg'⟩

/-- Behind a last bar, the same rule goes on in the new line. -/
example : compile "a ::= \"x\" |" = .ok ⟨⟨["a"]⟩, ⟨[[.char 'x', .alt, .stop]]⟩⟩ ∧
    compile ("a ::= \"x\" |" ++ "\n" ++ "\"y\"") =
      .ok ⟨⟨["a"]⟩, ⟨[[.char 'x', .alt, .char 'y', .stop]]⟩⟩ := by decide +kernel

end EbnfTables
