import EbnfTables.Proofs.Source.Chunks
import EbnfTables.Proofs.Tables.Log
import EbnfTables.Proofs.Tables.Renaming
import Mathlib.Data.Set.Function

/-!
# The order of definitions

The order of the definitions of a source does not matter, as long as no name that is written contains
the mark of generated names.

* Then a rule that has a body is a rule of a definition, or its name has the mark
  (`ElaboratesAll.defined_or_marked`), so nothing that is written names a generated rule;
* definitions with different names can be elaborated in any order (`exists_elaboratesAll_of_nodup`),
  and the tables are the same up to a renaming: `Grammar.IsRenaming`.

Main theorem: `compile_perm`.
-/

namespace EbnfTables

/-- No name that is written has the mark of generated names. -/
def Unmarked (rule : String × Expr .alternatives) : Prop :=
  ∀ name ∈ rule.1 :: rule.2.refNames, '_' ∉ name.toList

/-- `σ` takes the tables of `g` to those of `h`: ids to ids one to one, bodies to bodies, and the rules
with the given names to the rules with these names. -/
structure Grammar.IsRenaming (σ : RuleId → RuleId) (names : List String) (g h : Grammar) : Prop where
  bijOn : Set.BijOn σ {id | id.toNat < g.size} {id | id.toNat < h.size}
  rule? : ∀ id : RuleId, id.toNat < g.size →
    ∃ body, g.rule? id = some body ∧ h.rule? (σ id) = some (body.map (.rename σ))
  id? : ∀ name ∈ names, ∃ id, g.id? name = some id ∧ h.id? name = some (σ id)

namespace ElaboratesAll

variable {defs : List Definition} {names : List String} {writes : List (RuleId × Body)}

/-- A rule with a body is the rule of a definition, or its name has the mark of generated names. -/
theorem defined_or_marked (h : ElaboratesAll defs names writes) {id : RuleId} {name : String}
    (hid : id ∈ writes.map Prod.fst) (hname : names[id.toNat]? = some name) :
    (∃ d ∈ defs, d.name = name) ∨ '_' ∈ name.toList := by
  by_cases hdefined : ∃ d ∈ defs, d.name = name
  · exact .inl hdefined
  · right
    push Not at hdefined
    have hlog : .allocated name id ∈ (Builder.empty.addDefinitions defs).1.events :=
      h.mem_events_iff.2 ⟨hid, hname, hdefined⟩
    have hsettled := Builder.settled_addDefinitions (b := .empty) defs .nil
    obtain ⟨before, after, heq⟩ := List.append_of_mem hlog
    obtain ⟨base, -, hprefix⟩ := hsettled.exists_compiledName heq
    exact hprefix.subset (by simp [String.toList_append])

/-- No two definitions have the same name. -/
theorem nodup_defs (h : ElaboratesAll defs names writes) : (defs.map Definition.name).Nodup := by
  induction h with
  | nil => exact List.nodup_nil
  | @snoc defs d id names mid names' elements writes writes' hdefs hid hnew hbody ih =>
    rw [List.map_append, List.nodup_append]
    refine ⟨ih, List.nodup_singleton _, ?_⟩
    rintro name hname _ hd rfl
    obtain ⟨d', hd', rfl⟩ := List.mem_map.1 hname
    obtain hd : d'.name = d.name := List.mem_singleton.1 hd
    obtain ⟨k, elements', hrep⟩ := hdefs.exists_represents d' hd'
    -- the second definition would find the body of the first
    have hk := getElem?_eq_some_of_isPrefix hid.isPrefix hrep.name
    rw [hd] at hk
    obtain rfl := eq_of_getElem?_eq_some (hid.nodup hdefs.nodup) hk hid.getElem?_eq
    exact hnew (List.mem_map_of_mem (f := Prod.fst) hrep.body)

end ElaboratesAll

/-- Definitions with different names can be elaborated, if their names do not have the mark. -/
theorem exists_elaboratesAll_of_nodup {defs : List Definition}
    (hnodup : (defs.map Definition.name).Nodup) (hunmarked : ∀ d ∈ defs, '_' ∉ d.name.toList)
    (hcount : idCount defs ≤ 2 ^ 32) : ∃ names writes, ElaboratesAll defs names writes := by
  induction defs using List.reverseRecOn with
  | nil => exact ⟨[], [], .nil⟩
  | append_singleton defs d ih =>
    rw [List.map_append, List.nodup_append] at hnodup
    obtain ⟨hnodup, -, hdisjoint⟩ := hnodup
    obtain ⟨hunmarked, hd⟩ := List.forall_mem_append.1 hunmarked
    rw [idCount_concat] at hcount
    obtain ⟨names, writes, hall⟩ := ih hnodup hunmarked (by omega)
    have hnames := hall.length_le
    have hroom : names.length < 2 ^ 32 := by omega
    obtain ⟨id, mid, hid⟩ := exists_interned hroom d.name
    have hmid := hid.length_le
    have hsize : (d.body.build d.name ⟨⟨mid⟩, .empty, []⟩).2.symbols.size ≤
        mid.length + d.body.idCount := d.body.size_build_le d.name _
    obtain ⟨elements, names', writes', hbody⟩ :=
      d.body.exists_elaborates d.name mid .empty [] (by omega)
    refine ⟨names', _, .snoc hall hid ?_ hbody⟩
    intro hwritten
    have hget := hid.getElem?_eq
    rw [getElem?_eq_of_isPrefix hid.isPrefix (hall.toNat_lt id hwritten)] at hget
    rcases hall.defined_or_marked hwritten hget with ⟨d', hd', hname⟩ | hmark
    · exact hdisjoint _ (List.mem_map_of_mem hd') _ (List.mem_singleton_self _) hname
    · exact hd d (List.mem_singleton_self d) hmark

theorem Closed.of_perm_rename {σ : RuleId → RuleId} {writes writes₂ : List (RuleId × Body)}
    (h : Closed writes) (hσ : (writes.map (renameWrite σ)).Perm writes₂) : Closed writes₂ := by
  intro w₂ hw₂ e₂ he₂ hkind
  obtain ⟨w, hw, rfl⟩ := List.mem_map.1 (hσ.mem_iff.2 hw₂)
  obtain ⟨e, he, rfl⟩ := List.mem_map.1 he₂
  have hids := hσ.map Prod.fst
  rw [map_fst_renameWrite] at hids
  by_cases hk : e.kind = .ruleRef
  · have hvalue : (e.rename σ).value = σ e.value := by
      rw [Element.rename, if_pos hk]
      rfl
    rw [hvalue]
    exact hids.mem_iff.1 (List.mem_map_of_mem (h w hw e he hk))
  · rw [Element.rename_of_kind_ne σ hk] at hkind
    exact absurd hkind hk

namespace CompilesTo

variable {options : CompileOptions} {source : String} {defs : List Definition}
  {writes : List (RuleId × Body)} {g : Grammar}

/-- In a source that compiles, a name without the mark is referred to only if it is defined. -/
theorem grounded (h : CompilesTo options source defs writes g)
    (hunmarked : ∀ d ∈ defs, Unmarked d.rule) : ∀ d ∈ defs, d.body.Grounded defs := by
  intro d hd name hname
  obtain ⟨_, elements, hrep⟩ := h.elaborates.exists_represents d hd
  obtain ⟨id, hid⟩ := hrep.represents.exists_id_of_mem_refNames hname
  have hwritten := h.mem_writes_iff.2 (List.getElem?_eq_some_iff.1 hid).1
  refine (h.elaborates.defined_or_marked hwritten hid).resolve_right ?_
  exact hunmarked d hd name (List.mem_cons_of_mem _ hname)

variable {source₂ : String} {defs₂ : List Definition}

/-- In another order, the definitions of a source that compiles compile as well. -/
theorem exists_compilesTo_of_perm (h : CompilesTo options source defs writes g)
    (hsource₂ : SourceText options.maxNesting defs₂ source₂.toList)
    (hperm : (defs.map Definition.rule).Perm (defs₂.map Definition.rule))
    (hunmarked : ∀ d ∈ defs, Unmarked d.rule) (hlen₂ : source₂.length < 2 ^ 32)
    (hstart : options.startRule = none) :
    ∃ writes₂ g₂, CompilesTo options source₂ defs₂ writes₂ g₂ := by
  have hnames : (defs.map Definition.name).Perm (defs₂.map Definition.name) := by
    simpa [Definition.rule, Function.comp_def] using hperm.map Prod.fst
  have hunmarked₂ : ∀ d ∈ defs₂, '_' ∉ d.name.toList := by
    intro d hd
    obtain ⟨d', hd', hrule⟩ := List.mem_map.1 (hperm.mem_iff.2 (List.mem_map_of_mem hd))
    obtain ⟨hname, -⟩ := Prod.mk.inj hrule
    rw [← hname]
    exact hunmarked d' hd' _ List.mem_cons_self
  have hcount : idCount defs₂ ≤ 2 ^ 32 := by
    have hle := hsource₂.idCount_le
    rw [String.length_toList] at hle
    omega
  obtain ⟨names₂, writes₂, hall₂⟩ := exists_elaboratesAll_of_nodup
    (hnames.nodup_iff.1 h.elaborates.nodup_defs) hunmarked₂ hcount
  obtain ⟨rules₂, -, -, hholds₂⟩ := hall₂.addDefinitions_eq
  obtain ⟨σ, hσ, -⟩ := h.elaborates.exists_renaming hall₂ hperm (h.grounded hunmarked)
  refine ⟨writes₂, ⟨⟨names₂⟩, rules₂⟩, hsource₂, hall₂, hholds₂, ?_, by simp [hstart]⟩
  exact h.closed.of_perm_rename hσ

/-- The tables of a source and of its definitions in another order differ in the ids alone. -/
theorem exists_isRenaming {options₂ : CompileOptions} {writes₂ : List (RuleId × Body)} {g₂ : Grammar}
    (h : CompilesTo options source defs writes g) (h₂ : CompilesTo options₂ source₂ defs₂ writes₂ g₂)
    (hperm : (defs.map Definition.rule).Perm (defs₂.map Definition.rule))
    (hunmarked : ∀ d ∈ defs, Unmarked d.rule) (hlen : source.length < 2 ^ 32)
    (hlen₂ : source₂.length < 2 ^ 32) :
    ∃ σ, g.IsRenaming σ (defs.map Definition.name) g₂ := by
  obtain ⟨σ, hσ, hnames⟩ := h.elaborates.exists_renaming h₂.elaborates hperm (h.grounded hunmarked)
  have hids := hσ.map Prod.fst
  rw [map_fst_renameWrite] at hids
  have hmem (id : RuleId) : id ∈ writes.map Prod.fst ↔ id.toNat < g.size := by
    rw [h.mem_writes_iff, h.size_eq hlen]
  have hmem₂ (id : RuleId) : id ∈ writes₂.map Prod.fst ↔ id.toNat < g₂.size := by
    rw [h₂.mem_writes_iff, h₂.size_eq hlen₂]
  refine ⟨σ, ⟨?mapsTo, ?injOn, ?surjOn⟩, ?rules, ?names⟩
  case mapsTo =>
    intro id hid
    exact (hmem₂ _).1 (hids.mem_iff.1 (List.mem_map_of_mem ((hmem id).2 hid)))
  case injOn =>
    intro id hid id' hid' heq
    have hnodup := hids.nodup_iff.2 h₂.elaborates.nodup_writes
    exact List.inj_on_of_nodup_map hnodup ((hmem id).2 hid) ((hmem id').2 hid') heq
  case surjOn =>
    intro id₂ hid₂
    obtain ⟨id, hid, rfl⟩ := List.mem_map.1 (hids.mem_iff.2 ((hmem₂ id₂).2 hid₂))
    exact ⟨id, (hmem id).1 hid, rfl⟩
  case rules =>
    intro id hid
    obtain ⟨⟨_, body⟩, hw, rfl⟩ := List.mem_map.1 ((hmem id).2 hid)
    have hw₂ := hσ.mem_iff.1 (List.mem_map_of_mem (f := renameWrite σ) hw)
    exact ⟨body, h.rule?_eq_some_iff.2 hw, h₂.rule?_eq_some_iff.2 hw₂⟩
  case names =>
    intro name hname
    obtain ⟨d, hd, rfl⟩ := List.mem_map.1 hname
    obtain ⟨id, hid, hid₂⟩ := hnames d hd
    refine ⟨id, ?_, ?_⟩
    · exact (SymbolTable.id?_eq_some_iff h.elaborates.nodup (h.size_symbols_le hlen)).2 hid
    · exact (SymbolTable.id?_eq_some_iff h₂.elaborates.nodup (h₂.size_symbols_le hlen₂)).2 hid₂

end CompilesTo

/-! ### Rows of chunks -/

theorem toList_join_eq_flatten (chunks : List String) :
    (String.join chunks).toList = (chunks.map String.toList).flatten := by
  rw [String.toList_join, List.flatMap_def]

theorem length_join_eq_of_perm {chunks chunks₂ : List String} (h : chunks.Perm chunks₂) :
    (String.join chunks).length = (String.join chunks₂).length := by
  rw [← String.length_toList, ← String.length_toList, toList_join_eq_flatten,
    toList_join_eq_flatten]
  exact (h.map String.toList).flatten.length_eq

/-- In another order, chunks that compile compile as well. -/
theorem exists_compile_eq_ok_of_perm {rules rules₂ : List (String × Expr .alternatives)}
    {chunks chunks₂ : List String} {maxNesting : ℕ} {g : Grammar}
    (hchunks : List.Forall₂ IsRuleChunk rules (chunks.map String.toList))
    (hchunks₂ : List.Forall₂ IsRuleChunk rules₂ (chunks₂.map String.toList))
    (hrules : rules.Perm rules₂) (hunmarked : ∀ rule ∈ rules, Unmarked rule)
    (hlen : (String.join chunks).length < 2 ^ 32) (hlen₂ : (String.join chunks₂).length < 2 ^ 32)
    (hok : compile (String.join chunks) ⟨none, maxNesting⟩ = .ok g) :
    ∃ g₂, compile (String.join chunks₂) ⟨none, maxNesting⟩ = .ok g₂ := by
  obtain ⟨defs, writes, h⟩ := exists_compilesTo hlen hok
  have hsource := h.sourceText
  rw [toList_join_eq_flatten] at hsource
  obtain ⟨rfl, hnesting⟩ := hsource.map_rule_eq hchunks
  have hne : rules₂ ≠ [] := by
    rintro rfl
    exact hsource.ne_nil (List.map_eq_nil_iff.1 hrules.eq_nil)
  obtain ⟨defs₂, hsource₂, rfl⟩ := exists_sourceText_flatten hchunks₂ hne
    fun rule hrule => hnesting rule (hrules.mem_iff.2 hrule)
  rw [← toList_join_eq_flatten] at hsource₂
  obtain ⟨writes₂, g₂, h₂⟩ := h.exists_compilesTo_of_perm hsource₂ hrules
    (fun d hd => hunmarked d.rule (List.mem_map_of_mem hd)) hlen₂ rfl
  exact ⟨g₂, h₂.compile_eq_ok⟩

/-- **The order of definitions does not matter.**  Take definitions with their line breaks, in two
orders, and let no name that is written have the mark of generated names.  Then both rows compile, or
none of them; and if they do, their tables are the same up to a renaming that keeps the rules of the
definitions. -/
theorem compile_perm (rules : List (String × Expr .alternatives)) (chunks chunks₂ : List String)
    (maxNesting : ℕ) (hchunks : List.Forall₂ IsRuleChunk rules (chunks.map String.toList))
    (hunmarked : ∀ rule ∈ rules, Unmarked rule) (hperm : chunks.Perm chunks₂)
    (hlen : (String.join chunks).length < 2 ^ 32) :
    ((∃ g, compile (String.join chunks) ⟨none, maxNesting⟩ = .ok g) ↔
      ∃ g₂, compile (String.join chunks₂) ⟨none, maxNesting⟩ = .ok g₂) ∧
    ∀ g g₂, compile (String.join chunks) ⟨none, maxNesting⟩ = .ok g →
      compile (String.join chunks₂) ⟨none, maxNesting⟩ = .ok g₂ →
      ∃ σ, g.IsRenaming σ (rules.map Prod.fst) g₂ := by
  have hlen₂ := length_join_eq_of_perm hperm ▸ hlen
  obtain ⟨rules₂, hchunks₂, hrules⟩ : ∃ rules₂,
      List.Forall₂ IsRuleChunk rules₂ (chunks₂.map String.toList) ∧ rules.Perm rules₂ := by
    have hflip : List.Forall₂ (flip IsRuleChunk) (chunks.map String.toList) rules := hchunks.flip
    obtain ⟨rules₂, hrules₂, hperm₂⟩ := List.perm_comp_forall₂ (hperm.map String.toList).symm hflip
    exact ⟨rules₂, hrules₂.flip, hperm₂.symm⟩
  have hunmarked₂ : ∀ rule ∈ rules₂, Unmarked rule := fun rule hrule =>
    hunmarked rule (hrules.mem_iff.2 hrule)
  refine ⟨⟨?_, ?_⟩, fun g g₂ hok hok₂ => ?_⟩
  · rintro ⟨g, hok⟩
    exact exists_compile_eq_ok_of_perm hchunks hchunks₂ hrules hunmarked hlen hlen₂ hok
  · rintro ⟨g₂, hok₂⟩
    exact exists_compile_eq_ok_of_perm hchunks₂ hchunks hrules.symm hunmarked₂ hlen₂ hlen hok₂
  · obtain ⟨defs, writes, h⟩ := exists_compilesTo hlen hok
    obtain ⟨defs₂, writes₂, h₂⟩ := exists_compilesTo hlen₂ hok₂
    have hsource := h.sourceText
    have hsource₂ := h₂.sourceText
    rw [toList_join_eq_flatten] at hsource hsource₂
    obtain ⟨rfl, -⟩ := hsource.map_rule_eq hchunks
    obtain ⟨rfl, -⟩ := hsource₂.map_rule_eq hchunks₂
    have := h.exists_isRenaming h₂ hrules (fun d hd => hunmarked d.rule (List.mem_map_of_mem hd))
      hlen hlen₂
    simpa [Definition.rule, Function.comp_def] using this

/-- Two rules that refer to each other, with a group and with quantifiers. -/
theorem compile_perm_two_rules :
    ∃ (rules : List (String × Expr .alternatives)) (g g₂ : Grammar),
      rules.map Prod.fst = ["a", "b"] ∧
      compile (String.join ["a ::= (\"x\" | b)*\n", "b ::= \"y\" a?\n"]) ⟨none, 1⟩ = .ok g ∧
      compile (String.join ["b ::= \"y\" a?\n", "a ::= (\"x\" | b)*\n"]) ⟨none, 1⟩ = .ok g₂ ∧
      ∃ σ, g.IsRenaming σ (rules.map Prod.fst) g₂ := by
  have hchunk (line : List Char) (name : String) (refs : List String)
      (hread : (readDefinition 1 line).toOption.map
        (fun r => (r.1.name, r.1.body.refNames, r.1.body.endsWithBar, r.2)) =
          some (name, refs, false, []))
      (hline : line.any isLineBreak = false) :
      ∃ rule, IsRuleChunk rule (line ++ ['\n']) ∧ rule.1 = name ∧ rule.2.refNames = refs := by
    cases hok : readDefinition 1 line with
    | error refusal => simp [hok, Except.toOption] at hread
    | ok r =>
      obtain ⟨d, rest⟩ := r
      simp only [hok, Except.toOption, Option.map_some, Option.some.injEq, Prod.mk.injEq] at hread
      obtain ⟨hname, hrefs, hbar, rfl⟩ := hread
      have hline' : ∀ c ∈ line, isLineBreak c = false := by simpa using hline
      exact ⟨d.rule, isRuleChunk_of_readDefinition hok hline' hbar, hname, hrefs⟩
  obtain ⟨a, ha, haName, haRefs⟩ :=
    hchunk "a ::= (\"x\" | b)*".toList "a" ["b"] (by decide +kernel) (by decide +kernel)
  obtain ⟨b, hb, hbName, hbRefs⟩ :=
    hchunk "b ::= \"y\" a?".toList "b" ["a"] (by decide +kernel) (by decide +kernel)
  have hchunks : List.Forall₂ IsRuleChunk [a, b]
      (["a ::= (\"x\" | b)*\n", "b ::= \"y\" a?\n"].map String.toList) := .cons ha (.cons hb .nil)
  have hunmarked : ∀ rule ∈ [a, b], Unmarked rule := by
    simp [Unmarked, haName, haRefs, hbName, hbRefs]
  obtain ⟨g, hg⟩ :
      ∃ g, compile (String.join ["a ::= (\"x\" | b)*\n", "b ::= \"y\" a?\n"]) ⟨none, 1⟩ = .ok g :=
    ⟨⟨⟨["a", "a_1", "b", "a_3", "b_4"]⟩, ⟨[
      [.ruleRef 3, .stop],
      [.char 'x', .alt, .ruleRef 2, .stop],
      [.char 'y', .ruleRef 4, .stop],
      [.ruleRef 1, .ruleRef 3, .alt, .stop],
      [.ruleRef 0, .alt, .stop]]⟩⟩, by decide +kernel⟩
  obtain ⟨hiff, hrenaming⟩ := compile_perm [a, b] _ _ 1 hchunks hunmarked
    (List.Perm.swap "b ::= \"y\" a?\n" "a ::= (\"x\" | b)*\n" []) (by decide +kernel)
  obtain ⟨g₂, hg₂⟩ := hiff.1 ⟨g, hg⟩
  exact ⟨[a, b], g, g₂, by simp [haName, hbName], hg, hg₂, hrenaming g g₂ hg hg₂⟩

/-- A name with the mark may be that of a rule that was generated before, so here the order matters. -/
example : compile "a ::= \"x\"?\nb ::= a_1\n" = .ok ⟨⟨["a", "a_1", "b"]⟩,
      ⟨[[.ruleRef 1, .stop], [.char 'x', .alt, .stop], [.ruleRef 1, .stop]]⟩⟩ ∧
    compile "b ::= a_1\na ::= \"x\"?\n" = .error (.undefinedRule "a_1") := by decide +kernel

end EbnfTables
