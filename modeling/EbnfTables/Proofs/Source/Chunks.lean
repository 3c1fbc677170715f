import EbnfTables.Proofs.Source.Extension
import Mathlib.Algebra.Order.BigOperators.Group.List
import Mathlib.Algebra.Order.Group.Nat

/-!
# Definitions with their line breaks

A definition together with the line break that ends it is a piece that can stand anywhere in a row
of such pieces: `IsRuleChunk rule text`.

* A row of chunks is the row of their definitions, if the groups in them are not too deep
  (`exists_sourceText_flatten`);
* it is no other source, and no source at all if the groups are too deep
  (`SourceText.map_rule_eq`).
-/

namespace EbnfTables

/-- `text` is a definition that says `rule`, and the line break that ends it, with nothing behind. -/
def IsRuleChunk (rule : String × Expr .alternatives) (text : List Char) : Prop :=
  ∃ limit stop, RuleText limit rule.1 rule.2 text stop ∧ LineEnd stop []

variable {limit limit' : ℕ} {text rest : List Char}

theorem RuleText.isSuffix {name : String} {body : Expr .alternatives} {stop : List Char}
    (h : RuleText limit name body text stop) : stop <:+ text := by
  obtain ⟨hname, hmark, hright, hbody, -⟩ := h
  have hsign := (List.suffix_append [':', ':', '='] _).trans (hmark.isSuffix.trans hname.isSuffix)
  exact (hbody.isSuffix.trans hright.isSuffix).trans hsign

theorem LineEnd.exists_isLineBreak (h : LineEnd text rest) : ∃ c ∈ text, isLineBreak c := by
  cases h <;> exact ⟨_, List.mem_cons_self, rfl⟩

/-- A definition that fills one line makes a chunk with the line break behind it, unless it ends with
a bar. -/
theorem isRuleChunk_of_readDefinition {d : Definition}
    (h : readDefinition limit text = .ok (d, [])) (hline : ∀ c ∈ text, isLineBreak c = false)
    (hbar : d.body.endsWithBar = false) : IsRuleChunk d.rule (text ++ ['\n']) := by
  obtain ⟨-, stop, hrule, hend⟩ := definitionText_iff.1 (readDefinition_eq_ok_iff.1 h)
  cases hend with
  | ending => exact ⟨limit, _, hrule.append (.inr ⟨rfl, rfl⟩) (.inr hbar), .lf⟩
  | line hstop _ =>
    obtain ⟨c, hc, hbreak⟩ := hstop.exists_isLineBreak
    rw [hline c (hrule.isSuffix.subset hc)] at hbreak
    cases hbreak

/-! ### The depth of definitions -/

theorem RuleText.of_nesting_le {name : String} {body : Expr .alternatives} {stop : List Char}
    (h : RuleText limit name body text stop) (hle : body.nesting ≤ limit') :
    RuleText limit' name body text stop := by
  obtain ⟨hname, hmark, hright, hbody, hc⟩ := h
  exact ⟨hname, hmark, hright, hbody.of_nesting_le hle, hc⟩

theorem DefinitionText.of_nesting_le {d : Definition} (h : DefinitionText limit d text rest)
    (hle : d.body.nesting ≤ limit') : DefinitionText limit' d text rest := by
  obtain ⟨hsite, stop, hrule, hend⟩ := definitionText_iff.1 h
  exact definitionText_iff.2 ⟨hsite, stop, hrule.of_nesting_le hle, hend⟩

theorem DefinitionText.nesting_le {d : Definition} (h : DefinitionText limit d text rest) :
    d.body.nesting ≤ limit := by
  cases h with
  | intro _ _ _ hbody _ _ => exact hbody.nesting_le

namespace DefinitionsText

variable {defs : List Definition}

theorem nesting_le (h : DefinitionsText limit defs text) : ∀ d ∈ defs, d.body.nesting ≤ limit := by
  induction h with
  | nil => simp
  | cons hd _ ih => exact List.forall_mem_cons.2 ⟨hd.nesting_le, ih⟩

theorem mono (h : DefinitionsText limit defs text) (hle : limit ≤ limit') :
    DefinitionsText limit' defs text := by
  induction h with
  | nil => exact .nil
  | cons hd _ ih => exact .cons (hd.of_nesting_le (hd.nesting_le.trans hle)) ih

theorem unique {defs' : List Definition} (h : DefinitionsText limit defs text)
    (h' : DefinitionsText limit defs' text) : defs = defs' := by
  rw [← readDefinitions_eq_iff] at h h'
  exact (Reading.mk.inj (h.symm.trans h')).1

end DefinitionsText

/-! ### Rows of chunks -/

/-- No blanks stand before a definition. -/
theorem RuleText.skips_self {name : String} {body : Expr .alternatives} {stop : List Char}
    (h : RuleText limit name body text stop) : Skips .anyLine text text := by
  obtain ⟨hname, -, -, -, -⟩ := h
  obtain ⟨c, word, hword⟩ := List.exists_cons_of_ne_nil hname.ne_nil
  have hc : isWordChar c := hname.isWordChar_of_mem c (hword ▸ List.mem_cons_self)
  rw [hname.eq_append, hword, ← Spacing.skip_eq_iff]
  exact Spacing.skip_of_isVisible _ (isVisible_of_isWordChar hc) _

section

variable {rules : List (String × Expr .alternatives)} {texts : List (List Char)}

/-- Every chunk goes on with those behind it. -/
theorem exists_definitionsText_flatten (h : List.Forall₂ IsRuleChunk rules texts)
    (hle : ∀ rule ∈ rules, rule.2.nesting ≤ limit) :
    Skips .anyLine texts.flatten texts.flatten ∧
      ∃ defs, DefinitionsText limit defs texts.flatten ∧ defs.map Definition.rule = rules := by
  induction h with
  | nil => exact ⟨Spacing.skips_skip .anyLine [], [], .nil, rfl⟩
  | @cons rule text rules texts hchunk _ ih =>
    obtain ⟨hruleLe, hrulesLe⟩ := List.forall_mem_cons.1 hle
    obtain ⟨hskip, defs, hdefs, hmap⟩ := ih hrulesLe
    obtain ⟨limit', stop, hrule, hline⟩ := hchunk
    have hrule' := (hrule.of_nesting_le hruleLe).append_of_lineEnd hline texts.flatten
    have hd : DefinitionText limit ⟨rule.1, text ++ texts.flatten, rule.2⟩ (text ++ texts.flatten)
        texts.flatten :=
      definitionText_iff.2 ⟨rfl, _, hrule', .line (hline.append _) hskip⟩
    exact ⟨hrule'.skips_self, _ :: defs, .cons hd hdefs, by rw [List.map_cons, hmap]; rfl⟩

/-- A row of chunks is a source, if the groups in them are not too deep. -/
theorem exists_sourceText_flatten (h : List.Forall₂ IsRuleChunk rules texts) (hne : rules ≠ [])
    (hle : ∀ rule ∈ rules, rule.2.nesting ≤ limit) :
    ∃ defs, SourceText limit defs texts.flatten ∧ defs.map Definition.rule = rules := by
  obtain ⟨hskip, defs, hdefs, rfl⟩ := exists_definitionsText_flatten h hle
  exact ⟨defs, ⟨by rintro rfl; exact hne rfl, _, hskip, hdefs⟩, rfl⟩

/-- As a source, a row of chunks is the row of their definitions. -/
theorem SourceText.map_rule_eq {defs : List Definition} (hsource : SourceText limit defs texts.flatten)
    (h : List.Forall₂ IsRuleChunk rules texts) :
    defs.map Definition.rule = rules ∧ ∀ rule ∈ rules, rule.2.nesting ≤ limit := by
  -- with a large enough bound, the chunks are read one by one
  have hlarge : ∀ rule ∈ rules,
      rule.2.nesting ≤ limit + (rules.map fun rule => rule.2.nesting).sum := by
    intro rule hrule
    have hmem := List.mem_map_of_mem (f := fun rule => rule.2.nesting) hrule
    exact (List.le_sum_of_mem hmem).trans (Nat.le_add_left _ _)
  obtain ⟨hskip, defs', hdefs', rfl⟩ := exists_definitionsText_flatten h hlarge
  obtain ⟨rest, hrest, hdefs⟩ := hsource.definitions
  rw [← Spacing.skip_eq_iff] at hskip hrest
  obtain rfl := hskip.symm.trans hrest
  obtain rfl := (hdefs.mono (Nat.le_add_right _ _)).unique hdefs'
  refine ⟨rfl, fun rule hrule => ?_⟩
  obtain ⟨d, hd, rfl⟩ := List.mem_map.1 hrule
  exact hdefs.nesting_le d hd

end

end EbnfTables
