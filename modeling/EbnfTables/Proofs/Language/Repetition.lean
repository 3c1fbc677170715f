import EbnfTables.Proofs.Language.Derivation
import EbnfTables.Proofs.Tables.WellFormed

/-!
# Repetition in tables

A rule with the body of a repetition has the words of the repetition, whatever the other bodies are:
the operand may refer to rules that refer back to the rule itself.

The words of the rule solve the equation of the repetition, so they contain its words.  Conversely
let the rule have only the words of the repetition, and let all other rules keep theirs.  This solves
all bodies, because the operand has no more words than before (`Grammar.language_eq_of_update`), and the
words of the table are the least solution.

Main theorem: `RuleTable.ruleWords_expansion`.
-/

namespace EbnfTables

open scoped Computability

/-! ### Stretches -/

theorem IsRun.isChar_of_mem {run : Body} (h : IsRun run) : ∀ e ∈ run, e.kind.isChar := by
  have hmember {kind : ElementKind} (hkind : kind.isChar) {part : Body}
      (hpart : IsMember kind part) : ∀ e ∈ part, e.kind.isChar := by
    cases hpart with
    | single value => exact List.forall_mem_singleton.2 hkind
    | range lower upper => exact List.forall_mem_cons.2 ⟨hkind, List.forall_mem_singleton.2 rfl⟩
  obtain ⟨hkind, hfirst, hmore⟩ := h
  refine List.forall_mem_append.2 ⟨?_, fun e he => ?_⟩
  · rcases hkind with rfl | rfl
    · exact hmember rfl hfirst
    · exact hmember rfl hfirst
  · obtain ⟨part, hpart, he⟩ := List.mem_flatten.1 he
    exact hmember rfl (hmore part hpart) e he

/-- References and runs are part of a single alternative. -/
theorem IsStretch.isAlternative {s : Body} (h : IsStretch s) : s.IsAlternative := by
  obtain ⟨parts, rfl, hparts⟩ := h
  intro e he
  obtain ⟨part, hpart, he⟩ := List.mem_flatten.1 he
  rcases hparts part hpart with ⟨id, rfl⟩ | hrun
  · exact Body.IsAlternative.ruleRef id e he
  · exact Element.isAlternative_of_isChar (hrun.isChar_of_mem e he)

/-! ### Least solutions, one rule at a time -/

/-- Words of a rule that solve its body, when all other rules keep their words, are all its words. -/
theorem Grammar.language_eq_of_update {g : Grammar} {id : RuleId} {body : Body}
    {X : Language Char} (hbody : g.rule? id = some body) (hle : X ≤ g.language id)
    (hX : body.language (Function.update g.language id X) ≤ X) : g.language id = X := by
  have hupdate : Function.update g.language id X ≤ g.language := update_le_self_iff.2 hle
  have hsolves : g.language ≤ Function.update g.language id X := by
    refine Grammar.language_le fun id' body' hbody' => ?_
    by_cases hid : id' = id
    · subst hid
      obtain rfl : body = body' := Option.some.inj (hbody.symm.trans hbody')
      rwa [Function.update_self]
    · rw [Function.update_of_ne hid]
      calc body'.language (Function.update g.language id X)
          ≤ body'.language g.language := Body.language_mono hupdate body'
        _ = g.language id' := (language_eq hbody').symm
  have hid := hsolves id
  rw [Function.update_self] at hid
  exact le_antisymm hid hle

/-! ### Repetition -/

/-- **A rule with the body of a repetition has the words of the repetition**, whatever the other
bodies are.  The operand is a row of references and runs. -/
theorem RuleTable.ruleWords_expansion (t : RuleTable) (q : Quantifier) (operand : Body)
    (id : RuleId) (hoperand : IsStretch operand)
    (hbody : t.body? id = some (q.expansion operand id)) :
    t.ruleWords id = q.repetition (t.words operand) := by
  let g : Grammar := ⟨.empty, t⟩
  have halternative := hoperand.isAlternative
  let L : Language Char := stretchLanguage g.language operand
  have hrule : g.language id = q.unfolding L (g.language id) := by
    conv_lhs => rw [g.language_eq hbody, q.language_expansion g.language halternative]
  have hle : q.repetition L ≤ g.language id := Quantifier.repetition_le hrule.ge
  have heq : g.language id = q.repetition L := by
    refine Grammar.language_eq_of_update hbody hle ?_
    -- with these words for the rule, the operand has no more words than before
    have hoperand_le := stretchLanguage_mono (update_le_self_iff.2 hle) operand
    rw [q.language_expansion _ halternative, Function.update_self]
    calc q.unfolding _ (q.repetition L)
        ≤ q.unfolding L (q.repetition L) := Quantifier.unfolding_mono hoperand_le le_rfl
      _ = q.repetition L := q.unfolding_repetition L
  calc t.ruleWords id = g.language id := by rw [g.language_eq_ruleWords]
    _ = q.repetition L := heq
    _ = q.repetition (t.words operand) := congrArg _ (g.stretchLanguage_eq_words operand)

/-- The operand of the rule refers to a rule that refers back, and goes on with a negated range. -/
theorem RuleTable.ruleWords_expansion_back_reference :
    ∃ t : RuleTable,
      t.body? 0 = some [.ruleRef 1, ⟨.charNot, 0x61⟩, ⟨.rangeUpper, 0x7A⟩, .ruleRef 0, .alt,
        .ruleRef 1, ⟨.charNot, 0x61⟩, ⟨.rangeUpper, 0x7A⟩, .stop] ∧
      t.body? 1 = some [.ruleRef 0, .alt, .char 'y', .stop] ∧
      IsStretch [.ruleRef 1, ⟨.charNot, 0x61⟩, ⟨.rangeUpper, 0x7A⟩] ∧
      t.ruleWords 0 = t.words [.ruleRef 1, ⟨.charNot, 0x61⟩, ⟨.rangeUpper, 0x7A⟩] *
        (t.words [.ruleRef 1, ⟨.charNot, 0x61⟩, ⟨.rangeUpper, 0x7A⟩])∗ := by
  have hrun : IsRun [⟨.charNot, 0x61⟩, ⟨.rangeUpper, 0x7A⟩] :=
    .intro (.inr rfl) (.range 0x61 0x7A) (List.forall_mem_nil _)
  have hoperand : IsStretch [.ruleRef 1, ⟨.charNot, 0x61⟩, ⟨.rangeUpper, 0x7A⟩] :=
    ⟨[[.ruleRef 1], [⟨.charNot, 0x61⟩, ⟨.rangeUpper, 0x7A⟩]], rfl,
      List.forall_mem_cons.2 ⟨.inl ⟨1, rfl⟩, List.forall_mem_singleton.2 (.inr hrun)⟩⟩
  refine ⟨⟨[Quantifier.oneOrMore.expansion [.ruleRef 1, ⟨.charNot, 0x61⟩, ⟨.rangeUpper, 0x7A⟩] 0,
    [.ruleRef 0, .alt, .char 'y', .stop]]⟩, rfl, rfl, hoperand, ?_⟩
  exact ruleWords_expansion _ .oneOrMore _ 0 hoperand rfl

end EbnfTables
