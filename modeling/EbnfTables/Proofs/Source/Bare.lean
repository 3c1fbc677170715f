import EbnfTables.Proofs.Source.Names
import EbnfTables.Proofs.Source.Nesting

/-!
# Alternations without elements

An alternation is bare if none of its alternatives gives an element.

* A bare alternation is refused if it has no bar, and only then (`Expr.contributes_eq_false_iff`).
  With a bar it is read like any other, as an empty alternative may stand beside another one;
* in a source, every alternation and every operand of a quantifier passes the test
  (`SourceText.contributes`);
* a right side is refused for an empty alternation if and only if reading comes to the end of one,
  in the definition itself or in a group (`readAlternatives_eq_emptyAlternation_iff`).
-/

namespace EbnfTables

variable {limit : ℕ}

namespace Expr

/-- No alternative of the expression gives an element. -/
def isBare : {level : Level} → Expr level → Bool
  | _, literal chars => chars.isEmpty
  | _, charClass _ members => members.isEmpty
  | _, ref _ | _, group _ | _, repeated _ _ => false
  | _, nothing => true
  | _, snoc front last => front.isBare && last.isBare
  | _, only sequence => sequence.isBare
  | _, orElse earlier last => earlier.isBare && last.isBare

/-- The number of bars, those inside groups not counted. -/
def bars : {level : Level} → Expr level → ℕ
  | _, literal _ | _, charClass _ _ | _, ref _ | _, group _ | _, repeated _ _ => 0
  | _, nothing | _, snoc _ _ | _, only _ => 0
  | _, orElse earlier _ => earlier.bars + 1

/-- The alternations of the groups of an expression. -/
def alternations : {level : Level} → Expr level → List (Expr .alternatives)
  | _, literal _ | _, charClass _ _ | _, ref _ | _, nothing => []
  | _, group body => body :: body.alternations
  | _, repeated _ operand => operand.alternations
  | _, snoc front last => front.alternations ++ last.alternations
  | _, only sequence => sequence.alternations
  | _, orElse earlier last => earlier.alternations ++ last.alternations

/-- The operands of the quantifiers of an expression. -/
def operands : {level : Level} → Expr level → List (Expr .item)
  | _, literal _ | _, charClass _ _ | _, ref _ | _, nothing => []
  | _, group body => body.operands
  | _, repeated _ operand => operand :: operand.operands
  | _, snoc front last => front.operands ++ last.operands
  | _, only sequence => sequence.operands
  | _, orElse earlier last => earlier.operands ++ last.operands

@[simp] theorem bars_item (e : Expr .item) : e.bars = 0 := by
  cases e <;> rfl

@[simp] theorem bars_sequence (e : Expr .sequence) : e.bars = 0 := by
  cases e <;> rfl

/-- **What is tested for being empty is bare and has no bar.** -/
theorem contributes_eq_false_iff {level : Level} (e : Expr level) :
    e.contributes = false ↔ e.isBare = true ∧ e.bars = 0 := by
  induction e with
  | literal | charClass | ref | group | repeated | nothing => simp [contributes, isBare, bars]
  | only sequence ih => simp only [contributes, isBare, ih, bars_sequence, bars]
  | snoc front last ihfront ihlast =>
    simp only [contributes, isBare, bars, Bool.or_eq_false_iff, Bool.and_eq_true, ihfront, ihlast,
      bars_sequence, bars_item, and_true]
  | orElse => simp [contributes, bars]

/-- What passes the test has an element or a bar. -/
theorem one_le_bars {level : Level} {e : Expr level} (hc : e.contributes = true)
    (hbare : e.isBare = true) : 1 ≤ e.bars := by
  by_contra hbars
  rw [e.contributes_eq_false_iff.2 ⟨hbare, by omega⟩] at hc
  cases hc

theorem Filled.contributes_of_mem {level : Level} {e : Expr level} (h : e.Filled) :
    ∀ a ∈ e.alternations, a.contributes = true := by
  induction e with
  | literal | charClass | ref | nothing => exact nofun
  | group _ ih => exact List.forall_mem_cons.2 ⟨h.1, ih h.2⟩
  | repeated _ _ ih | only _ ih => exact ih h
  | snoc _ _ ihfront ihlast | orElse _ _ ihfront ihlast =>
    exact List.forall_mem_append.2 ⟨ihfront h.1, ihlast h.2⟩

end Expr

theorem ExprText.contributes_of_mem_operands {s : Spacing} {depth : ℕ} {level : Level}
    {e : Expr level} {text rest : List Char} (h : ExprText s depth e text rest) :
    ∀ o ∈ e.operands, o.contributes = true := by
  induction h with
  | literal | charClass | ref | nothing => exact nofun
  | group _ _ _ ih => exact ih
  | snoc _ _ _ ihfront ihlast => exact List.forall_mem_append.2 ⟨ihfront, ihlast⟩
  | quantified _ hc _ ih =>
    obtain ⟨ihfront, ihlast⟩ := List.forall_mem_append.1 ih
    exact List.forall_mem_append.2 ⟨ihfront, List.forall_mem_cons.2 ⟨hc, ihlast⟩⟩
  | only _ ih => exact ih
  | orElse _ _ _ ihearlier ihlast => exact List.forall_mem_append.2 ⟨ihearlier, ihlast⟩

/-- The alternations of a definition: its right side, and those of its groups. -/
def Definition.alternations (d : Definition) : List (Expr .alternatives) :=
  d.body :: d.body.alternations

theorem Definition.IsSound.contributes_of_mem {d : Definition} (h : d.IsSound) :
    ∀ a ∈ d.alternations, a.contributes = true :=
  List.forall_mem_cons.2 ⟨h.contributes, h.filled.contributes_of_mem⟩

/-- Every alternation of a definition and every operand in it gives an element or has a bar. -/
def Definition.Contributes (d : Definition) : Prop :=
  (∀ a ∈ d.alternations, a.contributes = true) ∧ ∀ o ∈ d.body.operands, o.contributes = true

theorem DefinitionText.contributes {d : Definition} {text rest : List Char}
    (h : DefinitionText limit d text rest) : d.Contributes := by
  refine ⟨h.isSound.contributes_of_mem, ?_⟩
  cases h with
  | intro _ _ _ hbody _ _ => exact hbody.contributes_of_mem_operands

theorem SourceText.contributes {defs : List Definition} {text : List Char}
    (h : SourceText limit defs text) : ∀ d ∈ defs, d.Contributes := by
  obtain ⟨rest, -, hdefs⟩ := h.definitions
  clear h
  induction hdefs with
  | nil => exact nofun
  | cons hd _ ih => exact List.forall_mem_cons.2 ⟨hd.contributes, ih⟩

/-! ### The end of an alternation -/

/-- No item, quantifier, bar or group comes next. -/
def EndsAlternation (text : List Char) : Prop :=
  ∀ c, text.head? = some c → isWordChar c = false ∧ c ∉ ['"', '[', '(', '|', '?', '*', '+']

theorem endsAlternation_cons_iff {c : Char} {cs : List Char} :
    EndsAlternation (c :: cs) ↔
      isWordChar c = false ∧ c ∉ ['"', '[', '(', '|', '?', '*', '+'] := by
  rw [EndsAlternation, List.head?_cons]
  simp only [Option.some.injEq, forall_eq']

theorem Quantifier.ofSign?_eq_none_iff {c : Char} : ofSign? c = none ↔ c ∉ ['?', '*', '+'] := by
  rw [ofSign?, List.find?_eq_none]
  simp [sign, eq_comm]

theorem readAtom?_cons_eq_none_iff {c : Char} {cs : List Char} :
    readAtom? (c :: cs) = none ↔ isWordChar c = false ∧ c ∉ ['"', '['] := by
  by_cases hquote : c = '"'
  · simp [readAtom?, hquote]
  · by_cases hbracket : c = '['
    · simp [readAtom?, hbracket]
    · simp [readAtom?, hquote, hbracket, readName?_cons_eq_none_iff]

namespace Config

theorem close_eq_emptyAlternation_iff {c : Config} {site : List Char} {finished : Bool} :
    c.close = .failed ⟨.emptyAlternation, site⟩ finished ↔
      c.frame.body.contributes = false ∧ c.frame.site = site ∧ finished = false := by
  obtain ⟨f, outer, text⟩ := c
  cases hc : f.body.contributes with
  | false => simp [close, hc, eq_comm]
  | true =>
    simp only [close, hc, if_true, Bool.true_eq_false, false_and, iff_false]
    cases outer with
    | nil => simp only; split <;> simp
    | cons g outer =>
      cases text with
      | nil => simp
      | cons ch rest => simp only; split <;> simp

/-- A step is refused for an empty alternation if and only if it is at the end of one. -/
theorem step_eq_emptyAlternation_iff {c : Config} {site : List Char} {finished : Bool} :
    c.step limit = .failed ⟨.emptyAlternation, site⟩ finished ↔
      EndsAlternation c.rest ∧ c.frame.body.contributes = false ∧ c.frame.site = site ∧
        finished = false := by
  rw [← close_eq_emptyAlternation_iff, step]
  cases hrest : c.rest with
  | nil => simp [readAtom?, EndsAlternation]
  | cons ch rest =>
    cases hatom : readAtom? (ch :: rest) with
    | some result =>
      have hends : ¬ EndsAlternation (ch :: rest) := by
        rw [endsAlternation_cons_iff]
        rintro ⟨hword, hsign⟩
        rw [readAtom?_cons_eq_none_iff.2 ⟨hword, by grind⟩] at hatom
        cases hatom
      cases result with
      | ok result => simp [hends]
      | error fault =>
        -- no literal and no class is refused for an empty alternation
        have hlexical := lexicalFault_of_readAtom? hatom
        simp only [hends, false_and, iff_false]
        intro h
        cases h
        cases hlexical
    | none =>
      obtain ⟨hword, hquote⟩ := readAtom?_cons_eq_none_iff.1 hatom
      by_cases hsign : ch ∈ ['(', '|', '?', '*', '+']
      · have hends : ¬ EndsAlternation (ch :: rest) :=
          fun h => (endsAlternation_cons_iff.1 h).2 (by grind)
        simp only [hends, false_and, iff_false]
        split
        · split <;> simp
        · split
          · simp
          · split
            · rename_i hnone
              exact absurd (Quantifier.ofSign?_eq_none_iff.1 hnone) (by grind)
            · split <;> simp
      · have hends : EndsAlternation (ch :: rest) :=
          endsAlternation_cons_iff.2 ⟨hword, by grind⟩
        have hnone : Quantifier.ofSign? ch = none := Quantifier.ofSign?_eq_none_iff.2 (by grind)
        simp only [hends, hnone, true_and]
        rw [if_neg (by grind), if_neg (by grind)]

end Config

theorem Frame.ofBody_body (f : Frame) : ofBody f.site f.body = f := by
  obtain ⟨site, earlier, current⟩ := f
  cases earlier <;> rfl

/-- The machine comes to whatever can be open. -/
theorem Opened.steps_start {right rest : List Char} {depth : ℕ} {f : Frame} {outer : List Frame}
    (h : Opened limit right depth f outer rest) :
    Config.Steps limit ⟨.start right, [], right⟩ ⟨f, outer, rest⟩ := by
  induction h with
  | @definition f rest hsite hf =>
    have hpass := passes_of_exprText hf f.site [] rfl rfl
    rwa [f.ofBody_body, hsite] at hpass
  | @group depth f g outer mid rest houter hskip hf ih =>
    have hdepth := houter.depth_add_length
    have hopen : Config.Step limit ⟨g, outer, '(' :: mid⟩
        (Config.openGroup ⟨g, outer, '(' :: mid⟩ mid) :=
      .openGroup rfl (by show outer.length < limit; omega)
    rw [Config.openGroup, Spacing.skip_eq_iff.2 hskip] at hopen
    have hpasses : Passes limit .anyLine depth f.body f.site rest := passes_of_exprText hf
    have hbody := hpasses f.site (g :: outer) (by rw [List.length_cons]; omega) rfl
    rw [f.ofBody_body] at hbody
    exact (ih.tail hopen).trans hbody

/-- In the right side that begins at `right`, the end of an alternation that begins at `site` is
reached, and nothing was read of it: no element and no bar. -/
def LeftEmpty (limit : ℕ) (right site : List Char) : Prop :=
  ∃ depth f outer rest, Opened limit right depth f outer rest ∧ EndsAlternation rest ∧
    f.site = site ∧ f.body.isBare = true ∧ f.body.bars = 0

/-- A right side is refused for an empty alternation if and only if reading comes to the end of
one. -/
theorem readAlternatives_eq_emptyAlternation_iff {right site : List Char} :
    (∃ i, readAlternatives limit right = .error i ∧ i.fault = ⟨.emptyAlternation, site⟩) ↔
      LeftEmpty limit right site := by
  constructor
  · rintro ⟨⟨fault, frames, finished⟩, h, rfl⟩
    have hstart : Opened limit right limit (.start right) [] right :=
      .definition rfl (.only .nothing)
    obtain ⟨c, hsteps, hfailed, -⟩ := Config.exists_steps_of_run_eq_error h
    obtain ⟨depth, hopened⟩ := hstart.steps (c := ⟨.start right, [], right⟩) hsteps
    obtain ⟨hends, hempty, hsite, -⟩ := Config.step_eq_emptyAlternation_iff.1 hfailed
    exact ⟨depth, c.frame, c.outer, c.rest, hopened, hends, hsite,
      (Expr.contributes_eq_false_iff _).1 hempty⟩
  · rintro ⟨depth, f, outer, rest, hopened, hends, rfl, hempty⟩
    have hfailed : Config.step limit ⟨f, outer, rest⟩ =
        .failed ⟨.emptyAlternation, f.site⟩ false :=
      Config.step_eq_emptyAlternation_iff.2
        ⟨hends, (Expr.contributes_eq_false_iff _).2 hempty, rfl, rfl⟩
    exact ⟨_, hopened.steps_start.run_eq.trans (Config.run_of_step_eq_failed hfailed), rfl⟩

/-- `text` begins with a definition of `name`, in whose right side an alternation that begins at
`site` is left empty. -/
def Definition.LeftEmpty (limit : ℕ) (name : String) (text site : List Char) : Prop :=
  ∃ mid mark right, NameText name text mid ∧ Skips .sameLine mid (':' :: ':' :: '=' :: mark) ∧
    Skips .anyLine mark right ∧ EbnfTables.LeftEmpty limit right site

theorem readDefinition_eq_emptyAlternation_iff {text site : List Char} {begun : Option String} :
    (∃ refusal, readDefinition limit text = .error refusal ∧
        refusal.fault = ⟨.emptyAlternation, site⟩ ∧ refusal.begun.map OpenDefinition.name = begun) ↔
      ∃ name, begun = some name ∧ Definition.LeftEmpty limit name text site := by
  constructor
  · rintro ⟨refusal, h, hfault, rfl⟩
    unfold readDefinition at h
    split at h
    · cases h
      cases hfault
    · rename_i name mid hname
      simp only at h
      split at h
      · cases h
        cases hfault
      · rename_i mark hmark
        split at h
        · rename_i fault frames finished hread
          cases h
          refine ⟨name, rfl, mid, mark, _, readName?_eq_some_iff.1 hname, ?_,
            Spacing.skips_skip _ _, readAlternatives_eq_emptyAlternation_iff.1 ⟨_, hread, hfault⟩⟩
          exact Spacing.skip_eq_iff.1 (Text.after?_eq_some_iff.1 hmark)
        · cases h
  · rintro ⟨name, rfl, mid, mark, right, hname, hmark, hright, hempty⟩
    obtain ⟨⟨fault, frames, finished⟩, hread, hfault⟩ :=
      readAlternatives_eq_emptyAlternation_iff.2 hempty
    have hsign : Text.after? [':', ':', '='] (Spacing.sameLine.skip mid) = some mark :=
      Text.after?_eq_some_iff.2 (Spacing.skip_eq_iff.2 hmark)
    refine ⟨⟨fault, some ⟨name, text, frames, finished⟩⟩, ?_, hfault, rfl⟩
    simp only [readDefinition, readName?_eq_some_iff.2 hname, hsign, Spacing.skip_eq_iff.2 hright,
      hread]

end EbnfTables
