import EbnfTables.Proofs.Source.Faults
import EbnfTables.Proofs.Source.Reading
import Mathlib.Order.Lattice

/-!
# Nested groups

How deep in groups a place of a source is, and what the bound on nested groups does to reading.

* `Expr.nesting` is the depth of an expression: the bound matters only up to there
  (`ExprText.nesting_le`, `ExprText.of_nesting_le`);
* `Inside right n site`: in the right side that begins at `right`, the place `site` is inside `n`
  groups that are open there.  No place is inside two numbers of groups (`Inside.unique`);
* groups are refused for their depth only at the parenthesis of one group too many
  (`nestingTooDeep_of_read`);
* with a larger bound, a text is read in the same way, or the smaller bound was exceeded.  In the
  second case the two readings agree up to the definition in which this happens
  (`readDefinitions_eq_or_nestingTooDeep`).
-/

namespace EbnfTables

variable {limit limit' : ℕ}

/-! ### The depth of an expression -/

/-- The number of groups that are open at a time inside an expression. -/
def Expr.nesting : {level : Level} → Expr level → ℕ
  | _, literal _ | _, charClass _ _ | _, ref _ | _, nothing => 0
  | _, group body => body.nesting + 1
  | _, repeated _ operand => operand.nesting
  | _, snoc front last => max front.nesting last.nesting
  | _, only sequence => sequence.nesting
  | _, orElse earlier last => max earlier.nesting last.nesting

namespace ExprText

variable {s : Spacing} {depth depth' : ℕ} {level : Level} {e : Expr level} {text rest : List Char}

theorem nesting_le (h : ExprText s depth e text rest) : e.nesting ≤ depth := by
  induction h with
  | literal | charClass | ref | nothing => exact Nat.zero_le _
  | group _ _ _ ih => exact Nat.succ_le_succ ih
  | snoc _ _ _ ihfront ihlast => exact max_le ihfront ihlast
  | quantified _ _ _ ih => exact ih
  | only _ ih => exact ih
  | orElse _ _ _ ihearlier ihlast => exact max_le ihearlier ihlast

/-- The depth has to suffice for the groups that there are. -/
theorem of_nesting_le (h : ExprText s depth e text rest) (hle : e.nesting ≤ depth') :
    ExprText s depth' e text rest := by
  induction h generalizing depth' with
  | literal h => exact .literal h
  | charClass h => exact .charClass h
  | ref h => exact .ref h
  | group hskip _ hc ih =>
    obtain ⟨depth'', rfl⟩ : ∃ n, depth' = n + 1 := ⟨depth' - 1, by rw [Expr.nesting] at hle; omega⟩
    exact .group hskip (ih (Nat.le_of_succ_le_succ hle)) hc
  | nothing => exact .nothing
  | snoc _ _ hskip ihfront ihlast =>
    obtain ⟨hfront, hlast⟩ := Nat.max_le.1 hle
    exact .snoc (ihfront hfront) (ihlast hlast) hskip
  | quantified _ hc hskip ih => exact .quantified (ih hle) hc hskip
  | only _ ih => exact .only (ih hle)
  | orElse _ hskip _ ihearlier ihlast =>
    obtain ⟨hearlier, hlast⟩ := Nat.max_le.1 hle
    exact .orElse (ihearlier hearlier) hskip (ihlast hlast)

/-- What may be nested in few groups may be nested in more. -/
theorem mono (h : ExprText s depth e text rest) (hle : depth ≤ depth') :
    ExprText s depth' e text rest :=
  h.of_nesting_le (h.nesting_le.trans hle)

end ExprText

/-! ### The depth of a place -/

/-- In the right side that begins at `right`, the place `site` is inside `n` groups.  Each of them
is open there: what was read of it is an expression, and its closing parenthesis was not read. -/
inductive Inside (right : List Char) : ℕ → List Char → Prop
  | definition {depth : ℕ} {e : Expr .alternatives} {site : List Char}
      (h : ExprText .sameLine depth e right site) : Inside right 0 site
  | group {n depth : ℕ} {e : Expr .alternatives} {mid start site : List Char}
      (houter : Inside right n ('(' :: mid)) (hskip : Skips .anyLine mid start)
      (hbody : ExprText .anyLine depth e start site) : Inside right (n + 1) site

theorem Opened.inside {right rest : List Char} {depth : ℕ} {f : Frame} {outer : List Frame}
    (h : Opened limit right depth f outer rest) : Inside right outer.length rest := by
  induction h with
  | definition hsite hf => exact .definition (hsite ▸ hf)
  | group _ hskip hf ih => exact .group ih hskip hf

theorem Opened.steps {right : List Char} {depth : ℕ} {c d : Config}
    (h : Opened limit right depth c.frame c.outer c.rest) (hsteps : Config.Steps limit c d) :
    ∃ depth', Opened limit right depth' d.frame d.outer d.rest := by
  induction hsteps with
  | refl => exact ⟨depth, h⟩
  | tail _ hstep ih =>
    obtain ⟨depth', h'⟩ := ih
    exact h'.step hstep

/-- A right side is refused at a configuration that was read as the grammar says. -/
theorem exists_opened_of_readAlternatives_eq_error {right : List Char} {i : Interruption}
    (h : readAlternatives limit right = .error i) :
    ∃ (c : Config) (depth : ℕ), Opened limit right depth c.frame c.outer c.rest ∧
      c.Fails limit i.fault i.finished ∧ i.frames = c.frame :: c.outer := by
  have hstart : Opened limit right limit (.start right) [] right := .definition rfl (.only .nothing)
  obtain ⟨c, hsteps, hfailed, hframes⟩ := Config.exists_steps_of_run_eq_error h
  obtain ⟨depth, hopened⟩ := hstart.steps (c := ⟨.start right, [], right⟩) hsteps
  exact ⟨c, depth, hopened, Config.fails_of_step_eq_failed hfailed, hframes⟩

namespace Config

theorem step_rightUnique : Relator.RightUnique (Step limit) := by
  intro c d e hd he
  have heq := hd.step_eq_more.symm.trans he.step_eq_more
  exact Move.more.inj heq

/-- Steps leave less text. -/
theorem Steps.eq_or_remains {c d : Config} (h : Steps limit c d) :
    c = d ∨ Text.Remains d.rest c.rest := by
  induction h with
  | refl => exact .inl rfl
  | tail _ hstep ih =>
    have hrest := step_more_remains hstep.step_eq_more
    rcases ih with rfl | hremains
    · exact .inr hrest
    · exact .inr (hrest.trans hremains)

/-- From one configuration, no two are reached that leave the same text. -/
theorem Steps.unique {c d e : Config} (hd : Steps limit c d) (he : Steps limit c e)
    (hrest : d.rest = e.rest) : d = e := by
  have hself (text : List Char) : ¬ Text.Remains text text := fun h => lt_irrefl _ h.length_lt
  rcases Relation.ReflTransGen.total_of_right_unique step_rightUnique hd he with hde | hed
  · refine (Steps.eq_or_remains hde).resolve_right fun h => ?_
    rw [hrest] at h
    exact hself _ h
  · refine ((Steps.eq_or_remains hed).resolve_right fun h => ?_).symm
    rw [hrest] at h
    exact hself _ h

end Config

namespace Inside

variable {right site : List Char} {n : ℕ}

/-- With any large enough bound, the machine comes to a place with a frame for every group that is
open there. -/
theorem exists_steps (h : Inside right n site) :
    ∃ least, ∀ limit ≥ least, ∃ f outer, outer.length = n ∧
      Config.Steps limit ⟨.start right, [], right⟩ ⟨f, outer, site⟩ := by
  induction h with
  | @definition depth e site h =>
    refine ⟨depth, fun limit hlimit => ⟨.ofBody right e, [], rfl, ?_⟩⟩
    exact passes_of_exprText (h.mono hlimit) right [] rfl rfl
  | @group n depth e mid start site _ hskip hbody ih =>
    obtain ⟨least, ih⟩ := ih
    refine ⟨max least (n + 1 + depth), fun limit hlimit => ?_⟩
    obtain ⟨f, outer, hlength, hsteps⟩ := ih limit ((le_max_left _ _).trans hlimit)
    have hdepth : n + 1 + depth ≤ limit := (le_max_right _ _).trans hlimit
    have hopen : Config.Step limit ⟨f, outer, '(' :: mid⟩
        (Config.openGroup ⟨f, outer, '(' :: mid⟩ mid) :=
      .openGroup rfl (by show outer.length < limit; omega)
    rw [Config.openGroup, Spacing.skip_eq_iff.2 hskip] at hopen
    have hlength' : (f :: outer).length = n + 1 := by rw [List.length_cons, hlength]
    have hpass : Passes limit .anyLine (limit - (n + 1)) e start site :=
      passes_of_exprText (hbody.mono (by omega))
    have hbodySteps := hpass start (f :: outer) (by omega) rfl
    exact ⟨_, f :: outer, hlength', (hsteps.tail hopen).trans hbodySteps⟩

/-- A place is inside one number of groups. -/
theorem unique {n' : ℕ} (h : Inside right n site) (h' : Inside right n' site) : n = n' := by
  obtain ⟨least, hsteps⟩ := h.exists_steps
  obtain ⟨least', hsteps'⟩ := h'.exists_steps
  obtain ⟨f, outer, rfl, hto⟩ := hsteps (max least least') (le_max_left _ _)
  obtain ⟨f', outer', rfl, hto'⟩ := hsteps' (max least least') (le_max_right _ _)
  have heq := hto.unique hto' rfl
  rw [(Config.mk.inj heq).2.1]

end Inside

/-! ### Groups that are nested too deep -/

/-- `text` begins with complete definitions and goes on with `rest`. -/
inductive DefinitionsBefore (limit : ℕ) : List Char → List Char → Prop
  | nil {text : List Char} : DefinitionsBefore limit text text
  | cons {d : Definition} {text mid rest : List Char} (hd : DefinitionText limit d text mid)
      (hds : DefinitionsBefore limit mid rest) : DefinitionsBefore limit text rest

/-- A definition in `text` has its right side at `right`.  Those before it are complete. -/
inductive RightSide (limit : ℕ) (text right : List Char) : Prop
  | intro {name : String} {first start mid mark : List Char} (hfirst : Skips .anyLine text first)
      (hbefore : DefinitionsBefore limit first start) (hname : NameText name start mid)
      (hmark : Skips .sameLine mid (':' :: ':' :: '=' :: mark))
      (hright : Skips .anyLine mark right)

/-- If a right side is refused for its depth, then at the parenthesis of one group too many. -/
theorem nestingTooDeep_of_readAlternatives {right : List Char} {i : Interruption} {k : ℕ}
    (h : readAlternatives limit right = .error i) (hk : i.fault.error = .nestingTooDeep k) :
    k = limit ∧ ∃ more, i.fault.site = '(' :: more ∧ Inside right limit ('(' :: more) := by
  obtain ⟨d, depth, hopened, hfails, -⟩ := exists_opened_of_readAlternatives_eq_error h
  obtain ⟨⟨error, site⟩, frames, finished⟩ := i
  simp only at hk hfails ⊢
  cases hfails with
  | atom hatom =>
    have hlexical := lexicalFault_of_readAtom? hatom
    subst hk
    cases hlexical
  | nestingTooDeep hrest hlimit =>
    cases hk
    have hdepth := hopened.depth_add_length
    have hinside := hopened.inside
    rw [show d.outer.length = limit by omega] at hinside
    exact ⟨rfl, _, hrest, hrest ▸ hinside⟩
  | missingOperand | emptyAlternation | expectingNewline | unexpectedEnd | expectingCloseParen =>
    cases hk

theorem nestingTooDeep_of_readDefinition {text : List Char} {refusal : Refusal} {k : ℕ}
    (h : readDefinition limit text = .error refusal)
    (hk : refusal.fault.error = .nestingTooDeep k) :
    k = limit ∧ ∃ name mid mark right more, NameText name text mid ∧
      Skips .sameLine mid (':' :: ':' :: '=' :: mark) ∧ Skips .anyLine mark right ∧
      refusal.fault.site = '(' :: more ∧ Inside right limit ('(' :: more) := by
  unfold readDefinition at h
  split at h
  · cases h; cases hk
  · rename_i name mid hname
    simp only at h
    split at h
    · cases h; cases hk
    · rename_i mark hmark
      split at h
      · rename_i fault frames finished hread
        cases h
        obtain ⟨rfl, more, hsite, hinside⟩ := nestingTooDeep_of_readAlternatives hread hk
        refine ⟨rfl, name, mid, mark, _, more, readName?_eq_some_iff.1 hname, ?_,
          Spacing.skips_skip _ _, hsite, hinside⟩
        exact Spacing.skip_eq_iff.1 (Text.after?_eq_some_iff.1 hmark)
      · cases h

/-- If a text is refused for its depth, then at the parenthesis of one group too many. -/
theorem nestingTooDeep_of_read {text : List Char} {refusal : Refusal} {k : ℕ}
    (h : (read limit text).refusal = some refusal)
    (hk : refusal.fault.error = .nestingTooDeep k) :
    k = limit ∧ ∃ right more, RightSide limit text right ∧ refusal.fault.site = '(' :: more ∧
      Inside right limit ('(' :: more) := by
  suffices hrow : ∀ first, (readDefinitions limit first).refusal = some refusal →
      k = limit ∧ ∃ start name mid mark right more, DefinitionsBefore limit first start ∧
        NameText name start mid ∧ Skips .sameLine mid (':' :: ':' :: '=' :: mark) ∧
        Skips .anyLine mark right ∧ refusal.fault.site = '(' :: more ∧
        Inside right limit ('(' :: more) by
    obtain ⟨hlimit, start, name, mid, mark, right, more, hbefore, hname, hmark, hright, hsite,
      hinside⟩ := hrow _ h
    exact ⟨hlimit, right, more, .intro (Spacing.skips_skip _ _) hbefore hname hmark hright, hsite,
      hinside⟩
  intro first hfirst
  fun_induction readDefinitions limit first with
  | case1 => cases hfirst
  | case2 c cs refusal' hread =>
    obtain rfl := Option.some.inj hfirst
    obtain ⟨hlimit, name, mid, mark, right, more, hdef⟩ := nestingTooDeep_of_readDefinition hread hk
    exact ⟨hlimit, c :: cs, name, mid, mark, right, more, .nil, hdef⟩
  | case3 c cs d rest hread more ih =>
    obtain ⟨hlimit, start, name, mid, mark, right, more, hbefore, hdef⟩ := ih hfirst
    exact ⟨hlimit, start, name, mid, mark, right, more,
      .cons (readDefinition_eq_ok_iff.1 hread) hbefore, hdef⟩

/-! ### A larger bound -/

namespace Config

theorem step_eq_or_nestingTooDeep (h : limit ≤ limit') (c : Config) :
    c.step limit' = c.step limit ∨
      c.step limit = .failed ⟨.nestingTooDeep limit, c.rest⟩ false := by
  by_cases hlimit : c.outer.length < limit
  · have hlimit' : c.outer.length < limit' := lt_of_lt_of_le hlimit h
    left
    simp only [step, hlimit, hlimit', if_true]
  · -- the bound matters only where a group is opened
    by_cases hopen : readAtom? c.rest = none ∧ ∃ rest, c.rest = '(' :: rest
    · obtain ⟨hatom, rest, hrest⟩ := hopen
      right
      simp only [step, hatom]
      simp [hrest, hlimit]
    · left
      unfold step
      cases hatom : readAtom? c.rest with
      | some result => cases result <;> rfl
      | none =>
        cases hrest : c.rest with
        | nil => rfl
        | cons ch rest =>
          have hch : ch ≠ '(' := by
            rintro rfl
            exact hopen ⟨hatom, rest, hrest⟩
          simp only [if_neg hch]

theorem run_eq_or_nestingTooDeep (h : limit ≤ limit') (c : Config) :
    c.run limit' = c.run limit ∨
      ∃ i, c.run limit = .error i ∧ i.fault.error = .nestingTooDeep limit := by
  fun_induction Config.run limit c with
  | case1 c next hstep ih =>
    rcases c.step_eq_or_nestingTooDeep h with heq | hdeep
    · rwa [run_of_step_eq_more (heq.trans hstep)]
    · rw [hstep] at hdeep
      cases hdeep
  | case2 c body rest hstep =>
    rcases c.step_eq_or_nestingTooDeep h with heq | hdeep
    · exact .inl (run_of_step_eq_done (heq.trans hstep))
    · rw [hstep] at hdeep
      cases hdeep
  | case3 c fault finished hstep =>
    rcases c.step_eq_or_nestingTooDeep h with heq | hdeep
    · exact .inl (run_of_step_eq_failed (heq.trans hstep))
    · rw [hstep] at hdeep
      cases hdeep
      exact .inr ⟨_, rfl, rfl⟩

end Config

/-- The reading begins with a definition of `name` at `site`.  This may be all that was read. -/
inductive Reading.Begins (name : String) (site : List Char) : Reading → Prop
  | definition {d : Definition} {ds : List Definition} {refusal : Option Refusal}
      (hname : d.name = name) (hsite : d.site = site) : Begins name site ⟨d :: ds, refusal⟩
  | openDefinition {fault : Fault} {d : OpenDefinition} (hname : d.name = name)
      (hsite : d.site = site) : Begins name site ⟨[], some ⟨fault, some d⟩⟩

theorem readDefinition_eq_or_nestingTooDeep (h : limit ≤ limit') (text : List Char) :
    readDefinition limit' text = readDefinition limit text ∨
      ∃ fault d, readDefinition limit text = .error ⟨fault, some d⟩ ∧
        fault.error = .nestingTooDeep limit ∧
        ((∃ fault' d', readDefinition limit' text = .error ⟨fault', some d'⟩ ∧
            d'.name = d.name ∧ d'.site = d.site) ∨
          ∃ d' rest, readDefinition limit' text = .ok (d', rest) ∧
            d'.name = d.name ∧ d'.site = d.site) := by
  unfold readDefinition
  cases hname : readName? text with
  | none => exact .inl rfl
  | some result =>
    obtain ⟨name, mid⟩ := result
    cases hmark : Text.after? [':', ':', '='] (Spacing.sameLine.skip mid) with
    | none => exact .inl (by simp only [hmark])
    | some mark =>
      rcases Config.run_eq_or_nestingTooDeep h
        ⟨.start (Spacing.anyLine.skip mark), [], Spacing.anyLine.skip mark⟩ with heq | hdeep
      · left
        simp only [hmark, readAlternatives, heq]
      · obtain ⟨⟨fault, frames, finished⟩, hrun, hfault⟩ := hdeep
        right
        refine ⟨fault, ⟨name, text, frames, finished⟩, ?_, hfault, ?_⟩
        · simp only [hmark, readAlternatives, hrun]
        · cases hread : readAlternatives limit' (Spacing.anyLine.skip mark) with
          | error i =>
            left
            refine ⟨i.fault, ⟨name, text, i.frames, i.finished⟩, ?_, rfl, rfl⟩
            simp only [hmark, hread]
          | ok result =>
            right
            refine ⟨⟨name, text, result.1⟩, Spacing.anyLine.skip result.2, ?_, rfl, rfl⟩
            simp only [hmark, hread]

/-- With a larger bound, a text is read in the same way, or up to the definition in which the
smaller bound was exceeded. -/
theorem readDefinitions_eq_or_nestingTooDeep (h : limit ≤ limit') (text : List Char) :
    readDefinitions limit' text = readDefinitions limit text ∨
      ∃ ds fault d r, readDefinitions limit text = ⟨ds, some ⟨fault, some d⟩⟩ ∧
        fault.error = .nestingTooDeep limit ∧ Reading.Begins d.name d.site r ∧
        readDefinitions limit' text = ⟨ds ++ r.definitions, r.refusal⟩ := by
  fun_induction readDefinitions limit text with
  | case1 => exact .inl (by rw [readDefinitions])
  | case2 c cs refusal hread =>
    rcases readDefinition_eq_or_nestingTooDeep h (c :: cs) with heq | hdeep
    · exact .inl (readDefinitions_of_eq_error (heq.trans hread))
    · obtain ⟨fault, d, hlow, hfault, hhigh⟩ := hdeep
      rw [hread] at hlow
      cases hlow
      right
      refine ⟨[], fault, d, readDefinitions limit' (c :: cs), rfl, hfault, ?_, rfl⟩
      rcases hhigh with ⟨fault', d', hhigh, hname, hsite⟩ | ⟨d', rest, hhigh, hname, hsite⟩
      · rw [readDefinitions_of_eq_error hhigh]
        exact .openDefinition hname hsite
      · rw [readDefinitions_of_eq_ok hhigh]
        exact .definition hname hsite
  | case3 c cs d rest hread more ih =>
    have hread' : readDefinition limit' (c :: cs) = .ok (d, rest) := by
      rcases readDefinition_eq_or_nestingTooDeep h (c :: cs) with heq | ⟨_, _, hlow, -⟩
      · rw [heq, hread]
      · rw [hread] at hlow
        cases hlow
    rcases ih with heq | ⟨ds, fault, d', r, hlow, hfault, hbegins, hhigh⟩
    · left
      rw [readDefinitions_of_eq_ok hread', heq]
    · right
      refine ⟨d :: ds, fault, d', r, ?_, hfault, hbegins, ?_⟩
      · simp only [more, hlow]
      · rw [readDefinitions_of_eq_ok hread', hhigh, List.cons_append]

end EbnfTables
