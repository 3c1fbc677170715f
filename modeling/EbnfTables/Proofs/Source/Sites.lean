import EbnfTables.Proofs.Source.Faults

/-!
# Sites are end parts of the text

Every site that a reading gives out, those of its definitions and that of its fault, is an end part
of the text that was read, and so has a place in it.

* The faults of atoms arise inside the atom (`readAtom?_site_suffix`);
* `Config.Within text c` says that the machine is inside `text`, and its steps stay there
  (`Config.Within.step`);
* so all sites of a whole reading are inside (`Reading.Within`, `read_within`).
-/

namespace EbnfTables

variable {limit : ℕ} {text site cs : List Char} {fault : Fault}

/-! ### Atoms -/

theorem readLiteral_site_suffix (hcs : cs <:+ site) (h : readLiteral site cs = .error fault) :
    fault.site <:+ site := by
  fun_induction readLiteral site cs with
  | case1 => cases h; exact List.suffix_rfl
  | case2 => cases h
  | case3 => cases h; exact hcs
  | case4 c cs _ d rest hread fault' hrest ih =>
    cases h
    exact ih ((readChar_remains hread).isSuffix.trans hcs) hrest
  | case5 => cases h

theorem readMember_site_suffix (h : readMember cs = .error fault) : fault.site <:+ cs := by
  unfold readMember at h
  split at h
  · cases h
    exact List.suffix_rfl
  · rename_i c rest hread
    have hrest := (readChar_remains hread).isSuffix
    split at h
    · cases h
    · split at h
      · split at h
        · cases h
          exact hrest
        · split at h
          · cases h
          · split at h
            · cases h
              exact (List.suffix_cons _ _).trans hrest
            · cases h
      · cases h

theorem readMembers_site_suffix (hcs : cs <:+ site) (h : readMembers site cs = .error fault) :
    fault.site <:+ site := by
  fun_induction readMembers site cs with
  | case1 => cases h; exact List.suffix_rfl
  | case2 => cases h
  | case3 c cs _ fault' hread =>
    cases h
    exact (readMember_site_suffix hread).trans hcs
  | case4 c cs _ m rest hread fault' hrest ih =>
    cases h
    exact ih ((readMember_remains hread).isSuffix.trans hcs) hrest
  | case5 => cases h

theorem readAtom?_site_suffix (h : readAtom? cs = some (.error fault)) : fault.site <:+ cs := by
  unfold readAtom? at h
  split at h
  · cases h
  · rename_i c cs
    split at h
    · split at h
      · rename_i hread
        cases h
        exact readLiteral_site_suffix (List.suffix_cons c cs) hread
      · cases h
    · split at h
      · unfold readClass at h
        split at h
        · rename_i hread
          cases h
          exact readMembers_site_suffix
            ((readNegation_suffix cs).trans (List.suffix_cons c cs)) hread
        · cases h
      · obtain ⟨⟨name, rest⟩, -, heq⟩ := Option.map_eq_some_iff.1 h
        cases heq

/-! ### Right sides -/

namespace Config

/-- What is left of the text, and all that was begun, is inside `text`. -/
structure Within (text : List Char) (c : Config) : Prop where
  rest : c.rest <:+ text
  frame : c.frame.site <:+ text
  outer : ∀ f ∈ c.outer, f.site <:+ text

namespace Within

variable {c next : Config}

theorem start (h : cs <:+ text) : Within text ⟨.start cs, [], cs⟩ := ⟨h, h, by simp⟩

/-- A step stays inside the text. -/
theorem step (hstep : c.Step limit next) (h : Within text c) : Within text next := by
  have hrest := (step_more_remains hstep.step_eq_more).isSuffix.trans h.rest
  refine ⟨hrest, ?_, ?_⟩
  · cases hstep with
    | atom | bar => exact h.frame
    | openGroup => exact hrest
    | quantifier _ hf =>
      obtain ⟨_, _, -, -, rfl⟩ := Frame.quantify?_eq_some_iff.1 hf
      exact h.frame
    | @closeGroup f g outer rest hc => exact h.outer g List.mem_cons_self
  · cases hstep with
    | atom | bar | quantifier => exact h.outer
    | openGroup => exact List.forall_mem_cons.2 ⟨h.frame, h.outer⟩
    | closeGroup => exact (List.forall_mem_cons.1 h.outer).2

theorem steps {d : Config} (hsteps : Steps limit c d) (h : Within text c) : Within text d := by
  induction hsteps with
  | refl => exact h
  | tail _ hstep ih => exact ih.step hstep

/-- A step is refused inside the text. -/
theorem site_suffix {finished : Bool} (h : Within text c) (hfails : c.Fails limit fault finished) :
    fault.site <:+ text := by
  cases hfails with
  | atom hatom => exact (readAtom?_site_suffix hatom).trans h.rest
  | emptyAlternation => exact h.frame
  | nestingTooDeep | missingOperand | expectingNewline | unexpectedEnd | expectingCloseParen =>
    exact h.rest

end Within

end Config

theorem readAlternatives_site_suffix {i : Interruption} (h : readAlternatives limit cs = .error i) :
    i.fault.site <:+ cs := by
  obtain ⟨d, hsteps, hfailed, -⟩ := Config.exists_steps_of_run_eq_error h
  have hwithin : d.Within cs := (Config.Within.start List.suffix_rfl).steps hsteps
  exact hwithin.site_suffix (Config.fails_of_step_eq_failed hfailed)

/-! ### Definitions -/

/-- The fault, and the definition in which it arose, are inside `text`. -/
structure Refusal.Within (text : List Char) (refusal : Refusal) : Prop where
  fault : refusal.fault.site <:+ text
  begun : ∀ d, refusal.begun = some d → d.site <:+ text

/-- All sites of a reading are inside `text`. -/
structure Reading.Within (text : List Char) (r : Reading) : Prop where
  definitions : ∀ d ∈ r.definitions, d.site <:+ text
  refusal : ∀ refusal, r.refusal = some refusal → refusal.Within text

theorem readDefinition_site {d : Definition} {rest : List Char}
    (h : readDefinition limit cs = .ok (d, rest)) : d.site = cs := by
  unfold readDefinition at h
  split at h
  · cases h
  · simp only at h
    split at h
    · cases h
    · split at h <;> cases h
      rfl

theorem readDefinition_within {refusal : Refusal} (h : readDefinition limit cs = .error refusal) :
    refusal.Within cs := by
  unfold readDefinition at h
  split at h
  · cases h
    exact ⟨List.suffix_rfl, by simp⟩
  · rename_i name mid hname
    have hmid := (Spacing.sameLine.skip_suffix mid).trans (readName?_remains hname).isSuffix
    simp only at h
    split at h
    · cases h
      exact ⟨hmid, by simp⟩
    · rename_i mark hmark
      have hmark : mark <:+ cs := by
        rw [Text.after?_eq_some_iff.1 hmark] at hmid
        exact (List.suffix_append _ _).trans hmid
      split at h
      · rename_i fault frames finished hread
        cases h
        refine ⟨?_, by simp⟩
        exact (readAlternatives_site_suffix hread).trans
          ((Spacing.anyLine.skip_suffix mark).trans hmark)
      · cases h

theorem readDefinitions_within (hcs : cs <:+ text) : (readDefinitions limit cs).Within text := by
  fun_induction readDefinitions limit cs with
  | case1 => exact ⟨by simp, by simp⟩
  | case2 c cs refusal hread =>
    refine ⟨by simp, fun refusal' heq => ?_⟩
    obtain rfl := Option.some.inj heq
    obtain ⟨hfault, hbegun⟩ := readDefinition_within hread
    exact ⟨hfault.trans hcs, fun d hd => (hbegun d hd).trans hcs⟩
  | case3 c cs d rest hread more ih =>
    obtain ⟨hdefinitions, hrefusal⟩ := ih ((readDefinition_remains hread).isSuffix.trans hcs)
    refine ⟨List.forall_mem_cons.2 ⟨?_, hdefinitions⟩, hrefusal⟩
    rw [readDefinition_site hread]
    exact hcs

/-- All sites of a reading are inside the text. -/
theorem read_within (limit : ℕ) (text : List Char) : (read limit text).Within text :=
  readDefinitions_within (Spacing.anyLine.skip_suffix text)

end EbnfTables
