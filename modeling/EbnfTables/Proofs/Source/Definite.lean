import EbnfTables.Proofs.Source.Extension

/-!
# Faults that are definite

A text may be refused for what stands in it, or because it ends too early.  In the first case it is
refused for the same fault when it goes on with `more`.

* `SyntaxError.IsDefinite` are the errors of the first kind.  What is wrong inside a literal or a
  class stays wrong (`readAtom?_append_of_error`);
* `Config.append` is a configuration in a text that goes on.  The machine comes to it by the same
  steps, as long as something is left of the text (`Config.Steps.append`), and is refused there for
  the same definite fault (`Config.step_append_of_failed`).

Main result: `readAlternatives_append_of_error`.
-/

namespace EbnfTables

variable {cs site text rest more : List Char} {limit : ℕ}

/-- What stands in the text is wrong, whatever follows.  The other errors may be due to the end of
the text; of the escapes, only those of one letter are known to be wrong by this letter. -/
def SyntaxError.IsDefinite : SyntaxError → Prop
  | unknownEscape c => c ∉ ['x', 'u', 'U']
  | invalidCodePoint _ | expectingName | expectingCloseParen | missingOperand | expectingNewline
  | nestingTooDeep _ => True
  | unterminatedLiteral | unterminatedClass | expectingDefinition | emptyAlternation
  | malformedRange | unexpectedEnd => False

/-- The same fault in a text that goes on. -/
def Fault.append (fault : Fault) (more : List Char) : Fault :=
  { fault with site := fault.site ++ more }

/-! ### Literals and classes -/

theorem escapeWidth?_eq_none {c : Char} (h : c ∉ ['x', 'u', 'U']) : escapeWidth? c = none := by
  simp only [List.mem_cons, List.not_mem_nil, or_false, not_or] at h
  simp [escapeWidth?, h]

section Lexical

variable {e : SyntaxError} {fault : Fault}

theorem readEscape_append_of_error (h : readEscape cs = .error e) (he : e.IsDefinite)
    (more : List Char) : readEscape (cs ++ more) = .error e := by
  cases cs with
  | nil =>
    cases h
    exact he.elim
  | cons c cs =>
    simp only [readEscape, List.cons_append] at h ⊢
    split at h
    · cases h
    · split at h
      · -- no digit is looked at behind a letter that stands for no numeric escape
        cases h
        rw [escapeWidth?_eq_none he]
        rfl
      · rename_i hread
        obtain ⟨width, hwidth, hhex⟩ := Option.bind_eq_some_iff.1 hread
        simp only [hwidth, Option.bind_some, Text.readHex?_append hhex]
        split at h
        · cases h
        · rename_i hvalid
          rw [if_neg hvalid, h]

theorem readChar_append_of_error (h : readChar cs = .error e) (he : e.IsDefinite)
    (more : List Char) : readChar (cs ++ more) = .error e := by
  cases cs with
  | nil =>
    cases h
    exact he.elim
  | cons c cs =>
    simp only [readChar, List.cons_append] at h ⊢
    split at h
    · rename_i hc
      rw [if_pos hc]
      exact readEscape_append_of_error h he more
    · cases h

theorem readLiteral_append_of_error (h : readLiteral site cs = .error fault)
    (hfault : fault.error.IsDefinite) (more : List Char) :
    readLiteral (site ++ more) (cs ++ more) = .error (fault.append more) := by
  fun_induction readLiteral site cs with
  | case1 =>
    cases h
    exact hfault.elim
  | case2 => cases h
  | case3 c cs hc e hread =>
    cases h
    have hread' : readChar (c :: (cs ++ more)) = .error e :=
      readChar_append_of_error hread hfault more
    exact readLiteral_of_readChar_eq_error hc hread' _
  | case4 c cs hc d mid hread fault' hrest ih =>
    cases h
    have hread' : readChar (c :: (cs ++ more)) = .ok (d, mid ++ more) := readChar_append hread more
    rw [List.cons_append, readLiteral_of_readChar_eq_ok hc hread', ih hrest]
    rfl
  | case5 => cases h

theorem readMember_append_of_error (h : readMember cs = .error fault)
    (hfault : fault.error.IsDefinite) (more : List Char) :
    readMember (cs ++ more) = .error (fault.append more) := by
  unfold readMember at h ⊢
  split at h
  · rename_i e hread
    cases h
    rw [readChar_append_of_error hread hfault more]
    rfl
  · rename_i c mid hread
    rw [readChar_append hread more]
    split at h
    · cases h
    · rename_i d behind
      simp only [List.cons_append]
      split at h
      · rename_i hdash
        rw [if_pos hdash]
        split at h
        · cases h
          exact hfault.elim
        · rename_i d' after
          simp only [List.cons_append]
          split at h
          · cases h
          · rename_i hclose
            rw [if_neg hclose]
            split at h
            · rename_i e hupper
              cases h
              have hupper' := readChar_append_of_error hupper hfault more
              rw [List.cons_append] at hupper'
              rw [hupper']
              rfl
            · cases h
      · cases h

theorem readMembers_append_of_error (h : readMembers site cs = .error fault)
    (hfault : fault.error.IsDefinite) (more : List Char) :
    readMembers (site ++ more) (cs ++ more) = .error (fault.append more) := by
  fun_induction readMembers site cs with
  | case1 =>
    cases h
    exact hfault.elim
  | case2 => cases h
  | case3 c cs hc fault' hread =>
    cases h
    have hread' : readMember (c :: (cs ++ more)) = .error (fault.append more) :=
      readMember_append_of_error hread hfault more
    exact readMembers_of_readMember_eq_error hc hread' _
  | case4 c cs hc m mid hread fault' hrest ih =>
    cases h
    -- a class that is not closed is no definite fault
    have hmid : mid ≠ [] := by
      rintro rfl
      rw [readMembers] at hrest
      cases hrest
      exact hfault.elim
    have hread' : readMember (c :: (cs ++ more)) = .ok (m, mid ++ more) :=
      ((memberText_of_readMember hread).append hmid more).readMember_eq
    rw [List.cons_append, readMembers_of_readMember_eq_ok hc hread', ih hrest]
    rfl
  | case5 => cases h

theorem readClass_append_of_error (h : readClass site cs = .error fault)
    (hfault : fault.error.IsDefinite) (more : List Char) :
    readClass (site ++ more) (cs ++ more) = .error (fault.append more) := by
  unfold readClass at h ⊢
  split at h
  · rename_i hread
    cases h
    have hnegation : (readNegation (cs ++ more)).2 = (readNegation cs).2 ++ more := by
      cases cs with
      | nil =>
        rw [readNegation, readMembers] at hread
        cases hread
        exact hfault.elim
      | cons c cs =>
        simp only [List.cons_append, readNegation]
        split <;> rfl
    rw [hnegation, readMembers_append_of_error hread hfault more]
  · cases h

/-! ### Atoms -/

theorem readAtom?_append_of_error (h : readAtom? cs = some (.error fault))
    (hfault : fault.error.IsDefinite) (more : List Char) :
    readAtom? (cs ++ more) = some (.error (fault.append more)) := by
  cases cs with
  | nil => cases h
  | cons c cs =>
    simp only [readAtom?, List.cons_append] at h ⊢
    split at h
    · rename_i hquote
      rw [if_pos hquote]
      split at h
      · rename_i hread
        cases h
        have hread' := readLiteral_append_of_error hread hfault more
        rw [List.cons_append] at hread'
        rw [hread']
      · cases h
    · rename_i hquote
      rw [if_neg hquote]
      split at h
      · rename_i hbracket
        rw [if_pos hbracket]
        have hread' := readClass_append_of_error (Option.some.inj h) hfault more
        rw [List.cons_append] at hread'
        rw [hread']
      · obtain ⟨result, -, heq⟩ := Option.map_eq_some_iff.1 h
        cases heq

/-- An atom that does not reach to the end of the text is the same in a text that goes on. -/
theorem readAtom?_append {e : Expr .item} (h : readAtom? cs = some (.ok (e, rest)))
    (hrest : rest ≠ []) (more : List Char) :
    readAtom? (cs ++ more) = some (.ok (e, rest ++ more)) := by
  have hatom : ExprText .anyLine 0 e cs rest := exprText_of_readAtom? h
  cases hatom with
  | literal h => exact readAtom?_literal (h.append more)
  | charClass h => exact readAtom?_charClass (h.append more)
  | ref h => exact readAtom?_ref (h.append (.inl hrest : Seam .anyLine rest more))

/-- What is no atom is told by its first character. -/
theorem readAtom?_append_of_none {c : Char} (h : readAtom? (c :: cs) = none) (more : List Char) :
    readAtom? (c :: cs ++ more) = none := by
  simp only [readAtom?, List.cons_append] at h ⊢
  split at h
  · cases h
  · rename_i hquote
    rw [if_neg hquote]
    split at h
    · cases h
    · rename_i hbracket
      rw [if_neg hbracket]
      rw [Option.map_eq_none_iff, readName?_cons_eq_none_iff] at h ⊢
      exact h

end Lexical

/-! ### The machine -/

theorem ne_nil_of_isSuffix (h : rest <:+ text) (hrest : rest ≠ []) : text ≠ [] := by
  rintro rfl
  exact hrest (List.suffix_nil.1 h)

theorem Spacing.skip_append {s : Spacing} (h : s.skip cs ≠ []) (more : List Char) :
    s.skip (cs ++ more) = s.skip cs ++ more :=
  skipFrom_append false (.inl h)

namespace Frame

variable (f : Frame) (more : List Char)

/-- The same alternation in a text that goes on. -/
def append : Frame := { f with site := f.site ++ more }

theorem quantify?_append (q : Quantifier) :
    (f.append more).quantify? q = (f.quantify? q).map fun g => g.append more := by
  simp only [quantify?, Option.map_map]
  rfl

end Frame

namespace Config

variable {c next d : Config} {f : Frame} {fault : Fault} {finished : Bool}

/-- The same configuration in a text that goes on. -/
def append (c : Config) (more : List Char) : Config :=
  ⟨c.frame.append more, c.outer.map fun f => f.append more, c.rest ++ more⟩

@[simp] theorem spacing_append (c : Config) (more : List Char) :
    (c.append more).spacing = c.spacing := by
  obtain ⟨frame, outer, rest⟩ := c
  cases outer <;> rfl

theorem resume_append (h : (c.resume f rest).rest ≠ []) (more : List Char) :
    (c.append more).resume (f.append more) (rest ++ more) = (c.resume f rest).append more := by
  simp only [resume, spacing_append, Spacing.skip_append h]
  rfl

theorem Step.append (h : Step limit c next) (hnext : next.rest ≠ []) (more : List Char) :
    Step limit (c.append more) (next.append more) := by
  have hcons {ch : Char} {behind : List Char} (hrest : c.rest = ch :: behind) :
      (c.append more).rest = ch :: (behind ++ more) := by
    simp only [Config.append, hrest, List.cons_append]
  cases h with
  | atom hatom =>
    have hrest : _ ≠ [] := ne_nil_of_isSuffix (Spacing.skip_suffix _ _) hnext
    rw [← resume_append hnext]
    exact .atom (readAtom?_append hatom hrest more)
  | openGroup hrest hlimit =>
    have hlimit' : (c.append more).outer.length < limit := by
      rwa [Config.append, List.length_map]
    have hstep := Step.openGroup (hcons hrest) hlimit'
    rwa [Config.openGroup, Spacing.skip_append hnext] at hstep
  | bar hrest =>
    have hstep : Step limit (c.append more) _ := .bar (hcons hrest)
    rwa [Spacing.skip_append hnext] at hstep
  | @quantifier _ q f _ hrest hf =>
    have hf' : (c.append more).frame.quantify? q = some (f.append more) := by
      rw [Config.append, Frame.quantify?_append, hf, Option.map_some]
    rw [← resume_append hnext]
    exact .quantifier (hcons hrest) hf'
  | closeGroup hc =>
    rw [← resume_append hnext]
    exact .closeGroup hc

/-- A place at which something is left of the text is reached in the same way when the text goes
on. -/
theorem Steps.append (h : Steps limit c d) (hd : d.rest ≠ []) (more : List Char) :
    Steps limit (c.append more) (d.append more) := by
  induction h with
  | refl => exact .refl
  | @tail mid d _ hstep ih =>
    have hmid : mid.rest ≠ [] := by
      obtain ⟨ch, behind, heq, -⟩ := step_more_remains hstep.step_eq_more
      rw [heq]
      exact List.cons_ne_nil _ _
    exact (ih hmid).tail (hstep.append hd more)

theorem close_append_of_failed (h : c.close = .failed fault finished)
    (hfault : fault.error.IsDefinite) (more : List Char) :
    (c.append more).close = .failed (fault.append more) finished := by
  obtain ⟨f, outer, text⟩ := c
  cases hc : f.body.contributes with
  | false =>
    simp only [close, hc, Bool.false_eq_true, if_false] at h
    cases h
    exact hfault.elim
  | true =>
    have hc' : (f.append more).body.contributes = true := hc
    simp only [Config.append, close, hc, hc', if_true] at h ⊢
    cases outer with
    | nil =>
      simp only [List.map_nil] at h ⊢
      split at h
      · rename_i hend
        cases h
        obtain ⟨ch, text, rfl, hcr, hlf⟩ := exists_cons_of_readLineEnd?_eq_none hend
        have hend' : readLineEnd? (ch :: text ++ more) = none := by simp [readLineEnd?, hcr, hlf]
        rw [hend']
        rfl
      · cases h
    | cons g outer =>
      cases text with
      | nil =>
        cases h
        exact hfault.elim
      | cons ch text =>
        simp only [List.map_cons, List.cons_append] at h ⊢
        split at h
        · cases h
        · rename_i hclose
          cases h
          rw [if_neg hclose]
          rfl

/-- Where a definite fault is found, something is left of the text. -/
theorem Fails.rest_ne_nil (h : c.Fails limit fault finished) (hfault : fault.error.IsDefinite) :
    c.rest ≠ [] := by
  cases h with
  | atom hatom =>
    intro hrest
    rw [hrest] at hatom
    cases hatom
  | nestingTooDeep hrest | missingOperand hrest | expectingCloseParen _ hrest =>
    rw [hrest]
    exact List.cons_ne_nil _ _
  | expectingNewline _ hend =>
    intro hrest
    rw [hrest] at hend
    cases hend
  | emptyAlternation | unexpectedEnd => exact hfault.elim

/-- A step that is refused for a definite fault is refused for it in a text that goes on. -/
theorem step_append_of_failed (h : c.step limit = .failed fault finished)
    (hfault : fault.error.IsDefinite) (more : List Char) :
    (c.append more).step limit = .failed (fault.append more) finished := by
  obtain ⟨ch, behind, hrest⟩ := List.exists_cons_of_ne_nil
    ((fails_of_step_eq_failed h).rest_ne_nil hfault)
  obtain ⟨f, outer, text⟩ := c
  obtain rfl : text = ch :: behind := hrest
  cases hatom : readAtom? (ch :: behind) with
  | some result =>
    simp only [step, hatom] at h
    cases result with
    | error fault' =>
      cases h
      have hatom' := readAtom?_append_of_error hatom hfault more
      simp only [step, Config.append, hatom']
    | ok result => cases h
  | none =>
    have hatom' : readAtom? (ch :: (behind ++ more)) = none := readAtom?_append_of_none hatom more
    simp only [step, hatom] at h
    simp only [step, Config.append, List.cons_append, hatom', List.length_map]
    split at h
    · rename_i hopen
      rw [if_pos hopen]
      split at h
      · cases h
      · rename_i hlimit
        cases h
        rw [if_neg hlimit]
        rfl
    · rename_i hopen
      rw [if_neg hopen]
      split at h
      · cases h
      · rename_i hbar
        rw [if_neg hbar]
        split at h
        · exact close_append_of_failed h hfault more
        · split at h
          · rename_i hf
            cases h
            rw [Frame.quantify?_append, hf]
            rfl
          · cases h

end Config

/-- A right side that is refused for a definite fault is refused for it in a text that goes on. -/
theorem readAlternatives_append_of_error {i : Interruption}
    (h : readAlternatives limit cs = .error i) (hfault : i.fault.error.IsDefinite) (more : List Char) :
    readAlternatives limit (cs ++ more) = .error
      ⟨i.fault.append more, i.frames.map fun f => f.append more, i.finished⟩ := by
  obtain ⟨c, hsteps, hfailed, hframes⟩ := Config.exists_steps_of_run_eq_error h
  have hrest := (Config.fails_of_step_eq_failed hfailed).rest_ne_nil hfault
  have hsteps' := hsteps.append hrest more
  have hrun := Config.run_of_step_eq_failed (Config.step_append_of_failed hfailed hfault more)
  rw [hframes]
  exact hsteps'.run_eq.trans hrun

theorem ne_nil_of_readAlternatives_eq_error {i : Interruption}
    (h : readAlternatives limit cs = .error i) (hfault : i.fault.error.IsDefinite) : cs ≠ [] := by
  obtain ⟨c, hsteps, hfailed, -⟩ := Config.exists_steps_of_run_eq_error h
  have hrest := (Config.fails_of_step_eq_failed hfailed).rest_ne_nil hfault
  rcases Config.Steps.eq_or_remains hsteps with rfl | hremains
  · exact hrest
  · exact ne_nil_of_isSuffix hremains.isSuffix hrest

end EbnfTables
