import EbnfTables.Proofs.Source.Alternatives

/-!
# Where reading fails

What can be wrong inside a definition, and what stands at the place that is blamed.

* `LexicalFault` lists what can be wrong inside a literal or a class.  No atom is refused for
  another reason (`lexicalFault_of_readAtom?`);
* `Config.Fails` lists what a step can be refused for, with all that is known of the configuration
  at hand (`Config.fails_of_step_eq_failed`);
* a run that is refused has come to a configuration whose step is refused
  (`Config.exists_steps_of_run_eq_error`).
-/

namespace EbnfTables

/-! ### Literals and classes -/

/-- What can be wrong inside a literal or a class. -/
inductive LexicalFault : Fault → Prop
  /-- The opening quote is blamed. -/
  | unterminatedLiteral {cs : List Char} : LexicalFault ⟨.unterminatedLiteral, '"' :: cs⟩
  /-- The opening bracket is blamed. -/
  | unterminatedClass {cs : List Char} : LexicalFault ⟨.unterminatedClass, '[' :: cs⟩
  | unknownEscape {c : Char} {cs : List Char} :
      LexicalFault ⟨.unknownEscape c, '\\' :: c :: cs⟩
  | invalidCodePoint {n : ℕ} {c : Char} {cs : List Char} (hc : escapeWidth? c ≠ none) :
      LexicalFault ⟨.invalidCodePoint n, '\\' :: c :: cs⟩
  | malformedRange : LexicalFault ⟨.malformedRange, ['-']⟩
  /-- The text ends behind a backslash. -/
  | unexpectedEnd : LexicalFault ⟨.unexpectedEnd, ['\\']⟩

theorem lexicalFault_of_readChar {c : Char} {cs : List Char} {e : SyntaxError}
    (h : readChar (c :: cs) = .error e) : LexicalFault ⟨e, c :: cs⟩ := by
  by_cases hc : c = '\\'
  · subst hc
    rw [readChar, if_pos rfl] at h
    cases cs with
    | nil => cases h; exact .unexpectedEnd
    | cons d cs =>
      simp only [readEscape] at h
      split at h
      · cases h
      · split at h
        · cases h
          exact .unknownEscape
        · rename_i hread
          obtain ⟨width, hwidth, -⟩ := Option.bind_eq_some_iff.1 hread
          split at h
          · cases h
          · cases h
            exact .invalidCodePoint (by rw [hwidth]; exact Option.some_ne_none width)
  · rw [readChar, if_neg hc] at h
    cases h

theorem lexicalFault_of_readLiteral {site cs : List Char} {fault : Fault}
    (h : readLiteral ('"' :: site) cs = .error fault) : LexicalFault fault := by
  fun_induction readLiteral ('"' :: site) cs with
  | case1 => cases h; exact .unterminatedLiteral
  | case2 => cases h
  | case3 c cs _ e hread =>
    cases h
    exact lexicalFault_of_readChar hread
  | case4 c cs _ d rest hread fault' hrest ih =>
    cases h
    exact ih hrest
  | case5 => cases h

theorem lexicalFault_of_readMember {c : Char} {cs : List Char} {fault : Fault}
    (h : readMember (c :: cs) = .error fault) : LexicalFault fault := by
  unfold readMember at h
  split at h
  · rename_i hread
    cases h
    exact lexicalFault_of_readChar hread
  · split at h
    · cases h
    · split at h
      · rename_i hdash
        subst hdash
        split at h
        · cases h
          exact .malformedRange
        · split at h
          · cases h
          · split at h
            · rename_i hupper
              cases h
              exact lexicalFault_of_readChar hupper
            · cases h
      · cases h

theorem lexicalFault_of_readMembers {site cs : List Char} {fault : Fault}
    (h : readMembers ('[' :: site) cs = .error fault) : LexicalFault fault := by
  fun_induction readMembers ('[' :: site) cs with
  | case1 => cases h; exact .unterminatedClass
  | case2 => cases h
  | case3 c cs _ fault' hread =>
    cases h
    exact lexicalFault_of_readMember hread
  | case4 c cs _ m rest hread fault' hrest ih =>
    cases h
    exact ih hrest
  | case5 => cases h

theorem lexicalFault_of_readAtom? {cs : List Char} {fault : Fault}
    (h : readAtom? cs = some (.error fault)) : LexicalFault fault := by
  unfold readAtom? at h
  split at h
  · cases h
  · split at h
    · rename_i hquote
      subst hquote
      split at h
      · rename_i hread
        cases h
        exact lexicalFault_of_readLiteral hread
      · cases h
    · split at h
      · rename_i hbracket
        subst hbracket
        unfold readClass at h
        split at h
        · rename_i hread
          cases h
          exact lexicalFault_of_readMembers hread
        · cases h
      · obtain ⟨⟨name, rest⟩, -, heq⟩ := Option.map_eq_some_iff.1 h
        cases heq

/-! ### Steps -/

namespace Config

variable {limit : ℕ}

/-- What a step is refused for.  The flag tells whether the innermost alternation was read to its
end. -/
inductive Fails (limit : ℕ) (c : Config) : Fault → Bool → Prop
  /-- A literal or a class is wrong. -/
  | atom {fault : Fault} (h : readAtom? c.rest = some (.error fault)) : Fails limit c fault false
  | nestingTooDeep {rest : List Char} (hrest : c.rest = '(' :: rest)
      (hlimit : limit ≤ c.outer.length) : Fails limit c ⟨.nestingTooDeep limit, c.rest⟩ false
  | missingOperand {q : Quantifier} {rest : List Char} (hrest : c.rest = q.sign :: rest)
      (hf : c.frame.quantify? q = none) : Fails limit c ⟨.missingOperand, c.rest⟩ false
  | emptyAlternation (hc : c.frame.body.contributes = false) :
      Fails limit c ⟨.emptyAlternation, c.frame.site⟩ false
  /-- The definition does not end with its line. -/
  | expectingNewline (houter : c.outer = []) (hend : readLineEnd? c.rest = none) :
      Fails limit c ⟨.expectingNewline, c.rest⟩ true
  /-- The text ends inside a group. -/
  | unexpectedEnd (houter : c.outer ≠ []) (hrest : c.rest = []) :
      Fails limit c ⟨.unexpectedEnd, c.rest⟩ true
  | expectingCloseParen {ch : Char} {rest : List Char} (houter : c.outer ≠ [])
      (hrest : c.rest = ch :: rest) (hclose : ch ≠ ')') (hbar : ch ≠ '|') :
      Fails limit c ⟨.expectingCloseParen, c.rest⟩ true

/-- Where no bar comes next, closing the innermost alternation is refused only as a step is. -/
theorem fails_of_close_eq_failed {c : Config} {fault : Fault} {finished : Bool}
    (hbar : ∀ rest, c.rest ≠ '|' :: rest) (h : c.close = .failed fault finished) :
    Fails limit c fault finished := by
  obtain ⟨frame, outer, text⟩ := c
  unfold close at h
  split at h
  · cases outer with
    | nil =>
      simp only at h
      split at h
      · rename_i hend
        cases h
        exact .expectingNewline rfl hend
      · cases h
    | cons g outer =>
      cases text with
      | nil =>
        cases h
        exact .unexpectedEnd (List.cons_ne_nil _ _) rfl
      | cons ch rest =>
        simp only at h
        split at h
        · cases h
        · rename_i hclose
          cases h
          refine .expectingCloseParen (List.cons_ne_nil _ _) rfl hclose ?_
          rintro rfl
          exact hbar rest rfl
  · rename_i hc
    cases h
    exact .emptyAlternation (by simpa using hc)

theorem fails_of_step_eq_failed {c : Config} {fault : Fault} {finished : Bool}
    (h : c.step limit = .failed fault finished) : Fails limit c fault finished := by
  unfold step at h
  split at h
  · rename_i hread
    cases h
    exact .atom hread
  · cases h
  · split at h
    · rename_i hrest
      refine fails_of_close_eq_failed (fun rest => ?_) h
      rw [hrest]
      exact (List.cons_ne_nil _ _).symm
    · rename_i ch rest hrest
      split at h
      · rename_i hopen
        subst hopen
        split at h
        · cases h
        · rename_i hlimit
          cases h
          exact .nestingTooDeep hrest (Nat.le_of_not_lt hlimit)
      · split at h
        · cases h
        · rename_i hbar
          split at h
          · refine fails_of_close_eq_failed (fun rest' => ?_) h
            rw [hrest]
            exact fun heq => hbar (List.cons.inj heq).1
          · rename_i q hq
            rw [Quantifier.eq_sign_of_ofSign? hq] at hrest
            split at h
            · rename_i hf
              cases h
              exact .missingOperand hrest hf
            · cases h

/-! ### Runs -/

/-- A run is refused where one of its steps is. -/
theorem exists_steps_of_run_eq_error {c : Config} {i : Interruption}
    (h : c.run limit = .error i) :
    ∃ d, Steps limit c d ∧ d.step limit = .failed i.fault i.finished ∧
      i.frames = d.frame :: d.outer := by
  fun_induction Config.run limit c with
  | case1 c next hstep ih =>
    obtain ⟨d, hsteps, hfail⟩ := ih h
    exact ⟨d, .head (step_of_step_eq_more hstep) hsteps, hfail⟩
  | case2 => cases h
  | case3 c fault finished hstep =>
    cases h
    exact ⟨c, .refl, hstep, rfl⟩

end Config

end EbnfTables
