import EbnfTables.Proofs.Tables.Bare

/-!
# What is blamed

A text that is refused is blamed at the token that is wrong.

* `SyntaxError.Blames` says, for each cause, what stands at the place that is blamed, and
  `CompileError.Blames` adds the definitions that come too late for their rule;
* what can be wrong inside a literal or a class is blamed rightly (`LexicalFault.blames`), so is what
  a step of the machine can be refused for (`Config.Fails.blames`), and with them whole readings
  (`read_blames`);
* an empty alternation has no token of its own.  It is blamed where it begins, which cannot be told
  from what stands there: reading has to come to its end (`ComesToEmpty`).

Main theorem: `compile_error_blames`.  The place of an error is a boundary of the text, and behind
this boundary stands what the error says.
-/

namespace EbnfTables

/-- What stands at `site`, the place in `text` that is blamed for a syntax error. -/
def SyntaxError.Blames (limit : ℕ) (text site : List Char) : SyntaxError → Prop
  | unterminatedLiteral => ['"'] <+: site
  | unterminatedClass => ['['] <+: site
  | unknownEscape c => ['\\', c] <+: site
  | invalidCodePoint _ => ∃ c ∈ ['x', 'u', 'U'], ['\\', c] <+: site
  | malformedRange => site = ['-']
  | missingOperand => ∃ c ∈ ['?', '*', '+'], [c] <+: site
  | nestingTooDeep _ => ['('] <+: site
  | unexpectedEnd => site = [] ∨ site = ['\\']
  | expectingName => ∃ c cs, site = c :: cs ∧ isWordChar c = false
  | expectingDefinition => ¬ [':', ':', '='] <+: site
  | expectingCloseParen => ∃ c cs, site = c :: cs ∧ c ≠ ')' ∧ c ≠ '|'
  | expectingNewline => ∃ c cs, site = c :: cs ∧ c ≠ '\r' ∧ c ≠ '\n'
  -- an alternation begins here, was read to its end, and has neither an element nor a bar
  | emptyAlternation => ComesToEmpty limit text site

/-- What stands at `site`, the place in `text` that an error reports.  An error without a place
blames nothing. -/
def CompileError.Blames (limit : ℕ) (text site : List Char) : CompileError → Prop
  | malformed error _ => error.Blames limit text site
  | duplicateRule name _ =>
    ∃ rest, site = name.toList ++ rest ∧ ∀ c, rest.head? = some c → isWordChar c = false
  | undefinedRule _ | emptyGrammar | missingStartRule _ => False

/-! ### Syntax errors -/

theorem mem_of_escapeWidth?_ne_none {c : Char} (h : escapeWidth? c ≠ none) :
    c ∈ ['x', 'u', 'U'] := by
  unfold escapeWidth? at h
  split_ifs at h with hx hu hU
  · simp [hx]
  · simp [hu]
  · simp [hU]
  · exact absurd rfl h

variable {limit : ℕ} {text : List Char}

theorem LexicalFault.blames {fault : Fault} (h : LexicalFault fault) :
    fault.error.Blames limit text fault.site := by
  cases h with
  | unterminatedLiteral | unterminatedClass | unknownEscape => exact List.prefix_append _ _
  | @invalidCodePoint n c cs hc =>
    exact ⟨c, mem_of_escapeWidth?_ne_none hc, List.prefix_append ['\\', c] cs⟩
  | malformedRange => rfl
  | unexpectedEnd => exact .inr rfl

/-- A step that is refused blames what it found, unless it is at the end of an alternation. -/
theorem Config.Fails.blames {c : Config} {fault : Fault} {finished : Bool}
    (h : c.Fails limit fault finished) (hne : fault.error ≠ .emptyAlternation) :
    fault.error.Blames limit text fault.site := by
  cases h with
  | atom hatom => exact (lexicalFault_of_readAtom? hatom).blames
  | nestingTooDeep hrest =>
    show ['('] <+: c.rest
    rw [hrest]
    exact List.prefix_append _ _
  | @missingOperand q rest hrest =>
    refine ⟨q.sign, by cases q <;> decide, ?_⟩
    rw [hrest]
    exact List.prefix_append [q.sign] rest
  | emptyAlternation => exact absurd rfl hne
  | expectingNewline _ hend => exact exists_cons_of_readLineEnd?_eq_none hend
  | unexpectedEnd _ hrest => exact .inl hrest
  | @expectingCloseParen ch rest _ hrest hclose hbar => exact ⟨ch, rest, hrest, hclose, hbar⟩

theorem readAlternatives_blames {right : List Char} {i : Interruption}
    (h : readAlternatives limit right = .error i) (hne : i.fault.error ≠ .emptyAlternation) :
    i.fault.error.Blames limit text i.fault.site := by
  obtain ⟨c, -, hfailed, -⟩ := Config.exists_steps_of_run_eq_error h
  exact (Config.fails_of_step_eq_failed hfailed).blames hne

/-! ### Readings -/

theorem readDefinition_blames {start : List Char} {refusal : Refusal} (hstart : start ≠ [])
    (h : readDefinition limit start = .error refusal)
    (hne : refusal.fault.error ≠ .emptyAlternation) :
    refusal.fault.error.Blames limit text refusal.fault.site := by
  unfold readDefinition at h
  split at h
  · rename_i hname
    cases h
    obtain ⟨c, cs, rfl⟩ := List.exists_cons_of_ne_nil hstart
    exact ⟨c, cs, rfl, readName?_cons_eq_none_iff.1 hname⟩
  · simp only at h
    split at h
    · rename_i hmark
      cases h
      rintro ⟨mark, heq⟩
      rw [Text.after?_eq_some_iff.2 heq.symm] at hmark
      cases hmark
    · split at h
      · rename_i hread
        cases h
        exact readAlternatives_blames hread hne
      · cases h

theorem read_blames {ds : List Definition} {refusal : Refusal}
    (h : read limit text = ⟨ds, some refusal⟩) (hne : refusal.fault.error ≠ .emptyAlternation) :
    refusal.fault.error.Blames limit text refusal.fault.site := by
  obtain ⟨start, -, hstart, hread⟩ := read_eq_refusal_iff.1 h
  exact readDefinition_blames hstart hread hne

/-! ### Compilation -/

theorem NameText.head?_eq {name : String} {text rest : List Char} (h : NameText name text rest) :
    ∀ c, rest.head? = some c → isWordChar c = false := by
  intro c hc
  obtain ⟨cs, rfl⟩ := List.head?_eq_some_iff.1 hc
  exact h.longest c cs rfl

/-- What an error blames is an end part of the source, and this is the place that it reports. -/
theorem exists_blames_of_compile_eq_error {source : String} {options : CompileOptions}
    {e : CompileError} {p : Position} (h : compile source options = .error e)
    (hp : e.position? = some p) :
    ∃ site, site <:+ source.toList ∧ p = .ofRest source.toList site ∧
      e.Blames options.maxNesting source.toList site := by
  have hplace : e.position? ≠ none := by
    rw [hp]
    exact Option.some_ne_none p
  have hbuild := parse_eq_of_compile_eq_error h hplace
  cases e with
  | duplicateRule name q =>
    cases hp
    obtain ⟨ds, b, site, r, hread, -, -, hbegins, rfl⟩ :=
      Reading.exists_of_build_eq_duplicateRule hbuild
    obtain ⟨hsite, rest, hname⟩ := exists_nameText_of_begins hread hbegins
    exact ⟨site, hsite, rfl, rest, hname.eq_append, hname.head?_eq⟩
  | malformed error q =>
    cases hp
    by_cases hempty : error = .emptyAlternation
    · subst hempty
      obtain ⟨site, hcomes, rfl⟩ := compile_eq_emptyAlternation_iff.1 h
      exact ⟨site, hcomes.isSuffix, rfl, hcomes⟩
    · obtain ⟨ds, b, refusal, hread, -, -, rfl, rfl⟩ :=
        Reading.exists_of_build_eq_malformed hbuild
      have hsite : refusal.fault.site <:+ source.toList :=
        ((read_within _ _).refusal refusal (by rw [hread])).fault
      exact ⟨refusal.fault.site, hsite, rfl, read_blames hread hempty⟩
  | undefinedRule | emptyGrammar | missingStartRule => cases hp

/-- **Every error points at what is wrong.**  The position that an error reports is the position at
its offset, and behind this offset stands what the error says.  For an empty alternation this is
where the alternation begins whose end reading comes to. -/
theorem compile_error_blames (source : String) (options : CompileOptions) (e : CompileError)
    (p : Position) (h : compile source options = .error e) (hp : e.position? = some p) :
    Position.locate? source.toList p.offset = some p ∧
      ∃ before rest, source.toList = before ++ rest ∧ Text.byteLength before = p.offset ∧
        e.Blames options.maxNesting source.toList rest := by
  obtain ⟨site, ⟨before, hsource⟩, rfl, hblames⟩ := exists_blames_of_compile_eq_error h hp
  refine ⟨Offsets.locate?_ofRest ⟨before, hsource⟩, before, site, hsource.symm, ?_, hblames⟩
  rw [← hsource, Position.offset_ofRest]

/-- An escape on the second line, inside a group and behind a character of two bytes, and a group
that holds an empty literal and an empty class. -/
theorem compile_error_blames_second_line :
    compile "a ::= \"é\"\nb ::= ([a-z]* | \"é\\uD800\")" =
      .error (.malformed (.invalidCodePoint 0xD800) ⟨30, 2, 19⟩) ∧
    Position.locate? "a ::= \"é\"\nb ::= ([a-z]* | \"é\\uD800\")".toList 30 = some ⟨30, 2, 19⟩ ∧
    (∃ before rest, "a ::= \"é\"\nb ::= ([a-z]* | \"é\\uD800\")".toList = before ++ rest ∧
      Text.byteLength before = 30 ∧ ∃ c ∈ ['x', 'u', 'U'], ['\\', c] <+: rest) ∧
    compile "a ::= \"é\" ( \"\" [])" = .error (.malformed .emptyAlternation ⟨13, 1, 13⟩) ∧
    ∃ before rest, "a ::= \"é\" ( \"\" [])".toList = before ++ rest ∧
      Text.byteLength before = 13 ∧ ComesToEmpty 64 "a ::= \"é\" ( \"\" [])".toList rest := by
  have herror : compile "a ::= \"é\"\nb ::= ([a-z]* | \"é\\uD800\")" =
      .error (.malformed (.invalidCodePoint 0xD800) ⟨30, 2, 19⟩) := by decide +kernel
  have hempty : compile "a ::= \"é\" ( \"\" [])" =
      .error (.malformed .emptyAlternation ⟨13, 1, 13⟩) := by decide +kernel
  obtain ⟨hplace, hescape⟩ := compile_error_blames _ {} _ _ herror rfl
  exact ⟨herror, hplace, hescape, hempty, (compile_error_blames _ {} _ _ hempty rfl).2⟩

end EbnfTables
