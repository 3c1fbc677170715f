import EbnfTables.Proofs.Offsets.Cursor
import EbnfTables.Proofs.Source.Persistence
import EbnfTables.Proofs.Source.Sites
import EbnfTables.Proofs.Tables.Options

/-!
# Errors that persist

What is wrong with a text before its end is wrong with every text that goes on.

* A text is refused for its fault behind definitions that are all added
  (`Reading.exists_of_build_eq_malformed`), and so it is for a definition that comes too late
  (`Reading.exists_of_build_eq_duplicateRule`);
* the builder looks at what definitions say and not at where they stand
  (`Builder.addDefinitions_map_append`), and places are counted from the start of the text
  (`Position.ofRest_append_append`).

Main theorem: `compile_error_persists`.
-/

namespace EbnfTables

/-- An error that is due to what stands in the source before its end: a definite fault, or a
definition that comes too late and whose name is not the last thing in the source. -/
def CompileError.IsDefinite (source : String) : CompileError → Prop
  | malformed error _ => error.IsDefinite
  | duplicateRule name p =>
    p.offset + Text.byteLength name.toList < Text.byteLength source.toList
  | undefinedRule _ | emptyGrammar | missingStartRule _ => False

theorem CompileError.IsDefinite.position?_ne_none {source : String} {e : CompileError}
    (h : e.IsDefinite source) : e.position? ≠ none := by
  cases e with
  | malformed | duplicateRule => exact Option.some_ne_none _
  | undefinedRule | emptyGrammar | missingStartRule => exact h.elim

/-! ### What is refused -/

namespace Reading

variable {text : List Char} {r : Reading} {p : Position}

/-- Where a definition comes too late, those before it were added, and one of them gave its rule a
body. -/
theorem exists_of_build_eq_duplicateRule {name : String}
    (h : (r.build text).2 = some (.duplicateRule name p)) :
    ∃ ds b site, ∃ r' : Reading, r = ⟨ds ++ r'.definitions, r'.refusal⟩ ∧
      Builder.empty.addDefinitions ds = (b, none) ∧ b.refuses name = true ∧
      r'.Begins name site ∧ p = .ofRest text site := by
  obtain ⟨definitions, refusal⟩ := r
  unfold build at h
  split at h
  · rename_i b d hadd
    cases h
    obtain ⟨front, back, mid, rfl, hfront, hd⟩ := Builder.exists_of_addDefinitions_eq_some hadd
    rw [Builder.addDefinition_snd, Bool.not_eq_false'] at hd
    exact ⟨front, mid, d.site, ⟨d :: back, refusal⟩, rfl, hfront, hd, .definition rfl rfl, rfl⟩
  · rename_i b hadd
    split at h
    · split at h <;> cases h
    · cases h
    · rename_i fault d hrefusal
      obtain rfl := hrefusal
      split at h
      · rename_i b' hd
        cases h
        have hrefuses := b.addOpenDefinition_snd d
        rw [hd, eq_comm, Bool.not_eq_false'] at hrefuses
        exact ⟨definitions, b, d.site, ⟨[], some ⟨fault, some d⟩⟩, by rw [List.append_nil], hadd,
          hrefuses, .openDefinition rfl rfl, rfl⟩
      · cases h

/-- Where a text is refused for a fault, the definitions before it were added, and the one in which
it arose does not come too late. -/
theorem exists_of_build_eq_malformed {error : SyntaxError}
    (h : (r.build text).2 = some (.malformed error p)) :
    ∃ ds b refusal, r = ⟨ds, some refusal⟩ ∧ Builder.empty.addDefinitions ds = (b, none) ∧
      (∀ d, refusal.begun = some d → b.refuses d.name = false) ∧ error = refusal.fault.error ∧
      p = .ofRest text refusal.fault.site := by
  obtain ⟨definitions, refusal⟩ := r
  unfold build at h
  split at h
  · cases h
  · rename_i b hadd
    split at h
    · split at h <;> cases h
    · rename_i fault hrefusal
      obtain rfl := hrefusal
      cases h
      exact ⟨definitions, b, ⟨fault, none⟩, rfl, hadd, nofun, rfl, rfl⟩
    · rename_i fault d hrefusal
      obtain rfl := hrefusal
      split at h
      · cases h
      · rename_i b' hd
        cases h
        have hrefuses := b.addOpenDefinition_snd d
        rw [hd, eq_comm, Bool.not_eq_true'] at hrefuses
        refine ⟨definitions, b, ⟨fault, some d⟩, rfl, hadd, fun d' hd' => ?_, rfl, rfl⟩
        cases hd'
        exact hrefuses

end Reading

/-! ### Texts that go on -/

theorem Position.ofRest_append_append {text rest : List Char} (h : rest <:+ text)
    (more : List Char) : ofRest (text ++ more) (rest ++ more) = ofRest text rest := by
  obtain ⟨before, rfl⟩ := h
  rw [List.append_assoc, ofRest_append, ofRest_append]

/-- Definitions are added in the same way when their text goes on. -/
theorem Builder.addDefinitions_map_append {ds : List Definition} {b b' : Builder}
    (h : b.addDefinitions ds = (b', none)) (more : List Char) :
    b.addDefinitions (ds.map fun d => d.append more) = (b', none) := by
  induction ds generalizing b with
  | nil => exact h
  | cons d ds ih =>
    have hd : b.addDefinition (d.append more) = b.addDefinition d := rfl
    rw [List.map_cons]
    simp only [addDefinitions, hd] at h ⊢
    split at h
    · cases h
    · exact ih h

theorem parse_append_of_malformed {limit : ℕ} {source : String} {error : SyntaxError}
    {p : Position} (h : (parse limit source).2 = some (.malformed error p))
    (herror : error.IsDefinite) (more : String) :
    (parse limit (source ++ more)).2 = some (.malformed error p) := by
  obtain ⟨ds, b, refusal, hread, hds, hbegun, rfl, rfl⟩ := Reading.exists_of_build_eq_malformed h
  have hsite : refusal.fault.site <:+ source.toList :=
    ((read_within limit source.toList).refusal refusal (by rw [hread])).fault
  have hds' := Builder.addDefinitions_map_append hds more.toList
  have hbegun' (d : OpenDefinition) (hd : (refusal.append more.toList).begun = some d) :
      b.refuses d.name = false := by
    obtain ⟨d', hd', rfl⟩ := Option.map_eq_some_iff.1 hd
    exact hbegun d' hd'
  rw [parse, String.toList_append, read_append_of_refusal hread herror more.toList,
    Reading.build_of_refusal hds' hbegun', ← Position.ofRest_append_append hsite more.toList]
  rfl

theorem parse_append_of_duplicateRule {limit : ℕ} {source : String} {name : String} {p : Position}
    (h : (parse limit source).2 = some (.duplicateRule name p))
    (hname : p.offset + Text.byteLength name.toList < Text.byteLength source.toList)
    (more : String) : (parse limit (source ++ more)).2 = some (.duplicateRule name p) := by
  obtain ⟨ds, b, site, r, hread, hds, hrefuses, hbegins, rfl⟩ :=
    Reading.exists_of_build_eq_duplicateRule h
  obtain ⟨hsite, -⟩ := exists_nameText_of_begins hread hbegins
  have hne : site ≠ name.toList := by
    rintro rfl
    obtain ⟨before, heq⟩ := hsite
    rw [← heq, Position.offset_ofRest, Text.byteLength_append] at hname
    exact lt_irrefl _ hname
  obtain ⟨r', hbegins', hread'⟩ := exists_begins_append hread hbegins hne more.toList
  have hds' := Builder.addDefinitions_map_append hds more.toList
  rw [parse, String.toList_append, hread', Reading.build_of_begins hbegins' hds' hrefuses,
    Position.ofRest_append_append hsite]

/-- **What is wrong before the end of a text stays wrong when the text goes on.**  If a source is
refused for something that stands in it, and not because it ends there, then every source that
begins with it is refused for the same error at the same place. -/
theorem compile_error_persists (source more : String) (options : CompileOptions) (e : CompileError)
    (h : compile source options = .error e) (he : e.IsDefinite source) :
    compile (source ++ more) options = .error e := by
  have hparse := parse_eq_of_compile_eq_error h he.position?_ne_none
  refine compile_of_parse_eq_error ?_
  cases e with
  | malformed error p => exact parse_append_of_malformed hparse he more
  | duplicateRule name p => exact parse_append_of_duplicateRule hparse he more
  | undefinedRule | emptyGrammar | missingStartRule => exact he.elim

/-- A group that is not closed and a class that is not closed, each behind something that is wrong
already.  Closing them does not help. -/
theorem compile_error_persists_unclosed :
    compile "a ::= (\"x\" * | \"\\q" = .error (.malformed (.unknownEscape 'q') ⟨16, 1, 17⟩) ∧
    compile ("a ::= (\"x\" * | \"\\q" ++ "\")") =
      .error (.malformed (.unknownEscape 'q') ⟨16, 1, 17⟩) ∧
    compile "a ::= \"x\"\na ::= [b" = .error (.duplicateRule "a" ⟨10, 2, 1⟩) ∧
    compile ("a ::= \"x\"\na ::= [b" ++ "-z]") = .error (.duplicateRule "a" ⟨10, 2, 1⟩) := by
  have hescape : compile "a ::= (\"x\" * | \"\\q" =
      .error (.malformed (.unknownEscape 'q') ⟨16, 1, 17⟩) := by decide +kernel
  have hduplicate : compile "a ::= \"x\"\na ::= [b" =
      .error (.duplicateRule "a" ⟨10, 2, 1⟩) := by decide +kernel
  have hq : 'q' ∉ ['x', 'u', 'U'] := by decide
  have hname : 10 + Text.byteLength "a".toList <
      Text.byteLength "a ::= \"x\"\na ::= [b".toList := by decide +kernel
  exact ⟨hescape, compile_error_persists _ _ {} _ hescape hq, hduplicate,
    compile_error_persists _ _ {} _ hduplicate hname⟩

/-- A name at the end of the text may go on, and then it is another one. -/
example : compile "a ::= \"x\"\na" = .error (.duplicateRule "a" ⟨10, 2, 1⟩) ∧
    compile ("a ::= \"x\"\na" ++ "b ::= a") =
      .ok ⟨⟨["a", "ab"]⟩, ⟨[[.char 'x', .stop], [.ruleRef 0, .stop]]⟩⟩ := by decide +kernel

end EbnfTables
