import EbnfTables.Declaration.Generate
import EbnfTables.Proofs.Declaration.TokenText

/-!
# What generated code determines

The generated code of a declaration determines the head of the declared type and the grammar, and
nothing else.

* The sorted symbols of a table determine it, since the ids are the places of the names
  (`SymbolTable.eq_of_sorted_eq`);
* so do the static tables of a grammar (`Grammar.eq_of_ofGrammar_eq`);
* the static tables are read back from the code (`readImplementation?_implementationText`).

Main theorem: `generated_code_eq_iff`.
-/

namespace EbnfTables

/-! ### Static tables determine grammars -/

/-- Tables with few enough names, all of them different, are equal if they have the same symbols. -/
theorem SymbolTable.eq_of_sorted_eq {s t : SymbolTable} (hn : t.names.Nodup)
    (hlen : t.size ≤ 2 ^ 32) (h : s.sorted = t.sorted) : s = t := by
  have hperm : s.entries.Perm t.entries := (s.sorted_perm.symm.trans (h ▸ t.sorted_perm))
  have hsize : s.size = t.size := by
    have hlength := (hperm.map Prod.fst).length_eq
    rwa [map_fst_entries, map_fst_entries] at hlength
  rw [← agrees_iff hn hlen, agrees, hsize, beq_self_eq_true, Bool.true_and, List.all_eq_true]
  rintro ⟨name, id⟩ hmem
  exact beq_iff_eq.2 ((mem_entries_iff_id? hn hlen).1 (hperm.mem_iff.1 hmem))

theorem Grammar.eq_of_ofGrammar_eq {g g' : Grammar} (hn : g'.symbols.names.Nodup)
    (hlen : g'.symbols.size ≤ 2 ^ 32)
    (h : StaticTables.ofGrammar g = StaticTables.ofGrammar g') : g = g' := by
  have hsorted : g.symbols.sorted = g'.symbols.sorted :=
    congrArg (fun t => t.symbols.toList) h
  have hbodies : g.rules.bodies = g'.rules.bodies := congrArg (fun t => t.rules.toList) h
  have hsymbols := SymbolTable.eq_of_sorted_eq hn hlen hsorted
  obtain ⟨symbols, ⟨bodies⟩⟩ := g
  obtain ⟨symbols', ⟨bodies'⟩⟩ := g'
  cases hsymbols
  cases hbodies
  rfl

/-! ### Declarations -/

/-- Code is generated from the grammar that a declaration gives. -/
structure Declaration.Generates (s : Surroundings) (d : Declaration) (text code : String) :
    Prop where
  loads : ∃ source, d.source = .ok source ∧ source.load s = .ok text
  generates : d.generate s = .ok code

/-- The code is the implementation for the compiled grammar. -/
theorem Declaration.generates_iff {s : Surroundings} {d : Declaration} {text code : String} :
    d.Generates s text code ↔ (∃ source, d.source = .ok source ∧ source.load s = .ok text) ∧
      ∃ g, compile text = .ok g ∧ code = g.implementationText d.head := by
  have hgenerate (source : GrammarSource) (hsource : d.source = .ok source)
      (hload : source.load s = .ok text) : d.generate s = .ok code ↔
        ∃ g, compile text = .ok g ∧ code = g.implementationText d.head := by
    simp only [generate, grammar, hsource, hload]
    cases compile text with
    | error e => simp
    | ok g => simp [eq_comm]
  constructor
  · rintro ⟨⟨source, hsource, hload⟩, hcode⟩
    exact ⟨⟨source, hsource, hload⟩, (hgenerate source hsource hload).1 hcode⟩
  · rintro ⟨⟨source, hsource, hload⟩, hg⟩
    exact ⟨⟨source, hsource, hload⟩, (hgenerate source hsource hload).2 hg⟩

/-- The declaration of a type with the text of a grammar. -/
def Declaration.ofText (head : TypeHead) (text : String) : Declaration :=
  ⟨head, [⟨inlineName, .assigned (.text text)⟩]⟩

theorem Declaration.generates_ofText {text : String} {g : Grammar} (h : compile text = .ok g)
    (s : Surroundings) (head : TypeHead) :
    (ofText head text).Generates s text (g.implementationText head) :=
  generates_iff.2 ⟨⟨.inlined text, rfl, rfl⟩, g, h, rfl⟩

/-- **Generated code determines the grammar and nothing else.**  Two declarations of plain types get
the same code if and only if the types have the same name and the same parameters and the grammars
are compiled to the same tables.  In particular, these tables are read back from the code. -/
theorem generated_code_eq_iff (s s' : Surroundings) (d d' : Declaration)
    (text text' code code' : String) (h : d.Generates s text code)
    (h' : d'.Generates s' text' code') (hlen : text.length < 2 ^ 32)
    (hlen' : text'.length < 2 ^ 32) (hplain : d.head.IsPlain) (hplain' : d'.head.IsPlain) :
    ∃ g g', compile text = .ok g ∧ compile text' = .ok g' ∧
      (code = code' ↔
        d.head.name = d'.head.name ∧ d.head.parameters = d'.head.parameters ∧ g = g') ∧
      readImplementation? code =
        some (d.head, ⟨g.symbols.sorted.toArray, g.rules.bodies.toArray⟩) ∧
      readImplementation? code' =
        some (d'.head, ⟨g'.symbols.sorted.toArray, g'.rules.bodies.toArray⟩) := by
  obtain ⟨g, hg, rfl⟩ := (Declaration.generates_iff.1 h).2
  obtain ⟨g', hg', rfl⟩ := (Declaration.generates_iff.1 h').2
  have hwell := compile_wellFormed text {} g hlen hg
  have hwell' := compile_wellFormed text' {} g' hlen' hg'
  have hread := readImplementation?_implementationText hplain hwell.isWord
  have hread' := readImplementation?_implementationText hplain' hwell'.isWord
  refine ⟨g, g', hg, hg', ⟨fun hcode => ?_, ?_⟩, hread, hread'⟩
  · rw [hcode, hread'] at hread
    obtain ⟨hhead, htables⟩ := Prod.mk.inj (Option.some.inj hread)
    have hsize : g.symbols.size ≤ 2 ^ 32 := hwell.size_eq.trans_le hwell.size_le
    exact ⟨by rw [hhead], by rw [hhead],
      (Grammar.eq_of_ofGrammar_eq hwell.nodup hsize htables).symm⟩
  · rintro ⟨hname, hparameters, rfl⟩
    have hhead : d.head = d'.head := congrArg₂ TypeHead.mk hname hparameters
    rw [hhead]

/-- Two sources of one grammar give the same code.  The symbols in it are sorted by name. -/
theorem generated_code_eq_iff_comment :
    ∃ code code',
      (Declaration.ofText ⟨"Row", ["T", "Größe"]⟩ "b ::= a+\na ::= [0-9]").Generates ⟨⟨[]⟩, none⟩
        "b ::= a+\na ::= [0-9]" code ∧
      (Declaration.ofText ⟨"Row", ["T", "Größe"]⟩ "b ::= a + # one\na ::= [\\x30-9]").Generates
        ⟨⟨[]⟩, none⟩ "b ::= a + # one\na ::= [\\x30-9]" code' ∧
      code = code' ∧
      readImplementation? code = some (⟨"Row", ["T", "Größe"]⟩,
        ⟨#[("a", 1), ("b", 0), ("b_2", 2)], #[
          [.ruleRef 2, .stop],
          [⟨.char, 48⟩, ⟨.rangeUpper, 57⟩, .stop],
          [.ruleRef 1, .ruleRef 2, .alt, .ruleRef 1, .stop]]⟩) := by
  have hok : compile "b ::= a+\na ::= [0-9]" = .ok ⟨⟨["b", "a", "b_2"]⟩, ⟨[
      [.ruleRef 2, .stop],
      [⟨.char, 48⟩, ⟨.rangeUpper, 57⟩, .stop],
      [.ruleRef 1, .ruleRef 2, .alt, .ruleRef 1, .stop]]⟩⟩ := by decide +kernel
  have hok' : compile "b ::= a + # one\na ::= [\\x30-9]" = compile "b ::= a+\na ::= [0-9]" := by
    decide +kernel
  have hsorted : SymbolTable.sorted ⟨["b", "a", "b_2"]⟩ = [("a", 1), ("b", 0), ("b_2", 2)] :=
    SymbolTable.sorted_eq_of_perm (by decide) (by decide +kernel) (by decide +kernel)
  have hplain : TypeHead.IsPlain ⟨"Row", ["T", "Größe"]⟩ := by
    constructor <;> simp only [List.forall_mem_cons, ← List.all_eq_true] <;> decide +kernel
  have hcode := Declaration.generates_ofText hok ⟨⟨[]⟩, none⟩ ⟨"Row", ["T", "Größe"]⟩
  have hcode' := Declaration.generates_ofText (hok'.trans hok) ⟨⟨[]⟩, none⟩ ⟨"Row", ["T", "Größe"]⟩
  obtain ⟨g, g', hg, hg', hiff, hread, -⟩ := generated_code_eq_iff _ _ _ _ _ _ _ _ hcode hcode'
    (by decide +kernel) (by decide +kernel) hplain hplain
  cases hok.symm.trans hg
  cases (hok'.trans hok).symm.trans hg'
  refine ⟨_, _, hcode, hcode', hiff.2 ⟨rfl, rfl, rfl⟩, ?_⟩
  rw [hread, hsorted]
  rfl

end EbnfTables
