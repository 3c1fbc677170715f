import EbnfTables.Declaration.Generate
import Mathlib.Data.List.Basic
import Mathlib.Logic.Relation

/-!
# The source of a declaration decides

Of the attributes of a declaration only those that give a grammar matter, and there has to be
exactly one of them.

* `Attribute.IsSource` says which attributes give a grammar, and `sourcesOf` keeps these;
* `InsertsOther` puts one of the other attributes anywhere into a row of attributes.  The sources
  stay the same, and so they do in all rows that are reached by such insertions and by undoing them
  (`sourcesOf_eq_of_eqvGen`);
* the number of the sources decides between the errors for none and for several
  (`Declaration.source_eq_missingSource_iff`, `Declaration.source_eq_multipleSources_iff`), and no
  later part of a generation ends with one of these (`Declaration.generate_eq_error_iff`);
* `Declaration.HasOnly` says that there is one source, which is a text.  Then the text of the
  grammar decides (`Declaration.generate_of_loads`).

Main theorem: `generate_of_sources`.
-/

namespace EbnfTables

/-- The attribute has a value and one of the two names, and so it gives a grammar. -/
def Attribute.IsSource (a : Attribute) : Prop :=
  (∃ value, a.form = .assigned value) ∧ (a.name = inlineName ∨ a.name = fileName)

/-- One more attribute stands somewhere, and it does not give a grammar. -/
inductive InsertsOther : List Attribute → List Attribute → Prop
  | intro (before after : List Attribute) {a : Attribute} (ha : ¬ a.IsSource) :
      InsertsOther (before ++ after) (before ++ a :: after)

/-- There is one attribute that gives a grammar; it has the given name, and its value is a text. -/
def Declaration.HasOnly (d : Declaration) (name value : String) : Prop :=
  ∃ before after, d.attributes = before ++ ⟨name, .assigned (.text value)⟩ :: after ∧
    ∀ a ∈ before ++ after, ¬ a.IsSource

/-! ### Sources -/

section Sources

variable {a : Attribute} {as as' : List Attribute}

/-- The attributes that give a grammar. -/
def sourcesOf (as : List Attribute) : List Attribute := as.filter fun a => a.sourceValue?.isSome

theorem Attribute.isSome_sourceValue?_iff : a.sourceValue?.isSome = true ↔ a.IsSource := by
  unfold sourceValue? IsSource
  split <;> simp_all

@[simp] theorem sourcesOf_append (as as' : List Attribute) :
    sourcesOf (as ++ as') = sourcesOf as ++ sourcesOf as' :=
  List.filter_append as as'

theorem sourcesOf_cons_of_isSource (h : a.IsSource) (as : List Attribute) :
    sourcesOf (a :: as) = a :: sourcesOf as :=
  List.filter_cons_of_pos (Attribute.isSome_sourceValue?_iff.2 h)

theorem sourcesOf_cons_of_not_isSource (h : ¬ a.IsSource) (as : List Attribute) :
    sourcesOf (a :: as) = sourcesOf as :=
  List.filter_cons_of_neg (mt Attribute.isSome_sourceValue?_iff.1 h)

theorem sourcesOf_eq_nil_iff : sourcesOf as = [] ↔ ∀ a ∈ as, ¬ a.IsSource := by
  simp only [sourcesOf, List.filter_eq_nil_iff, Attribute.isSome_sourceValue?_iff]

theorem exists_of_sourcesOf_eq_cons {more : List Attribute} (h : sourcesOf as = a :: more) :
    ∃ before after, as = before ++ a :: after ∧ a.IsSource ∧ sourcesOf after = more := by
  obtain ⟨before, after, heq, -, ha, hmore⟩ := List.filter_eq_cons_iff.1 h
  exact ⟨before, after, heq, Attribute.isSome_sourceValue?_iff.1 ha, hmore⟩

theorem InsertsOther.sourcesOf_eq (h : InsertsOther as as') : sourcesOf as = sourcesOf as' := by
  obtain ⟨before, after, ha⟩ := h
  rw [sourcesOf_append, sourcesOf_append, sourcesOf_cons_of_not_isSource ha]

theorem sourcesOf_eq_of_eqvGen (h : Relation.EqvGen InsertsOther as as') :
    sourcesOf as = sourcesOf as' := by
  induction h with
  | rel _ _ h => exact h.sourcesOf_eq
  | refl => rfl
  | symm _ _ _ ih => exact ih.symm
  | trans _ _ _ _ _ ih ih' => exact ih.trans ih'

/-- There are several sources exactly if two attributes give a grammar. -/
theorem exists_sourcesOf_eq_cons_cons_iff : (∃ a b more, sourcesOf as = a :: b :: more) ↔
    ∃ before a between b after, as = before ++ a :: (between ++ b :: after) ∧
      a.IsSource ∧ b.IsSource := by
  constructor
  · rintro ⟨a, b, more, h⟩
    obtain ⟨before, rest, rfl, ha, hrest⟩ := exists_of_sourcesOf_eq_cons h
    obtain ⟨between, after, rfl, hb, -⟩ := exists_of_sourcesOf_eq_cons hrest
    exact ⟨before, a, between, b, after, rfl, ha, hb⟩
  · rintro ⟨before, a, between, b, after, rfl, ha, hb⟩
    rw [sourcesOf_append, sourcesOf_cons_of_isSource ha, sourcesOf_append,
      sourcesOf_cons_of_isSource hb]
    cases sourcesOf before with
    | nil =>
      cases sourcesOf between with
      | nil => exact ⟨a, b, _, rfl⟩
      | cons c more => exact ⟨a, c, _, rfl⟩
    | cons c more =>
      cases more with
      | nil => exact ⟨c, a, _, rfl⟩
      | cons d more => exact ⟨c, d, _, rfl⟩

end Sources

/-! ### Files -/

/-- A file that holds the bytes of a text is read as this text. -/
theorem FileTree.readText_of_readBytes {t : FileTree} {path text : String}
    (h : t.readBytes path = .ok text.toUTF8) : t.readText path = .ok text := by
  have htext : String.fromUTF8? text.toUTF8 = some text := dif_pos text.isValidUTF8
  rw [readText, h]
  dsimp only
  rw [htext]

theorem GrammarSource.load_file_of_readBytes {s : Surroundings} {path text : String}
    (h : s.files.readBytes (joinPath (s.directory.getD ".") path) = .ok text.toUTF8) :
    (GrammarSource.file path).load s = .ok text := by
  unfold load
  dsimp only
  rw [FileTree.readText_of_readBytes h]

theorem GrammarSource.exists_of_load_eq_error {s : Surroundings} {source : GrammarSource}
    {error : GenerateError} (h : source.load s = .error error) :
    ∃ path cause, error = .unreadable path cause := by
  cases source with
  | inlined text => cases h
  | file path =>
    unfold load at h
    dsimp only at h
    split at h
    · cases h
      exact ⟨_, _, rfl⟩
    · cases h

namespace Declaration

variable {s : Surroundings} {d d' : Declaration} {text : String}

theorem HasOnly.sourcesOf_eq {name value : String} (h : d.HasOnly name value)
    (hname : name = inlineName ∨ name = fileName) :
    sourcesOf d.attributes = [⟨name, .assigned (.text value)⟩] := by
  obtain ⟨before, after, hattributes, hothers⟩ := h
  rw [List.forall_mem_append, ← sourcesOf_eq_nil_iff, ← sourcesOf_eq_nil_iff] at hothers
  rw [hattributes, sourcesOf_append, sourcesOf_cons_of_isSource ⟨⟨_, rfl⟩, hname⟩, hothers.1,
    hothers.2, List.nil_append]

theorem source_congr (h : sourcesOf d.attributes = sourcesOf d'.attributes) :
    d.source = d'.source := by
  unfold sourcesOf at h
  rw [source, source, h]

/-- What the number of the sources decides. -/
theorem source_cases (d : Declaration) :
    (sourcesOf d.attributes = [] ∧ d.source = .error .missingSource) ∨
    (∃ a, sourcesOf d.attributes = [a] ∧
      (d.source = .error .sourceNotText ∨ ∃ source, d.source = .ok source)) ∨
    ∃ a b more, sourcesOf d.attributes = a :: b :: more ∧ d.source = .error .multipleSources := by
  unfold source sourcesOf
  generalize d.attributes.filter (fun a => a.sourceValue?.isSome) = found
  rcases found with _ | ⟨a, _ | ⟨b, more⟩⟩
  · exact .inl ⟨rfl, rfl⟩
  · refine .inr (.inl ⟨a, rfl, ?_⟩)
    dsimp only
    split
    · exact .inr ⟨_, rfl⟩
    · exact .inl rfl
  · exact .inr (.inr ⟨a, b, more, rfl, rfl⟩)

theorem source_eq_missingSource_iff :
    d.source = .error .missingSource ↔ sourcesOf d.attributes = [] := by
  rcases d.source_cases with ⟨hsources, h⟩ | ⟨a, hsources, h | ⟨source, h⟩⟩ |
    ⟨a, b, more, hsources, h⟩ <;> simp [h, hsources]

theorem source_eq_multipleSources_iff :
    d.source = .error .multipleSources ↔ ∃ a b more, sourcesOf d.attributes = a :: b :: more := by
  rcases d.source_cases with ⟨hsources, h⟩ | ⟨a, hsources, h | ⟨source, h⟩⟩ |
    ⟨a, b, more, hsources, h⟩ <;> simp [h, hsources]

/-- The text that stands in a declaration. -/
theorem HasOnly.source_eq_inlined (h : d.HasOnly inlineName text) :
    d.source = .ok (.inlined text) := by
  have hsources := h.sourcesOf_eq (.inl rfl)
  unfold sourcesOf at hsources
  rw [source, hsources]
  rfl

/-- The text of the file that a declaration names. -/
theorem HasOnly.source_eq_file {path : String} (h : d.HasOnly fileName path) :
    d.source = .ok (.file path) := by
  have hsources := h.sourcesOf_eq (.inr rfl)
  unfold sourcesOf at hsources
  rw [source, hsources]
  rfl

/-! ### Generation -/

/-- The other attributes are not seen. -/
theorem generate_congr (hhead : d.head = d'.head) (hsource : d.source = d'.source) :
    d.generate s = d'.generate s := by
  rw [generate, generate, grammar, grammar, hhead, hsource]

theorem generate_of_source_eq_error {error : GenerateError} (h : d.source = .error error) :
    d.generate s = .error error := by
  unfold generate grammar
  rw [h]

theorem generate_of_load_eq_error {source : GrammarSource} {error : GenerateError}
    (hsource : d.source = .ok source) (hload : source.load s = .error error) :
    d.generate s = .error error := by
  unfold generate grammar
  rw [hsource]
  dsimp only
  rw [hload]

/-- Once the text is known, it decides. -/
theorem generate_of_loads {source : GrammarSource} (hsource : d.source = .ok source)
    (hload : source.load s = .ok text) :
    d.generate s = match compile text with
      | .error error => .error (.invalid error)
      | .ok g => .ok (g.implementationText d.head) := by
  unfold generate grammar
  rw [hsource]
  dsimp only
  rw [hload]
  dsimp only
  cases compile text <;> rfl

/-- A declaration with a source ends in another way than with no source or several. -/
theorem exists_of_generate_eq_error {source : GrammarSource} {error : GenerateError}
    (hsource : d.source = .ok source) (h : d.generate s = .error error) :
    (∃ path cause, error = .unreadable path cause) ∨ ∃ cause, error = .invalid cause := by
  cases hload : source.load s with
  | error e =>
    rw [generate_of_load_eq_error hsource hload] at h
    cases h
    exact .inl (GrammarSource.exists_of_load_eq_error hload)
  | ok text =>
    rw [generate_of_loads hsource hload] at h
    cases hcompile : compile text with
    | error cause =>
      rw [hcompile] at h
      cases h
      exact .inr ⟨cause, rfl⟩
    | ok g =>
      rw [hcompile] at h
      cases h

/-- Only the attributes decide whether there is no source, and whether there are several. -/
theorem generate_eq_error_iff {error : GenerateError}
    (hcount : error = .missingSource ∨ error = .multipleSources) :
    d.generate s = .error error ↔ d.source = .error error := by
  cases hsource : d.source with
  | error e =>
    rw [generate_of_source_eq_error hsource, Except.error.injEq, Except.error.injEq]
  | ok source =>
    have hne : d.generate s ≠ .error error := by
      intro h
      rcases exists_of_generate_eq_error hsource h with ⟨path, cause, rfl⟩ | ⟨cause, rfl⟩ <;>
        simp at hcount
    simp [hne]

end Declaration

/-- **The one source of a grammar decides what is generated.**  Other attributes may be inserted and
removed anywhere.  Without a source, and with several, generation fails for this reason, whatever
their values and whatever files there are.  If the only source is a file that holds a text, the same
is generated as if the text stood in the declaration; and that is the implementation if the text
compiles, and otherwise a failure that tells the compile error. -/
theorem generate_of_sources (s : Surroundings) (d : Declaration) :
    (∀ attributes, Relation.EqvGen InsertsOther d.attributes attributes →
      Declaration.generate s ⟨d.head, attributes⟩ = d.generate s) ∧
    (d.generate s = .error .missingSource ↔ ∀ a ∈ d.attributes, ¬ a.IsSource) ∧
    (d.generate s = .error .multipleSources ↔
      ∃ before a between b after, d.attributes = before ++ a :: (between ++ b :: after) ∧
        a.IsSource ∧ b.IsSource) ∧
    (∀ (path text : String) (s' : Surroundings) (d' : Declaration), d.HasOnly fileName path →
      s.files.readBytes (joinPath (s.directory.getD ".") path) = .ok text.toUTF8 →
      d'.HasOnly inlineName text → d'.head = d.head → d.generate s = d'.generate s') ∧
    ∀ text, d.HasOnly inlineName text →
      (∀ code, d.generate s = .ok code ↔
        ∃ g, compile text = .ok g ∧ code = g.implementationText d.head) ∧
      ∀ error, compile text = .error error → ∃ failure, d.generate s = .error failure ∧
        failure.message = "Invalid grammar: " ++ error.message := by
  refine ⟨fun attributes h => ?_, ?_, ?_, ?_, ?_⟩
  · exact Declaration.generate_congr rfl (Declaration.source_congr (sourcesOf_eq_of_eqvGen h).symm)
  · rw [Declaration.generate_eq_error_iff (.inl rfl), Declaration.source_eq_missingSource_iff,
      sourcesOf_eq_nil_iff]
  · rw [Declaration.generate_eq_error_iff (.inr rfl), Declaration.source_eq_multipleSources_iff,
      exists_sourcesOf_eq_cons_cons_iff]
  · intro path text s' d' h hfile h' hhead
    have hload := GrammarSource.load_file_of_readBytes hfile
    have hload' : (GrammarSource.inlined text).load s' = .ok text := rfl
    rw [Declaration.generate_of_loads h.source_eq_file hload,
      Declaration.generate_of_loads h'.source_eq_inlined hload', hhead]
  · intro text h
    have hload : (GrammarSource.inlined text).load s = .ok text := rfl
    rw [Declaration.generate_of_loads h.source_eq_inlined hload]
    cases hcompile : compile text with
    | error error =>
      refine ⟨fun code => by simp, ?_⟩
      rintro cause hcause
      cases hcause
      exact ⟨.invalid error, rfl, rfl⟩
    | ok g =>
      exact ⟨fun code => by simp [eq_comm], fun _ h => by cases h⟩

/-- A file with a reference that leads nowhere.  There is a comment in front of its name, and behind
it an attribute with the name of a source and no value. -/
theorem generate_of_sources_file :
    Declaration.generate ⟨.ofFiles [("m/a.gbnf", "a ::= b".toUTF8)], some "m"⟩
        ⟨⟨"Row", []⟩, [⟨"doc", .assigned (.text "A row.")⟩,
          ⟨"gbnf_file", .assigned (.text "a.gbnf")⟩, ⟨"gbnf_inline", .bare⟩]⟩ =
      Declaration.generate ⟨.ofFiles [], none⟩
        ⟨⟨"Row", []⟩, [⟨"gbnf_inline", .assigned (.text "a ::= b")⟩]⟩ ∧
    (∃ failure, Declaration.generate ⟨.ofFiles [], none⟩
        ⟨⟨"Row", []⟩, [⟨"gbnf_inline", .assigned (.text "a ::= b")⟩]⟩ = .error failure ∧
      failure.message = "Invalid grammar: undefined rule identifier 'b'") ∧
    Declaration.generate ⟨.ofFiles [], none⟩
        ⟨⟨"Row", []⟩, [⟨"gbnf_inline", .bare⟩]⟩ = .error .missingSource := by
  have hfile : Declaration.HasOnly ⟨⟨"Row", []⟩, [⟨"doc", .assigned (.text "A row.")⟩,
      ⟨"gbnf_file", .assigned (.text "a.gbnf")⟩, ⟨"gbnf_inline", .bare⟩]⟩ fileName "a.gbnf" := by
    refine ⟨[⟨"doc", .assigned (.text "A row.")⟩], [⟨"gbnf_inline", .bare⟩], rfl, ?_⟩
    simp [Attribute.IsSource, inlineName, fileName]
  have hinline : Declaration.HasOnly ⟨⟨"Row", []⟩,
      [⟨"gbnf_inline", .assigned (.text "a ::= b")⟩]⟩ inlineName "a ::= b" :=
    ⟨[], [], rfl, by simp⟩
  have hbytes : FileTree.readBytes (.ofFiles [("m/a.gbnf", "a ::= b".toUTF8)])
      (joinPath ((some "m").getD ".") "a.gbnf") = .ok "a ::= b".toUTF8 := by decide +kernel
  have hcompile : compile "a ::= b" = .error (.undefinedRule "b") := by decide +kernel
  obtain ⟨-, -, -, hsame, -⟩ := generate_of_sources
    ⟨.ofFiles [("m/a.gbnf", "a ::= b".toUTF8)], some "m"⟩
    ⟨⟨"Row", []⟩, [⟨"doc", .assigned (.text "A row.")⟩,
      ⟨"gbnf_file", .assigned (.text "a.gbnf")⟩, ⟨"gbnf_inline", .bare⟩]⟩
  obtain ⟨-, -, -, -, hinlined⟩ := generate_of_sources ⟨.ofFiles [], none⟩
    ⟨⟨"Row", []⟩, [⟨"gbnf_inline", .assigned (.text "a ::= b")⟩]⟩
  obtain ⟨-, hmissing, -⟩ := generate_of_sources ⟨.ofFiles [], none⟩
    ⟨⟨"Row", []⟩, [⟨"gbnf_inline", .bare⟩]⟩
  refine ⟨hsame _ _ _ _ hfile hbytes hinline rfl, (hinlined _ hinline).2 _ hcompile, hmissing.2 ?_⟩
  simp [Attribute.IsSource]

end EbnfTables
