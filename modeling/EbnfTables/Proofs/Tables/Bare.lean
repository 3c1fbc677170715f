import EbnfTables.Proofs.Source.Bare
import EbnfTables.Proofs.Tables.Persistence

/-!
# Bodies without elements

What becomes of alternations that give no element.  An alternation is tested for being empty when
its bars have become elements already, so what is refused are the alternations without elements and
without bars.

* The elements of a bare expression are its bars (`Expr.build_of_isBare`); any other expression has
  an element that is neither a bar nor an end (`Expr.exists_isProper`);
* so a body that is stored is `IsFilled`: it has such an element, or it is that of a bare
  alternation of the source.  Building keeps the tables so (`Expr.each_build`,
  `Builder.each_addDefinitions`);
* a compilation fails for an empty alternation if and only if reading comes to the end of a bare one
  that has no bar (`comesToEmpty_iff`, `compile_eq_emptyAlternation_iff`).

Main theorem: `compile_bare_alternations`.  That bodies without elements are refused in general is
not so (`not_forall_exists_isProper`).
-/

namespace EbnfTables

/-! ### The elements of an expression -/

/-- The element is neither a bar nor the end of a body. -/
def Element.IsProper (x : Element) : Prop := x.kind ≠ .alt ∧ x.kind ≠ .stop

instance (x : Element) : Decidable x.IsProper :=
  inferInstanceAs (Decidable (x.kind ≠ .alt ∧ x.kind ≠ .stop))

theorem Member.exists_isProper (m : Member) {kind : ElementKind}
    (hkind : kind ≠ .alt ∧ kind ≠ .stop) : ∃ x ∈ m.elements kind, x.IsProper := by
  cases m <;> exact ⟨_, List.mem_cons_self, hkind⟩

namespace Expr

/-- A bare expression gives its bars. -/
theorem build_of_isBare {level : Level} {e : Expr level} (h : e.isBare = true) (base : String)
    (b : Builder) : (e.build base b).1 = List.replicate e.bars .alt := by
  induction e generalizing b with
  | literal chars => simp_all [isBare, build, bars]
  | charClass negated members =>
    obtain rfl : members = [] := List.isEmpty_iff.1 h
    rfl
  | ref | group | repeated => cases h
  | nothing => rfl
  | only _ ih =>
    rw [build, ih h, bars_sequence]
    rfl
  | snoc front last ihfront ihlast =>
    obtain ⟨hfront, hlast⟩ := Bool.and_eq_true_iff.1 h
    simp only [build, ihfront hfront, ihlast hlast, bars_sequence, bars_item, bars,
      List.replicate_zero, List.append_nil]
  | orElse earlier last ihearlier ihlast =>
    obtain ⟨hearlier, hlast⟩ := Bool.and_eq_true_iff.1 h
    simp only [build, ihearlier hearlier, ihlast hlast, bars_sequence, bars, List.replicate_zero,
      List.replicate_succ']

/-- Any other expression gives a proper element. -/
theorem exists_isProper {level : Level} {e : Expr level} (h : e.isBare = false) (base : String)
    (b : Builder) : ∃ x ∈ (e.build base b).1, x.IsProper := by
  induction e generalizing b with
  | literal chars =>
    cases chars with
    | nil => cases h
    | cons c chars => exact ⟨.char c, List.mem_cons_self, nofun, nofun⟩
  | charClass negated members =>
    cases members with
    | nil => cases h
    | cons m members =>
      have hkind : (if negated then ElementKind.charNot else .char) ≠ .alt ∧
          (if negated then ElementKind.charNot else .char) ≠ .stop := by
        cases negated <;> decide
      obtain ⟨x, hx, hproper⟩ := m.exists_isProper hkind
      exact ⟨x, List.mem_append_left _ hx, hproper⟩
  | ref | group | repeated => exact ⟨_, List.mem_cons_self, nofun, nofun⟩
  | nothing => cases h
  | only _ ih => exact ih h b
  | snoc front last ihfront ihlast =>
    rcases Bool.and_eq_false_iff.1 h with h | h
    · obtain ⟨x, hx, hproper⟩ := ihfront h b
      exact ⟨x, List.mem_append_left _ hx, hproper⟩
    · obtain ⟨x, hx, hproper⟩ := ihlast h (front.build base b).2
      exact ⟨x, List.mem_append_right _ hx, hproper⟩
  | orElse earlier last ihearlier ihlast =>
    rcases Bool.and_eq_false_iff.1 h with h | h
    · obtain ⟨x, hx, hproper⟩ := ihearlier h b
      exact ⟨x, List.mem_append_left _ hx, hproper⟩
    · obtain ⟨x, hx, hproper⟩ := ihlast h (earlier.build base b).2
      exact ⟨x, List.mem_append_right _ (List.mem_cons_of_mem _ hx), hproper⟩

end Expr

/-! ### Bodies -/

/-- The body has a proper element, or it has the bars of a bare alternation and an end. -/
def Body.IsFilled (alternations : List (Expr .alternatives)) (body : Body) : Prop :=
  (∃ x ∈ body, x.IsProper) ∨
    ∃ a ∈ alternations, a.isBare = true ∧ 1 ≤ a.bars ∧ body = List.replicate a.bars .alt ++ [.stop]

/-- An alternation that passes the test for being empty. -/
theorem Expr.isFilled_build {a : Expr .alternatives} {alternations : List (Expr .alternatives)}
    (hmem : a ∈ alternations) (hc : a.contributes = true) (base : String) (b : Builder) :
    Body.IsFilled alternations ((a.build base b).1 ++ [.stop]) := by
  cases hbare : a.isBare with
  | false =>
    obtain ⟨x, hx, hproper⟩ := exists_isProper hbare base b
    exact .inl ⟨x, List.mem_append_left _ hx, hproper⟩
  | true => exact .inr ⟨a, hmem, hbare, one_le_bars hc hbare, by rw [build_of_isBare hbare]⟩

/-- The repetition of an operand that passes the test. -/
theorem Expr.isFilled_expansion {o : Expr .item} (hc : o.contributes = true)
    (alternations : List (Expr .alternatives)) (q : Quantifier) (base : String) (b : Builder)
    (id : RuleId) : Body.IsFilled alternations (q.expansion (o.build base b).1 id) := by
  have hbare : o.isBare = false := by
    rw [← Bool.not_eq_true]
    intro hbare
    have hbars := one_le_bars hc hbare
    rw [o.bars_item] at hbars
    omega
  obtain ⟨x, hx, hproper⟩ := exists_isProper hbare base b
  refine .inl ⟨x, ?_, hproper⟩
  cases q <;> simp [Quantifier.expansion, hx]

/-- Every body in the table has the property. -/
def RuleTable.Each (P : Body → Prop) (t : RuleTable) : Prop := ∀ id, t.slot id = [] ∨ P (t.slot id)

namespace RuleTable.Each

variable {P : Body → Prop} {t : RuleTable}

theorem empty : RuleTable.empty.Each P := fun _ => .inl (by simp [slot, RuleTable.empty])

theorem define (h : t.Each P) {body : Body} (hbody : P body) (id : RuleId) :
    (t.define id body).Each P := by
  intro k
  by_cases hk : id = k
  · subst hk
    rw [slot_define_self]
    exact .inr hbody
  · rw [slot_define_of_ne t body hk]
    exact h k

theorem of_body?_eq_some (h : t.Each P) {id : RuleId} {body : Body}
    (hbody : t.body? id = some body) : P body := by
  unfold body? at hbody
  split at hbody
  · rename_i hdefined
    cases hbody
    exact (h id).resolve_left fun hslot => by simp [isDefined, hslot] at hdefined
  · cases hbody

end RuleTable.Each

/-- What is built inside an expression has filled bodies. -/
theorem Expr.each_build {level : Level} {e : Expr level} {alternations : List (Expr .alternatives)}
    (hsub : e.alternations ⊆ alternations)
    (halternations : ∀ a ∈ e.alternations, a.contributes = true)
    (hoperands : ∀ o ∈ e.operands, o.contributes = true) (base : String) {b : Builder}
    (h : b.rules.Each (Body.IsFilled alternations)) :
    (e.build base b).2.rules.Each (Body.IsFilled alternations) := by
  induction e generalizing b with
  | literal | charClass | ref | nothing => exact h
  | group body ih =>
    obtain ⟨hmem, hsub⟩ := List.cons_subset.1 hsub
    obtain ⟨hc, halternations⟩ := List.forall_mem_cons.1 halternations
    have hfresh : (b.fresh base).2.rules.Each (Body.IsFilled alternations) := h
    exact (ih hsub halternations hoperands hfresh).define (body.isFilled_build hmem hc base _) _
  | repeated q operand ih =>
    obtain ⟨hc, hoperands⟩ := List.forall_mem_cons.1 hoperands
    exact (ih hsub halternations hoperands h).define (isFilled_expansion hc _ q base b _) _
  | only _ ih => exact ih hsub halternations hoperands h
  | snoc _ _ ihfront ihlast | orElse _ _ ihfront ihlast =>
    obtain ⟨hsubFront, hsubLast⟩ := List.append_subset.1 hsub
    obtain ⟨hfront, hlast⟩ := List.forall_mem_append.1 halternations
    obtain ⟨hoperandsFront, hoperandsLast⟩ := List.forall_mem_append.1 hoperands
    exact ihlast hsubLast hlast hoperandsLast (ihfront hsubFront hfront hoperandsFront h)

namespace Builder

theorem each_addDefinition {d : Definition} {alternations : List (Expr .alternatives)}
    (hsub : d.alternations ⊆ alternations) (hd : d.Contributes) {b : Builder}
    (h : b.rules.Each (Body.IsFilled alternations)) :
    (b.addDefinition d).1.rules.Each (Body.IsFilled alternations) := by
  obtain ⟨hmem, hsub⟩ := List.cons_subset.1 hsub
  obtain ⟨hc, halternations⟩ := List.forall_mem_cons.1 hd.1
  have hintern : (b.intern d.name).2.rules.Each (Body.IsFilled alternations) := h
  unfold addDefinition
  by_cases hdefined : (b.intern d.name).2.rules.isDefined (b.intern d.name).1
  · simpa only [hdefined, if_true] using hintern
  · simp only [hdefined, Bool.false_eq_true, if_false]
    exact (Expr.each_build hsub halternations hd.2 d.name hintern).define
      (d.body.isFilled_build hmem hc d.name _) _

/-- What is built for definitions has filled bodies. -/
theorem each_addDefinitions {ds : List Definition} {alternations : List (Expr .alternatives)}
    (hsub : ds.flatMap Definition.alternations ⊆ alternations) (hds : ∀ d ∈ ds, d.Contributes)
    {b : Builder} (h : b.rules.Each (Body.IsFilled alternations)) :
    (b.addDefinitions ds).1.rules.Each (Body.IsFilled alternations) := by
  induction ds generalizing b with
  | nil => exact h
  | cons d ds ih =>
    rw [List.flatMap_cons, List.append_subset] at hsub
    obtain ⟨hd, hds⟩ := List.forall_mem_cons.1 hds
    have hfirst := each_addDefinition hsub.1 hd h
    rw [addDefinitions]
    split
    · rename_i heq
      rwa [heq] at hfirst
    · rename_i heq
      rw [heq] at hfirst
      exact ih hsub.2 hds hfirst

end Builder

/-! ### Compilation -/

/-- In `text`, behind definitions that are added, there is one whose rule has no body, and in whose
right side an alternation that begins at `site` is left empty. -/
def ComesToEmpty (limit : ℕ) (text site : List Char) : Prop :=
  ∃ first ds b name start, Skips .anyLine text first ∧ StartsWith limit ds first start ∧
    Builder.empty.addDefinitions ds = (b, none) ∧ b.refuses name = false ∧
    Definition.LeftEmpty limit name start site

/-- Reading comes to an empty alternation if and only if this is what the text is refused for, with
the definitions before it added. -/
theorem comesToEmpty_iff {limit : ℕ} {text site : List Char} :
    ComesToEmpty limit text site ↔
      ∃ ds b refusal, read limit text = ⟨ds, some refusal⟩ ∧
        Builder.empty.addDefinitions ds = (b, none) ∧
        (∀ d, refusal.begun = some d → b.refuses d.name = false) ∧
        refusal.fault = ⟨.emptyAlternation, site⟩ := by
  constructor
  · rintro ⟨first, ds, b, name, start, hskip, hstarts, hds, hrefuses, hempty⟩
    obtain ⟨refusal, hstart, hfault, hname⟩ :=
      readDefinition_eq_emptyAlternation_iff.2 ⟨name, rfl, hempty⟩
    obtain ⟨mid, -, -, hstartName, -⟩ := hempty
    have hne : start ≠ [] := List.ne_nil_of_length_pos (by have := hstartName.length_lt; omega)
    rw [← Spacing.skip_eq_iff.2 hskip] at hstarts
    refine ⟨ds, b, refusal, read_eq_refusal_iff.2 ⟨start, hstarts, hne, hstart⟩, hds,
      fun d hd => ?_, hfault⟩
    rw [hd] at hname
    rwa [Option.some.inj hname]
  · rintro ⟨ds, b, refusal, hread, hds, hbegun, hfault⟩
    obtain ⟨start, hstarts, -, hstart⟩ := read_eq_refusal_iff.1 hread
    obtain ⟨name, hname, hempty⟩ :=
      readDefinition_eq_emptyAlternation_iff.1 ⟨refusal, hstart, hfault, rfl⟩
    obtain ⟨d, hd, rfl⟩ := Option.map_eq_some_iff.1 hname
    exact ⟨_, ds, b, d.name, start, Spacing.skips_skip _ _, hstarts, hds, hbegun d hd, hempty⟩

/-- An empty alternation begins somewhere in the text. -/
theorem ComesToEmpty.isSuffix {limit : ℕ} {text site : List Char}
    (h : ComesToEmpty limit text site) : site <:+ text := by
  obtain ⟨ds, b, refusal, hread, -, -, hfault⟩ := comesToEmpty_iff.1 h
  have hsite := ((read_within limit text).refusal refusal (by rw [hread])).fault
  rwa [hfault] at hsite

/-- A compilation fails for an empty alternation if and only if reading comes to one. -/
theorem compile_eq_emptyAlternation_iff {source : String} {options : CompileOptions}
    {p : Position} :
    compile source options = .error (.malformed .emptyAlternation p) ↔
      ∃ site, ComesToEmpty options.maxNesting source.toList site ∧
        p = .ofRest source.toList site := by
  constructor
  · intro h
    obtain ⟨ds, b, refusal, hread, hds, hbegun, herror, rfl⟩ :=
      Reading.exists_of_build_eq_malformed (parse_eq_of_compile_eq_error h nofun)
    refine ⟨refusal.fault.site, comesToEmpty_iff.2 ⟨ds, b, refusal, hread, hds, hbegun, ?_⟩, rfl⟩
    rw [herror]
  · rintro ⟨site, hcomes, rfl⟩
    obtain ⟨ds, b, refusal, hread, hds, hbegun, hfault⟩ := comesToEmpty_iff.1 hcomes
    refine compile_of_parse_eq_error ?_
    rw [parse, hread, Reading.build_of_refusal hds hbegun, hfault]

/-- **Which alternations are refused for being empty.**  In a grammar that was compiled, every body
has an element that is neither a bar nor an end, or else it has the bars of an alternation of the
source that gives no element and has a bar.  A compilation fails for an empty alternation if and
only if reading comes to one that gives no element and has no bar. -/
theorem compile_bare_alternations (source : String) (options : CompileOptions) :
    (∀ g, compile source options = .ok g →
      (∀ id body, g.rule? id = some body → (∃ x ∈ body, x.kind ≠ .alt ∧ x.kind ≠ .stop) ∨
        ∃ d ∈ (read options.maxNesting source.toList).definitions, ∃ a ∈ d.alternations,
          a.isBare = true ∧ 1 ≤ a.bars ∧ body = List.replicate a.bars .alt ++ [.stop]) ∧
      ∀ d ∈ (read options.maxNesting source.toList).definitions, ∀ a ∈ d.alternations,
        a.isBare = true → 1 ≤ a.bars) ∧
    ∀ p, compile source options = .error (.malformed .emptyAlternation p) ↔
      ∃ site, ComesToEmpty options.maxNesting source.toList site ∧
        p = .ofRest source.toList site := by
  refine ⟨fun g hg => ?_, fun p => compile_eq_emptyAlternation_iff⟩
  obtain ⟨b, hparse, hcheck⟩ := compile_eq_ok_iff_parse.1 hg
  obtain ⟨hrefusal, hne, hadd⟩ := build_eq_none_iff.1 hparse
  obtain rfl := eq_of_check_eq_ok hcheck
  have hsource : SourceText options.maxNesting (read options.maxNesting source.toList).definitions
      source.toList := by
    refine read_eq_iff.1 ⟨hne, ?_⟩
    rw [← hrefusal]
  have hcontributes := hsource.contributes
  have heach := Builder.each_addDefinitions (List.Subset.refl _) hcontributes
    (b := .empty) RuleTable.Each.empty
  rw [hadd] at heach
  refine ⟨fun id body hbody => ?_, fun d hd a ha => Expr.one_le_bars ((hcontributes d hd).1 a ha)⟩
  rcases heach.of_body?_eq_some hbody with hproper | ⟨a, ha, hbare, hbars, heq⟩
  · exact .inl hproper
  · obtain ⟨d, hd, ha⟩ := List.mem_flatMap.1 ha
    exact .inr ⟨d, hd, a, ha, hbare, hbars, heq⟩

/-- A group that holds an empty literal, a bar and an empty class, and one without the bar. -/
theorem compile_bare_alternations_group :
    (∃ g, compile "a ::= \"x\" (\"\" | [])?" = .ok g ∧ g.rule? 1 = some [.alt, .stop] ∧
      ∃ d ∈ (read 64 "a ::= \"x\" (\"\" | [])?".toList).definitions, ∃ a ∈ d.alternations,
        a.isBare = true ∧ 1 ≤ a.bars ∧
          [Element.alt, .stop] = List.replicate a.bars Element.alt ++ [.stop]) ∧
    compile "a ::= \"x\" (\"\" [])" = .error (.malformed .emptyAlternation ⟨11, 1, 12⟩) ∧
    ∃ site, ComesToEmpty 64 "a ::= \"x\" (\"\" [])".toList site := by
  have hok : compile "a ::= \"x\" (\"\" | [])?" = .ok ⟨⟨["a", "a_1", "a_2"]⟩, ⟨[
      [.char 'x', .ruleRef 2, .stop],
      [.alt, .stop],
      [.ruleRef 1, .alt, .stop]]⟩⟩ := by decide +kernel
  have herror : compile "a ::= \"x\" (\"\" [])" =
      .error (.malformed .emptyAlternation ⟨11, 1, 12⟩) := by decide +kernel
  obtain ⟨hbodies, -⟩ := (compile_bare_alternations "a ::= \"x\" (\"\" | [])?" {}).1 _ hok
  obtain ⟨site, hcomes, -⟩ := ((compile_bare_alternations "a ::= \"x\" (\"\" [])" {}).2 _).1 herror
  have hbare := (hbodies 1 [.alt, .stop] (by decide)).resolve_left (by decide)
  exact ⟨⟨_, hok, by decide, hbare⟩, herror, site, hcomes⟩

/-- **Bodies without elements are not refused in general.**  The only alternation of `a ::= |` gives
no element, and its body is a bar and an end. -/
theorem not_forall_exists_isProper :
    ¬ ∀ (source : String) (options : CompileOptions) (g : Grammar),
      compile source options = .ok g → ∀ id body, g.rule? id = some body →
        ∃ x ∈ body, x.kind ≠ .alt ∧ x.kind ≠ .stop := by
  intro h
  have hok : compile "a ::= |" = .ok ⟨⟨["a"]⟩, ⟨[[.alt, .stop]]⟩⟩ := by decide +kernel
  exact absurd (h _ {} _ hok 0 [.alt, .stop] (by decide)) (by decide)

end EbnfTables
