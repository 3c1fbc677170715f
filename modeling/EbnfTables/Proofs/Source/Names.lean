import EbnfTables.Proofs.Source.Reading

/-!
# Names in sources

What a source guarantees of its definitions, whatever they mean:

* `IsWord`: names have characters, and only word characters;
* `Expr.refNames` lists the names that an expression refers to;
* `Expr.Filled`: no group is empty;
* `Expr.Grounded defs`: all these names are defined, which a source does not guarantee.

`Definition.IsSound` collects the others, and every definition of a source is sound
(`SourceText.isSound`).
-/

namespace EbnfTables

/-- A name as it can be written in a source. -/
structure IsWord (name : String) : Prop where
  ne_nil : name.toList ≠ []
  isWordChar_of_mem : ∀ c ∈ name.toList, isWordChar c

namespace Expr

/-- The names that an expression refers to. -/
def refNames : {level : Level} → Expr level → List String
  | _, literal _ | _, charClass _ _ | _, nothing => []
  | _, ref name => [name]
  | _, group body => body.refNames
  | _, repeated _ operand => operand.refNames
  | _, snoc front last => front.refNames ++ last.refNames
  | _, only sequence => sequence.refNames
  | _, orElse earlier last => earlier.refNames ++ last.refNames

/-- Every group gives an element. -/
def Filled : {level : Level} → Expr level → Prop
  | _, literal _ | _, charClass _ _ | _, nothing | _, ref _ => True
  | _, group body => body.contributes ∧ body.Filled
  | _, repeated _ operand => operand.Filled
  | _, snoc front last => front.Filled ∧ last.Filled
  | _, only sequence => sequence.Filled
  | _, orElse earlier last => earlier.Filled ∧ last.Filled

/-- Every name that the expression refers to is defined. -/
def Grounded (defs : List Definition) {level : Level} (e : Expr level) : Prop :=
  ∀ name ∈ e.refNames, ∃ d ∈ defs, d.name = name

instance (defs : List Definition) {level : Level} (e : Expr level) : Decidable (e.Grounded defs) :=
  inferInstanceAs (Decidable (∀ name ∈ e.refNames, ∃ d ∈ defs, d.name = name))

end Expr

namespace ExprText

variable {s : Spacing} {depth : ℕ} {level : Level} {e : Expr level} {text rest : List Char}

theorem isWord_of_mem_refNames (h : ExprText s depth e text rest) :
    ∀ name ∈ e.refNames, IsWord name := by
  induction h with
  | literal | charClass | nothing => simp [Expr.refNames]
  | ref h =>
    intro name hname
    obtain rfl := List.mem_singleton.1 hname
    exact ⟨h.ne_nil, h.isWordChar_of_mem⟩
  | group _ _ _ ih => exact ih
  | snoc _ _ _ ihfront ihlast => exact List.forall_mem_append.2 ⟨ihfront, ihlast⟩
  | quantified _ _ _ ih => exact ih
  | only _ ih => exact ih
  | orElse _ _ _ ihearlier ihlast => exact List.forall_mem_append.2 ⟨ihearlier, ihlast⟩

theorem filled (h : ExprText s depth e text rest) : e.Filled := by
  induction h with
  | literal | charClass | nothing | ref => trivial
  | group _ _ hc ih => exact ⟨hc, ih⟩
  | snoc _ _ _ ihfront ihlast => exact ⟨ihfront, ihlast⟩
  | quantified _ _ _ ih => exact ih
  | only _ ih => exact ih
  | orElse _ _ _ ihearlier ihlast => exact ⟨ihearlier, ihlast⟩

end ExprText

/-- What a source guarantees of a definition. -/
structure Definition.IsSound (d : Definition) : Prop where
  name : IsWord d.name
  refNames : ∀ name ∈ d.body.refNames, IsWord name
  contributes : d.body.contributes
  filled : d.body.Filled

variable {limit : ℕ}

theorem DefinitionText.isSound {d : Definition} {text rest : List Char}
    (h : DefinitionText limit d text rest) : d.IsSound := by
  cases h with
  | intro hname _ _ hbody hc _ =>
    exact ⟨⟨hname.ne_nil, hname.isWordChar_of_mem⟩, hbody.isWord_of_mem_refNames, hc, hbody.filled⟩

theorem DefinitionsText.isSound {defs : List Definition} {text : List Char}
    (h : DefinitionsText limit defs text) : ∀ d ∈ defs, d.IsSound := by
  induction h with
  | nil => simp
  | cons hd _ ih => exact List.forall_mem_cons.2 ⟨hd.isSound, ih⟩

theorem SourceText.isSound {defs : List Definition} {text : List Char}
    (h : SourceText limit defs text) : ∀ d ∈ defs, d.IsSound := by
  obtain ⟨rest, -, hdefs⟩ := h.definitions
  exact hdefs.isSound

end EbnfTables
