import EbnfTables.Proofs.Source.Alternatives
import Mathlib.Algebra.GroupWithZero.Nat

/-!
# Reading whole sources

`read` takes a text apart exactly if the text is a source (`read_eq_iff`); so a text is a source in
at most one way (`SourceText.unique`).

What a source looks like also bounds what can be made from it.  `Expr.span` is the least number of
characters that an expression takes (`SourceText.span_le`).  `Expr.idCount` counts the places of an
expression that may need an id of their own, and each of them is paid for by a character of its own
(`Expr.idCount_le_span`).
-/

namespace EbnfTables

variable {limit : ℕ}

/-! ### Definitions -/

theorem readDefinition_eq_ok_iff {text rest : List Char} {d : Definition} :
    readDefinition limit text = .ok (d, rest) ↔ DefinitionText limit d text rest := by
  constructor
  · intro h
    simp only [readDefinition] at h
    split at h
    · cases h
    · rename_i name mid hname
      split at h
      · cases h
      · rename_i mark hmark
        split at h
        · cases h
        · rename_i body rest' hread
          cases h
          obtain ⟨stop, hbody, hc, hend⟩ := readAlternatives_eq_ok_iff.1 hread
          refine .intro (readName?_eq_some_iff.1 hname) ?_ (Spacing.skips_skip _ _) hbody hc ?_
          · exact Spacing.skip_eq_iff.1 (Text.after?_eq_some_iff.1 hmark)
          · rw [← readLineEnd?_skip_iff, hend]
            rfl
  · intro h
    cases h with
    | @intro name body _ mid mark right stop _ hname hmark hright hbody hc hend =>
      rw [← readLineEnd?_skip_iff] at hend
      obtain ⟨rest', hline, rfl⟩ := Option.map_eq_some_iff.1 hend
      have hread := readAlternatives_eq_ok_iff.2 ⟨stop, hbody, hc, hline⟩
      have hsign : Text.after? [':', ':', '='] (Spacing.sameLine.skip mid) = some mark :=
        Text.after?_eq_some_iff.2 (Spacing.skip_eq_iff.2 hmark)
      simp only [readDefinition, readName?_eq_some_iff.2 hname, hsign,
        Spacing.skip_eq_iff.2 hright, hread]

theorem readDefinitions_of_eq_error {c : Char} {cs : List Char} {refusal : Refusal}
    (h : readDefinition limit (c :: cs) = .error refusal) :
    readDefinitions limit (c :: cs) = ⟨[], some refusal⟩ := by
  rw [readDefinitions]
  split
  · rename_i heq; rw [h] at heq; cases heq; rfl
  · rename_i heq; rw [h] at heq; cases heq

theorem readDefinitions_of_eq_ok {text rest : List Char} {d : Definition}
    (h : readDefinition limit text = .ok (d, rest)) :
    readDefinitions limit text =
      ⟨d :: (readDefinitions limit rest).definitions, (readDefinitions limit rest).refusal⟩ := by
  cases text with
  | nil => simp [readDefinition, readName?] at h  -- a definition starts with a name
  | cons c cs =>
    rw [readDefinitions]
    split
    · rename_i heq; rw [h] at heq; cases heq
    · rename_i heq; rw [h] at heq; cases heq; rfl

theorem readDefinitions_eq_iff {text : List Char} {defs : List Definition} :
    readDefinitions limit text = ⟨defs, none⟩ ↔ DefinitionsText limit defs text := by
  constructor
  · intro h
    fun_induction readDefinitions limit text generalizing defs with
    | case1 => cases h; exact .nil
    | case2 => cases h
    | case3 c cs d rest hread more =>
      rename_i ih
      cases defs with
      | nil => cases h
      | cons d' ds =>
        simp only [Reading.mk.injEq, List.cons.injEq] at h
        obtain ⟨⟨rfl, hds⟩, hnone⟩ := h
        refine .cons (readDefinition_eq_ok_iff.1 hread) (ih ?_)
        rw [← hds, ← hnone]
  · intro h
    induction h with
    | nil => rw [readDefinitions]
    | @cons d ds text rest hd _ ih =>
      rw [readDefinitions_of_eq_ok (readDefinition_eq_ok_iff.2 hd), ih]

/-- A text is taken apart into definitions, and nothing is left, if and only if it is a source. -/
theorem read_eq_iff {text : List Char} {defs : List Definition} :
    (defs ≠ [] ∧ read limit text = ⟨defs, none⟩) ↔ SourceText limit defs text := by
  rw [read, readDefinitions_eq_iff]
  constructor
  · rintro ⟨hne, hdefs⟩
    exact ⟨hne, _, Spacing.skips_skip _ _, hdefs⟩
  · rintro ⟨hne, rest, hskip, hdefs⟩
    rw [Spacing.skip_eq_iff.2 hskip]
    exact ⟨hne, hdefs⟩

/-- A text is a source in at most one way. -/
theorem SourceText.unique {text : List Char} {defs defs' : List Definition}
    (h : SourceText limit defs text) (h' : SourceText limit defs' text) : defs = defs' := by
  have hread := (read_eq_iff.2 h).2
  rw [(read_eq_iff.2 h').2] at hread
  exact (Reading.mk.inj hread).1.symm

/-! ### How much text an expression needs -/

theorem Spacing.length_skips_le {s : Spacing} {text rest : List Char} (h : Skips s text rest) :
    rest.length ≤ text.length := by
  obtain ⟨w, -, rfl⟩ := h.row
  simp

theorem DefinitionEnd.length_le {text rest : List Char} (h : DefinitionEnd text rest) :
    rest.length ≤ text.length := by
  cases h with
  | ending => exact le_rfl
  | line hline hskip =>
    have hlen := Spacing.length_skips_le hskip
    cases hline <;> simp only [List.length_cons] <;> omega

theorem NameText.length_lt {name : String} {text rest : List Char} (h : NameText name text rest) :
    rest.length < text.length :=
  (readName?_remains (readName?_eq_some_iff.2 h)).length_lt

theorem LiteralText.length_add_length_le {cs text rest : List Char} (h : LiteralText cs text rest) :
    cs.length + 1 + rest.length ≤ text.length := by
  induction h with
  | close => simp [Nat.add_comm]
  | char _ hc _ ih =>
    have := (readChar_remains hc).length_lt
    rw [List.length_cons]
    omega

/-- The least number of characters of a class member. -/
def Member.span : Member → ℕ
  | single _ => 1
  | range _ _ => 3

theorem MemberText.span_add_length_le {m : Member} {text rest : List Char}
    (h : MemberText m text rest) : m.span + rest.length ≤ text.length := by
  cases h with
  | single hc _ =>
    have := (readChar_remains hc).length_lt
    rw [Member.span]
    omega
  | range hlower _ hupper =>
    have hlower := (readChar_remains hlower).length_lt
    have hupper := (readChar_remains hupper).length_lt
    rw [List.length_cons] at hlower
    rw [Member.span]
    omega

theorem MembersText.span_add_length_le {ms : List Member} {text rest : List Char}
    (h : MembersText ms text rest) :
    (ms.map Member.span).sum + 1 + rest.length ≤ text.length := by
  induction h with
  | close => simp [Nat.add_comm]
  | member _ hm _ ih =>
    have := hm.span_add_length_le
    rw [List.map_cons, List.sum_cons]
    omega

theorem ClassText.span_add_length_le {negated : Bool} {ms : List Member} {text rest : List Char}
    (h : ClassText negated ms text rest) :
    (ms.map Member.span).sum + 1 + rest.length ≤ text.length := by
  cases h with
  | negated h =>
    have := h.span_add_length_le
    rw [List.length_cons]
    omega
  | plain _ h => exact h.span_add_length_le

/-- The least number of characters of an expression. -/
def Expr.span : {level : Level} → Expr level → ℕ
  | _, literal chars => chars.length + 2
  | _, charClass _ members => (members.map Member.span).sum + 2
  | _, ref _ => 1
  | _, group body => body.span + 2
  | _, repeated _ operand => operand.span + 1
  | _, nothing => 0
  | _, snoc front last => front.span + last.span
  | _, only sequence => sequence.span
  | _, orElse earlier last => earlier.span + last.span + 1

theorem ExprText.span_add_length_le {s : Spacing} {depth : ℕ} {level : Level} {e : Expr level}
    {text rest : List Char} (h : ExprText s depth e text rest) :
    e.span + rest.length ≤ text.length := by
  induction h with
  | literal h =>
    have := h.length_add_length_le
    rw [Expr.span, List.length_cons]
    omega
  | charClass h =>
    have := h.span_add_length_le
    rw [Expr.span, List.length_cons]
    omega
  | ref h =>
    have := h.length_lt
    rw [Expr.span]
    omega
  | group hskip _ _ ih =>
    have := Spacing.length_skips_le hskip
    simp only [Expr.span, List.length_cons] at ih ⊢
    omega
  | nothing => simp [Expr.span]
  | snoc _ _ hskip ihfront ihlast =>
    have := Spacing.length_skips_le hskip
    rw [Expr.span]
    omega
  | quantified _ _ hskip ih =>
    have := Spacing.length_skips_le hskip
    simp only [Expr.span, List.length_cons] at ih ⊢
    omega
  | only _ ih => exact ih
  | orElse _ hskip _ ihearlier ihlast =>
    have := Spacing.length_skips_le hskip
    simp only [Expr.span, List.length_cons] at ihearlier ⊢
    omega

/-- The least number of characters of definitions: each takes a name and a mark besides its right
side. -/
def span (defs : List Definition) : ℕ := (defs.map fun d => d.body.span + 4).sum

theorem span_cons (d : Definition) (ds : List Definition) :
    span (d :: ds) = d.body.span + 4 + span ds := by
  simp [span]

theorem span_concat (defs : List Definition) (d : Definition) :
    span (defs ++ [d]) = span defs + (d.body.span + 4) := by
  simp [span]

theorem DefinitionText.span_add_length_le {d : Definition} {text rest : List Char}
    (h : DefinitionText limit d text rest) : d.body.span + 4 + rest.length ≤ text.length := by
  cases h with
  | intro hname hmark hright hbody _ hend =>
    have hname := hname.length_lt
    have hmark := Spacing.length_skips_le hmark
    have hright := Spacing.length_skips_le hright
    have hbody := hbody.span_add_length_le
    have hend := hend.length_le
    simp only [List.length_cons] at hmark
    dsimp only
    omega

theorem DefinitionsText.span_le {defs : List Definition} {text : List Char}
    (h : DefinitionsText limit defs text) : span defs ≤ text.length := by
  induction h with
  | nil => exact Nat.zero_le _
  | cons hd _ ih =>
    have := hd.span_add_length_le
    rw [span_cons]
    omega

/-- **A source is at least as long as its definitions need.** -/
theorem SourceText.span_le {defs : List Definition} {text : List Char}
    (h : SourceText limit defs text) : span defs ≤ text.length := by
  obtain ⟨rest, hskip, hdefs⟩ := h.definitions
  exact hdefs.span_le.trans (Spacing.length_skips_le hskip)

/-! ### How many ids an expression needs -/

/-- The number of references, groups and quantifiers: each of them may need an id. -/
def Expr.idCount : {level : Level} → Expr level → ℕ
  | _, literal _ | _, charClass _ _ | _, nothing => 0
  | _, ref _ => 1
  | _, group body => body.idCount + 1
  | _, repeated _ operand => operand.idCount + 1
  | _, snoc front last => front.idCount + last.idCount
  | _, only sequence => sequence.idCount
  | _, orElse earlier last => earlier.idCount + last.idCount

/-- Every place that may need an id takes a character of its own. -/
theorem Expr.idCount_le_span {level : Level} (e : Expr level) : e.idCount ≤ e.span := by
  induction e with
  | literal | charClass | nothing => exact Nat.zero_le _
  | ref => exact le_rfl
  | group _ ih | repeated _ _ ih =>
    rw [idCount, span]
    omega
  | only _ ih => exact ih
  | snoc _ _ ihfront ihlast | orElse _ _ ihfront ihlast =>
    rw [idCount, span]
    omega

theorem ExprText.idCount_add_length_le {s : Spacing} {depth : ℕ} {level : Level} {e : Expr level}
    {text rest : List Char} (h : ExprText s depth e text rest) :
    e.idCount + rest.length ≤ text.length :=
  (Nat.add_le_add_right e.idCount_le_span _).trans h.span_add_length_le

/-- The number of ids that definitions may need. -/
def idCount (defs : List Definition) : ℕ := (defs.map fun d => d.body.idCount + 1).sum

@[simp] theorem idCount_nil : idCount [] = 0 := rfl

@[simp] theorem idCount_cons (d : Definition) (ds : List Definition) :
    idCount (d :: ds) = d.body.idCount + 1 + idCount ds := by
  simp [idCount]

theorem idCount_concat (defs : List Definition) (d : Definition) :
    idCount (defs ++ [d]) = idCount defs + (d.body.idCount + 1) := by
  simp [idCount]

theorem DefinitionText.idCount_add_length_le {d : Definition} {text rest : List Char}
    (h : DefinitionText limit d text rest) : d.body.idCount + 1 + rest.length ≤ text.length := by
  have hspan := h.span_add_length_le
  have hle := d.body.idCount_le_span
  omega

theorem idCount_le_span (defs : List Definition) : idCount defs ≤ span defs := by
  induction defs with
  | nil => exact Nat.zero_le _
  | cons d ds ih =>
    have := d.body.idCount_le_span
    rw [idCount_cons, span_cons]
    omega

theorem SourceText.idCount_le {defs : List Definition} {text : List Char}
    (h : SourceText limit defs text) : idCount defs ≤ text.length :=
  (idCount_le_span defs).trans h.span_le

end EbnfTables
