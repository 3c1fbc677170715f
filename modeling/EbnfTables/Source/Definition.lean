import EbnfTables.Source.Alternatives

/-!
# Definitions

A grammar is a row of definitions `name ::= alternatives`, each ended by its line or by the text.
`read` takes a whole text apart.  It does not look at what the names mean; in particular it does not
mind a name that is defined twice.  Its result, a `Reading`, holds the definitions before the first
syntax error, and the error together with the definition in which it arose.
-/

namespace EbnfTables

/-- A definition of a rule. -/
structure Definition where
  name : String
  /-- The text from the name on. -/
  site : List Char
  body : Expr .alternatives

/-- A definition of which not more than its name and a part of its right side was read. -/
structure OpenDefinition where
  name : String
  /-- The text from the name on. -/
  site : List Char
  /-- The alternations that were begun, the innermost first. -/
  frames : List Frame
  /-- Whether the innermost of them was read to its end. -/
  finished : Bool

/-- A syntax error and the definition in which it arose, if its name was read. -/
structure Refusal where
  fault : Fault
  begun : Option OpenDefinition

/-- Reads one definition and the blanks behind it. -/
def readDefinition (limit : Nat) (cs : List Char) : Except Refusal (Definition × List Char) :=
  match readName? cs with
  | none => .error ⟨⟨.expectingName, cs⟩, none⟩
  | some (name, rest) =>
    let rest := Spacing.sameLine.skip rest
    match Text.after? [':', ':', '='] rest with
    | none => .error ⟨⟨.expectingDefinition, rest⟩, some ⟨name, cs, [], false⟩⟩
    | some rest =>
      match readAlternatives limit (Spacing.anyLine.skip rest) with
      | .error ⟨fault, frames, finished⟩ => .error ⟨fault, some ⟨name, cs, frames, finished⟩⟩
      | .ok (body, rest) => .ok (⟨name, cs, body⟩, Spacing.anyLine.skip rest)

theorem readDefinition_remains {limit : Nat} {cs rest : List Char} {d : Definition}
    (h : readDefinition limit cs = .ok (d, rest)) : Text.Remains rest cs := by
  simp only [readDefinition] at h
  split at h
  · cases h
  · rename_i name after hname
    have hskip := Text.Remains.suffix_trans (Spacing.sameLine.skip_suffix after)
      (readName?_remains hname)
    split at h
    · cases h
    · rename_i right hmark
      have hmark := Text.after?_eq_some_iff.1 hmark
      split at h
      · cases h
      · rename_i hread
        cases h
        refine .suffix_trans ?_ hskip
        rw [hmark]
        exact (((Spacing.anyLine.skip_suffix _).trans (Config.run_suffix hread)).trans
          (Spacing.anyLine.skip_suffix right)).trans (List.suffix_append _ _)

/-- What a text was taken apart into. -/
structure Reading where
  /-- The definitions before the first syntax error. -/
  definitions : List Definition
  /-- The first syntax error. -/
  refusal : Option Refusal

/-- Reads definitions to the end of the text. -/
def readDefinitions (limit : Nat) (cs : List Char) : Reading :=
  match cs with
  | [] => ⟨[], none⟩
  | c :: cs' =>
    match _h : readDefinition limit (c :: cs') with
    | .error refusal => ⟨[], some refusal⟩
    | .ok (d, rest) =>
      let more := readDefinitions limit rest
      ⟨d :: more.definitions, more.refusal⟩
termination_by cs.length
decreasing_by exact (readDefinition_remains _h).length_lt

/-- Takes the text of a grammar apart; at most `limit` groups may be open at a time. -/
def read (limit : Nat) (text : List Char) : Reading :=
  readDefinitions limit (Spacing.anyLine.skip text)

end EbnfTables
