import EbnfTables.Proofs.Offsets.Reader
import EbnfTables.Proofs.Tables.Compilation

/-!
# Compilation does not get stuck

Every place that an error reports is the place of a definition or of a fault that was read
(`Reading.Refuses.site_suffix`), so it is a boundary of the text.

Main theorem: `compile_safe`.  A compilation reads its text, by byte offsets, without a breach: all
cuts are at boundaries, the cursor is only moved to end parts of what is left, no repetition breaks
down, a name is found wherever one was begun, and every round of every loop moves forward.
-/

namespace EbnfTables

open Offsets

/-- What is blamed is an end part of the text. -/
theorem Reading.Refuses.site_suffix {text site : List Char} {r : Reading} {e : CompileError}
    (h : r.Refuses text e site) (hr : r.Within text) : site <:+ text := by
  cases h with
  | duplicate hd => exact hr.definitions _ hd
  | openDuplicate hrefusal hd => exact (hr.refusal _ hrefusal).begun _ hd
  | malformed hrefusal => exact (hr.refusal _ hrefusal).fault

/-- The place of an error is a boundary of the text, and describes it. -/
theorem locate?_of_compile_eq_error {source : String} {options : CompileOptions} {e : CompileError}
    {p : Position} (h : compile source options = .error e) (hp : e.position? = some p) :
    Position.locate? source.toList p.offset = some p := by
  have hplace : e.position? ≠ none := by
    rw [hp]
    exact Option.some_ne_none p
  obtain ⟨site, hrefuses⟩ := exists_refuses_of_compile_eq_error h hplace
  have hposition := hrefuses.position?_eq
  rw [hp, Option.some.injEq] at hposition
  rw [hposition]
  exact locate?_ofRest (hrefuses.site_suffix (read_within _ _))

/-- **Compilation does not get stuck.**  By byte offsets, the text of every compilation is read
without a breach.  What is read are the definitions and the fault that the compilation works with,
so the tables are filled and the text is refused as if nothing had been checked.  A compilation that
finds a rule defined twice goes less far through the text.  Every position that an error reports is
a boundary. -/
theorem compile_safe (source : String) (options : CompileOptions) :
    readAt options.maxNesting source.toList =
        .ok (locateReading source.toList (read options.maxNesting source.toList)) ∧
      ∀ e p, compile source options = .error e → e.position? = some p →
        Position.locate? source.toList p.offset = some p :=
  ⟨readAt_eq _ _, fun _ _ h hp => locate?_of_compile_eq_error h hp⟩

/-- A class without its closing bracket, behind a character of two bytes. -/
theorem compile_safe_unterminated_class :
    (∃ r, readAt 64 "a ::= \"é\" [".toList = .ok r) ∧
    compile "a ::= \"é\" [" = .error (.malformed .unterminatedClass ⟨11, 1, 11⟩) ∧
    Position.locate? "a ::= \"é\" [".toList 11 = some ⟨11, 1, 11⟩ := by
  have herror : compile "a ::= \"é\" [" =
      .error (.malformed .unterminatedClass ⟨11, 1, 11⟩) := by decide +kernel
  obtain ⟨hread, hplace⟩ := compile_safe "a ::= \"é\" [" {}
  exact ⟨⟨_, hread⟩, herror, hplace _ _ herror rfl⟩

end EbnfTables
