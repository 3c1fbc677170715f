import EbnfTables.Text.Remains

/-!
# Names

A name is a run of word characters, as long as possible: ASCII letters and digits, `-` and `_`.
-/

namespace EbnfTables

/-- The characters of names. -/
def isWordChar (c : Char) : Bool := c.isAlphanum || c == '-' || c == '_'

/-- Reads a name. -/
def readName? (cs : List Char) : Option (String × List Char) :=
  match cs.takeWhile isWordChar with
  | [] => none
  | c :: word => some (String.ofList (c :: word), cs.dropWhile isWordChar)

theorem readName?_remains {cs rest : List Char} {name : String}
    (h : readName? cs = some (name, rest)) : Text.Remains rest cs := by
  cases cs with
  | nil => simp [readName?] at h
  | cons c cs =>
    by_cases hc : isWordChar c
    · simp only [readName?, List.takeWhile_cons, List.dropWhile_cons, hc, if_true,
        Option.some.injEq, Prod.mk.injEq] at h
      rw [← h.2]
      exact .cons (List.dropWhile_suffix _)
    · simp [readName?, hc] at h

end EbnfTables
