/-!
# The order of names

Names are ordered by their code points, character by character, a name before its continuations.
This is also the order of their UTF-8 bytes.
-/

namespace EbnfTables.Text

/-- The order of two lists of characters by code points. -/
def compareChars : List Char → List Char → Ordering
  | [], [] => .eq
  | [], _ :: _ => .lt
  | _ :: _, [] => .gt
  | a :: as, b :: bs =>
    if a.toNat < b.toNat then .lt
    else if b.toNat < a.toNat then .gt
    else compareChars as bs

theorem compareChars_eq_iff {as bs : List Char} : compareChars as bs = .eq ↔ as = bs := by
  induction as generalizing bs with
  | nil => cases bs <;> simp [compareChars]
  | cons a as ih =>
    cases bs with
    | nil => simp [compareChars]
    | cons b bs =>
      unfold compareChars
      split
      · rename_i h
        constructor
        · intro e; cases e
        · rintro ⟨⟩; omega
      · split
        · rename_i h
          constructor
          · intro e; cases e
          · rintro ⟨⟩; omega
        · have hab : a = b := Char.toNat_inj.1 (by omega)
          simp [hab, ih]

/-- The order of two names. -/
def compareNames (a b : String) : Ordering := compareChars a.toList b.toList

/-- Whether the first name does not come after the second. -/
def precedes (a b : String) : Bool := compareNames a b != .gt

end EbnfTables.Text
