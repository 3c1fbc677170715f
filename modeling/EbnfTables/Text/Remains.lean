/-!
# What is left of a text

Reading goes from left to right and always goes on with an end part of the text.

* `Text.after? expected text` is what follows `expected` in a text that begins with it;
* `Text.Remains rest text` says that `rest` is what is left of `text` after at least one character
  was read.  Every reader of the library has a lemma of this form; it is what makes the loops end
  and what keeps every reported place inside the text.
-/

namespace EbnfTables.Text

/-- What follows the expected characters at the start of a text. -/
def after? : (expected text : List Char) → Option (List Char)
  | [], cs => some cs
  | _ :: _, [] => none
  | e :: es, c :: cs => if e = c then after? es cs else none

theorem after?_eq_some_iff {expected text rest : List Char} :
    after? expected text = some rest ↔ text = expected ++ rest := by
  fun_induction after? expected text with
  | case1 => simp
  | case2 => simp
  | case3 e es cs ih => simp [ih]
  | case4 e es c cs h => simp [Ne.symm h]

/-- What is left after at least one character was read. -/
def Remains (rest text : List Char) : Prop :=
  ∃ c cs, text = c :: cs ∧ rest <:+ cs

namespace Remains

variable {as bs cs : List Char} {c : Char}

theorem cons (h : as <:+ cs) : Remains as (c :: cs) := ⟨c, cs, rfl, h⟩

theorem tail : Remains cs (c :: cs) := cons List.suffix_rfl

theorem isSuffix (h : Remains as bs) : as <:+ bs := by
  obtain ⟨c, cs, rfl, h⟩ := h
  exact h.trans (List.suffix_cons c cs)

theorem length_lt (h : Remains as bs) : as.length < bs.length := by
  obtain ⟨c, cs, rfl, h⟩ := h
  exact Nat.lt_succ_of_le h.length_le

theorem suffix_trans (h : as <:+ bs) (h' : Remains bs cs) : Remains as cs := by
  obtain ⟨c, ds, rfl, h'⟩ := h'
  exact cons (h.trans h')

theorem trans_suffix (h : Remains as bs) (h' : bs <:+ cs) : Remains as cs := by
  obtain ⟨c, ds, rfl, h⟩ := h
  cases cs with
  | nil => simp at h'
  | cons e es =>
    refine cons ?_
    rcases List.suffix_cons_iff.1 h' with heq | h'
    · obtain ⟨rfl, rfl⟩ := List.cons.inj heq
      exact h
    · exact (h.trans (List.suffix_cons c ds)).trans h'

theorem trans (h : Remains as bs) (h' : Remains bs cs) : Remains as cs :=
  suffix_trans h.isSuffix h'

end Remains

end EbnfTables.Text
