import EbnfTables.Proofs.Offsets.Cursor

/-!
# Blanks and comments are skipped exactly

`Blanks` allows a comment to stop anywhere on its line.  Here each comment goes to the end of its
line, and then there is only one way to skip.

* `BlankRow s w rest`: `w` is a row of blanks and such comments, in front of `rest`;
* `Halts s rest`: `rest` starts with neither a blank nor a comment.

One round of the repetition that skips blanks takes such a row (`BlankRow.of_blankOrComment?`), and
there is no further round exactly where skipping halts (`halts_iff`); from this, by induction on the
rounds, all that is skipped is such a row and skipping stops where it halts (`exists_blankRow`).  On
the other hand a row makes no difference to what is left behind it (`BlankRow.skip_append`).

Main theorem: `skip_exact`.
-/

namespace EbnfTables

open Offsets

variable {s : Spacing} {c : Char} {cs w w' mid rest : List Char}

/-- The blanks of a spacing. -/
def Spacing.Separates (s : Spacing) (c : Char) : Prop :=
  c = ' ' ∨ c = '\t' ∨ s = .anyLine ∧ (c = '\r' ∨ c = '\n')

/-- `w` is a row of blanks and comments in front of `rest`, and each comment goes up to a line break
or to the end of the text. -/
inductive BlankRow (s : Spacing) : List Char → List Char → Prop
  | nil {rest : List Char} : BlankRow s [] rest
  | blank {c : Char} {w rest : List Char} (hc : s.Separates c) (hw : BlankRow s w rest) :
      BlankRow s (c :: w) rest
  | comment {u w rest : List Char} (hu : ∀ c ∈ u, c ≠ '\r' ∧ c ≠ '\n')
      (hend : ∀ c ∈ (w ++ rest).head?, c = '\r' ∨ c = '\n') (hw : BlankRow s w rest) :
      BlankRow s ('#' :: (u ++ w)) rest

/-- There is nothing to skip. -/
def Halts (s : Spacing) (rest : List Char) : Prop :=
  ∀ c ∈ rest.head?, ¬ s.Separates c ∧ c ≠ '#'

theorem Spacing.isBlank_iff : s.isBlank c = true ↔ s.Separates c := by
  cases s <;> simp [isBlank, Separates, isLineBreak, or_assoc]

theorem isLineBreak_iff : isLineBreak c = true ↔ c = '\r' ∨ c = '\n' := by
  simp [isLineBreak]

theorem isLineBreak_eq_false_iff : isLineBreak c = false ↔ c ≠ '\r' ∧ c ≠ '\n' := by
  simp [isLineBreak]

theorem halts_iff : Halts s rest ↔ ∀ c ∈ rest.head?, s.isBlank c = false ∧ c ≠ '#' := by
  simp only [Halts, ← Spacing.isBlank_iff, Bool.not_eq_true]

/-! ### Rows -/

namespace BlankRow

theorem of_forall (hw : ∀ c ∈ w, s.Separates c) : BlankRow s w rest := by
  induction w with
  | nil => exact .nil
  | cons c w ih =>
    rw [List.forall_mem_cons] at hw
    exact .blank hw.1 (ih hw.2)

theorem append (h : BlankRow s w mid) (hmid : mid = w' ++ rest) (h' : BlankRow s w' rest) :
    BlankRow s (w ++ w') rest := by
  induction h with
  | nil => exact h'
  | blank hc _ ih => exact .blank hc (ih hmid)
  | @comment u w mid hu hend _ ih =>
    rw [List.cons_append, List.append_assoc]
    refine .comment hu ?_ (ih hmid)
    rwa [List.append_assoc, ← hmid]

/-- Where line breaks are blanks, all other blanks are blanks as well. -/
theorem anyLine (h : BlankRow s w rest) : BlankRow .anyLine w rest := by
  induction h with
  | nil => exact .nil
  | blank hc _ ih => exact .blank (hc.imp_right (Or.imp_right fun hbreak => ⟨rfl, hbreak.2⟩)) ih
  | comment hu hend _ ih => exact .comment hu hend ih

/-- What is left behind a row is what is left behind the text after it. -/
theorem skip_append (h : BlankRow s w rest) : s.skip (w ++ rest) = s.skip rest := by
  induction h with
  | nil => rfl
  | @blank c w rest hc _ ih =>
    rw [List.cons_append, ← ih, Spacing.skip, Spacing.skipFrom, if_pos (Spacing.isBlank_iff.2 hc)]
    rfl
  | @comment u w rest hu hend _ ih =>
    have hdrop : (u ++ (w ++ rest)).dropWhile (fun d => !isLineBreak d) = w ++ rest := by
      refine (takeWhile_dropWhile_append (fun d hd => ?_) fun d ds hds => ?_).2
      · rw [isLineBreak_eq_false_iff.2 (hu d hd)]
        rfl
      · rw [isLineBreak_iff.2 (hend d (by rw [hds]; rfl))]
        rfl
    rw [List.cons_append, List.append_assoc, ← skip_dropWhile_comment, hdrop, ih]

end BlankRow

/-! ### Rounds -/

/-- One round takes a row. -/
theorem BlankRow.of_blankOrComment? (h : blankOrComment? s cs = some rest) :
    ∃ w, cs = w ++ rest ∧ BlankRow s w rest := by
  rcases blankOrComment?_cases h with ⟨c, behind, rfl, hc, rfl⟩ | ⟨behind, rfl, rfl⟩
  · refine ⟨c :: behind.takeWhile s.isBlank, ?_, .blank (Spacing.isBlank_iff.1 hc) (.of_forall ?_)⟩
    · rw [List.cons_append, List.takeWhile_append_dropWhile]
    · exact fun d hd => Spacing.isBlank_iff.1 (List.mem_takeWhile_imp hd)
  · refine ⟨'#' :: ((behind.takeWhile fun d => !isLineBreak d) ++ []), ?_, .comment ?_ ?_ .nil⟩
    · rw [List.append_nil, List.cons_append, List.takeWhile_append_dropWhile]
    · intro d hd
      have hd' := List.mem_takeWhile_imp hd
      rwa [Bool.not_eq_true', isLineBreak_eq_false_iff] at hd'
    · intro d hd
      rw [List.nil_append] at hd
      have hhead := List.head?_dropWhile_not (fun d => !isLineBreak d) behind
      rw [hd] at hhead
      have hd' : (!isLineBreak d) = false := hhead
      rwa [Bool.not_eq_false', isLineBreak_iff] at hd'

/-- All rounds together take a row, and they stop where there is nothing to skip. -/
theorem exists_blankRow (h : many0 (blankOrComment? s) cs = some rest) :
    (∃ w, cs = w ++ rest ∧ BlankRow s w rest) ∧ Halts s rest := by
  fun_induction many0 (blankOrComment? s) cs with
  | case1 cs hnone =>
    cases h
    exact ⟨⟨[], rfl, .nil⟩, halts_iff.2 (blankOrComment?_eq_none_iff.1 hnone)⟩
  | case2 cs mid hsome _ ih =>
    obtain ⟨⟨w', rfl, hw'⟩, hhalts⟩ := ih h
    obtain ⟨w, rfl, hw⟩ := BlankRow.of_blankOrComment? hsome
    exact ⟨⟨w ++ w', (List.append_assoc ..).symm, hw.append rfl hw'⟩, hhalts⟩
  | case3 => cases h

/-- **Blanks and comments are skipped exactly.**  What is left is the one end part of the text that
starts with neither a blank nor a comment and has a row of blanks and comments before it, each
comment taken to the end of its line.  The repetition finds it, and never falls back to where it
began.  Skipping again leaves everything in place, and it makes no difference to skipping over line
breaks if blanks of the line were skipped before. -/
theorem skip_exact (s : Spacing) (text : List Char) :
    many0 (blankOrComment? s) text = some (s.skip text) ∧
    (∀ rest, s.skip text = rest ↔
      ∃ w, text = w ++ rest ∧ BlankRow s w rest ∧ Halts s rest) ∧
    s.skip (s.skip text) = s.skip text ∧
    Spacing.anyLine.skip (Spacing.sameLine.skip text) = Spacing.anyLine.skip text := by
  have hrow (s : Spacing) (text : List Char) := exists_blankRow (many0_blankOrComment? s text)
  have hfixed {rest : List Char} (hhalts : Halts s rest) : s.skip rest = rest :=
    s.skip_eq_self (halts_iff.1 hhalts)
  refine ⟨many0_blankOrComment? s text, fun rest => ⟨?_, ?_⟩, hfixed (hrow s text).2, ?_⟩
  · rintro rfl
    obtain ⟨⟨w, htext, hw⟩, hhalts⟩ := hrow s text
    exact ⟨w, htext, hw, hhalts⟩
  · rintro ⟨w, rfl, hw, hhalts⟩
    rw [hw.skip_append, hfixed hhalts]
  · obtain ⟨⟨w, htext, hw⟩, -⟩ := hrow .sameLine text
    rw [← hw.anyLine.skip_append, ← htext]

/-- A comment that ends at a carriage return, with a line feed and another comment behind it. -/
example : Spacing.sameLine.skip "\t# a # b\r\n #\nc".toList = "\r\n #\nc".toList ∧
    Spacing.anyLine.skip "\t# a # b\r\n #\nc".toList = "c".toList := by decide

end EbnfTables
