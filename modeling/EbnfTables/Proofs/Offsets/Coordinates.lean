import EbnfTables.Proofs.Offsets.Cursor
import Mathlib.Data.List.Induction
import Mathlib.Data.Prod.Lex

/-!
# Lines and columns as coordinates

Line and column of a place are found by three scans of the text before it: the line feeds are
counted, the last of them is looked for from behind, and the characters behind it are counted.  That
the three fit together is seen from one boundary to the next.

* An offset is the length of some first part of the text, or it is inside a character
  (`exists_byteLength_eq_or_isInside`); there is a position in the first case and none in the second
  (`Position.locate?_eq_none_iff`);
* `Position.next` moves over one character, and so does the place behind a text that gets one
  character longer (`Position.after_concat`);
* a move over one character makes the coordinates larger (`Position.coordinates_lt_next`), and hence
  a move over any characters does (`Position.coordinates_after_lt`).

Main theorem: `locate?_coordinates`.
-/

namespace EbnfTables

open Text

variable {text before rest : List Char} {c : Char} {n : ℕ}

/-! ### Boundaries -/

/-- The offset divides the bytes of a character. -/
def IsInside (text : List Char) (offset : ℕ) : Prop :=
  ∃ before c rest, text = before ++ c :: rest ∧
    byteLength before < offset ∧ offset < byteLength before + c.utf8Size

theorem exists_byteLength_eq_or_isInside (h : n ≤ byteLength text) :
    (∃ before rest, text = before ++ rest ∧ byteLength before = n) ∨ IsInside text n := by
  induction text generalizing n with
  | nil => exact .inl ⟨[], [], rfl, (Nat.le_zero.1 h).symm⟩
  | cons c cs ih =>
    rw [byteLength_cons] at h
    rcases Nat.eq_zero_or_pos n with rfl | hpos
    · exact .inl ⟨[], c :: cs, rfl, rfl⟩
    · rcases Nat.lt_or_ge n c.utf8Size with hlt | hge
      · exact .inr ⟨[], c, cs, rfl, hpos, by rwa [byteLength_nil, Nat.zero_add]⟩
      · rcases ih (n := n - c.utf8Size) (by omega) with
          ⟨before, rest, rfl, hlen⟩ | ⟨before, d, rest, rfl, hlow, hhigh⟩
        · exact .inl ⟨c :: before, rest, rfl, by rw [byteLength_cons]; omega⟩
        · refine .inr ⟨c :: before, d, rest, rfl, ?_, ?_⟩ <;> rw [byteLength_cons] <;> omega

theorem takeBytes?_eq_none (h : IsInside text n) : takeBytes? n text = none := by
  obtain ⟨before, d, rest, rfl, hlow, hhigh⟩ := h
  induction before generalizing n with
  | nil =>
    obtain ⟨m, rfl⟩ := Nat.exists_eq_succ_of_ne_zero hlow.ne'
    rw [byteLength_nil, Nat.zero_add] at hhigh
    rw [List.nil_append, takeBytes?, if_neg (Nat.not_le.2 hhigh)]
  | cons c before ih =>
    rw [byteLength_cons] at hlow hhigh
    obtain ⟨m, rfl⟩ := Nat.exists_eq_succ_of_ne_zero (show n ≠ 0 by omega)
    rw [List.cons_append, takeBytes?, if_pos (by omega), ih (by omega) (by omega), Option.map_none]

/-- Behind the end of the text, all of it is taken. -/
theorem takeBytes?_of_le (h : byteLength text ≤ n) : takeBytes? n text = some text := by
  induction text generalizing n with
  | nil => cases n <;> rfl
  | cons c cs ih =>
    rw [byteLength_cons] at h
    have hpos := c.utf8Size_pos
    obtain ⟨m, rfl⟩ := Nat.exists_eq_succ_of_ne_zero (show n ≠ 0 by omega)
    rw [takeBytes?, if_pos (by omega), ih (by omega), Option.map_some]

theorem takeBytes?_min (n : ℕ) (text : List Char) :
    takeBytes? (min n (byteLength text)) text = takeBytes? n text := by
  rcases le_total n (byteLength text) with hle | hge
  · rw [min_eq_left hle]
  · rw [min_eq_right hge, takeBytes?_of_le le_rfl, takeBytes?_of_le hge]

namespace Position

theorem locate?_min (text : List Char) (offset : ℕ) :
    locate? text (min offset (byteLength text)) = locate? text offset := by
  rw [locate?, locate?, takeBytes?_min]

theorem locate?_append (before rest : List Char) :
    locate? (before ++ rest) (byteLength before) = some (after before) := by
  rw [locate?, Offsets.takeBytes?_append, Option.map_some]

theorem locate?_eq_none (h : IsInside text n) : locate? text n = none := by
  rw [locate?, takeBytes?_eq_none h, Option.map_none]

/-- A position is that of a first part of the text, and its offset is clamped. -/
theorem exists_of_locate?_eq_some {offset : ℕ} {p : Position} (h : locate? text offset = some p) :
    ∃ before rest, text = before ++ rest ∧ byteLength before = min offset (byteLength text) ∧
      p = after before := by
  rw [← locate?_min] at h
  rcases exists_byteLength_eq_or_isInside (min_le_right offset (byteLength text)) with
    ⟨before, rest, htext, hlen⟩ | hinside
  · refine ⟨before, rest, htext, hlen, ?_⟩
    rw [← hlen, htext, locate?_append] at h
    exact (Option.some.inj h).symm
  · rw [locate?_eq_none hinside] at h
    cases h

/-- There is no position exactly inside a character. -/
theorem locate?_eq_none_iff (text : List Char) (offset : ℕ) :
    locate? text offset = none ↔ IsInside text (min offset (byteLength text)) := by
  rw [← locate?_min]
  refine ⟨fun h => ?_, locate?_eq_none⟩
  rcases exists_byteLength_eq_or_isInside (min_le_right offset (byteLength text)) with
    ⟨before, rest, htext, hlen⟩ | hinside
  · rw [← hlen, htext, locate?_append] at h
    cases h
  · exact hinside

end Position

/-- The scans with all their cuts find the same as counting the text before the offset. -/
theorem Offsets.toOption_locate (text : List Char) (offset : ℕ) :
    (locate text offset).toOption = Position.locate? text offset := by
  have hclamp : locate text (min offset (byteLength text)) = locate text offset := by
    rw [locate, locate, min_assoc, min_self]
  rw [← hclamp, ← Position.locate?_min]
  rcases exists_byteLength_eq_or_isInside (min_le_right offset (byteLength text)) with
    ⟨before, rest, htext, hlen⟩ | hinside
  · have hplace : place text rest = byteLength before := by rw [htext, place_append]
    have hrest : rest <:+ text := ⟨before, htext.symm⟩
    rw [← hlen, ← hplace, locate_place hrest, hplace, htext, Position.locate?_append,
      Position.ofRest_append]
    rfl
  · have hslice : sliceTo text (min offset (byteLength text)) =
        .error (.slice (min offset (byteLength text))) := by
      rw [sliceTo, if_pos (min_le_right _ _), takeBytes?_eq_none hinside]
    rw [Position.locate?_eq_none hinside, locate, min_assoc, min_self, hslice]
    rfl

namespace Position

/-! ### Moves over characters -/

/-- The place behind one more character. -/
def next (p : Position) (c : Char) : Position :=
  if c = '\n' then ⟨p.offset + c.utf8Size, p.line + 1, 1⟩
  else ⟨p.offset + c.utf8Size, p.line, p.column + 1⟩

/-- Line and column, the line first. -/
def coordinates (p : Position) : ℕ ×ₗ ℕ := toLex (p.line, p.column)

theorem after_concat (before : List Char) (c : Char) :
    after (before ++ [c]) = (after before).next c := by
  unfold after next
  rw [List.reverse_concat, byteLength_append, byteLength_cons, byteLength_nil, Nat.add_zero,
    List.count_append, List.count_singleton]
  by_cases hc : c = '\n'
  · subst hc
    rw [if_pos rfl, List.takeWhile_cons_of_neg (by decide)]
    rfl
  · rw [if_neg hc, List.takeWhile_cons_of_pos (by simpa using hc)]
    simp [hc]

theorem coordinates_lt_next (p : Position) (c : Char) : p.coordinates < (p.next c).coordinates := by
  unfold next coordinates
  rw [Prod.Lex.toLex_lt_toLex]
  split_ifs
  · exact .inl p.line.lt_succ_self
  · exact .inr ⟨rfl, p.column.lt_succ_self⟩

theorem coordinates_after_lt {between : List Char} (hne : between ≠ []) (before : List Char) :
    (after before).coordinates < (after (before ++ between)).coordinates := by
  induction between using List.reverseRecOn with
  | nil => exact absurd rfl hne
  | append_singleton between c ih =>
    rw [← List.append_assoc, after_concat]
    have hlast := (after (before ++ between)).coordinates_lt_next c
    rcases eq_or_ne between [] with rfl | hbetween
    · rwa [List.append_nil] at hlast ⊢
    · exact (ih hbetween).trans hlast

/-- Of two boundaries the one with the smaller offset has the smaller coordinates. -/
theorem coordinates_lt_of_offset_lt {offset offset' : ℕ} {p p' : Position}
    (h : locate? text offset = some p) (h' : locate? text offset' = some p')
    (hlt : p.offset < p'.offset) : p.coordinates < p'.coordinates := by
  obtain ⟨before, rest, htext, -, rfl⟩ := exists_of_locate?_eq_some h
  obtain ⟨before', rest', htext', -, rfl⟩ := exists_of_locate?_eq_some h'
  have hlt' : byteLength before < byteLength before' := hlt
  -- both are first parts of one text, and the second is the longer one
  rcases List.prefix_or_prefix_of_prefix ⟨rest, htext.symm⟩ ⟨rest', htext'.symm⟩ with
    ⟨between, rfl⟩ | ⟨between, rfl⟩
  · refine coordinates_after_lt (fun hnil => ?_) before
    rw [hnil, List.append_nil] at hlt'
    exact hlt'.false
  · rw [byteLength_append] at hlt'
    omega

end Position

/-- **Line and column are faithful coordinates.**  An offset behind the end stands for the end, and
there is a position unless the offset is inside a character.  The position at the start is line 1,
column 1, and the one behind a character is the next one: it starts a new line behind a line feed,
and is one column further behind any other character.  So the coordinates increase along the
boundaries, and no two boundaries share them.  All this is what the three scans of the text find. -/
theorem locate?_coordinates (text : List Char) :
    (∀ offset, (Offsets.locate text offset).toOption = Position.locate? text offset) ∧
    (∀ offset, Position.locate? text offset =
      Position.locate? text (min offset (byteLength text))) ∧
    (∀ offset p, Position.locate? text offset = some p →
      p.offset = min offset (byteLength text)) ∧
    (∀ offset, Position.locate? text offset = none ↔
      IsInside text (min offset (byteLength text))) ∧
    Position.locate? text 0 = some ⟨0, 1, 1⟩ ∧
    (∀ before c rest, text = before ++ c :: rest → ∃ p,
      Position.locate? text (byteLength before) = some p ∧
      Position.locate? text (byteLength before + c.utf8Size) = some (p.next c)) ∧
    ∀ offset offset' p p', Position.locate? text offset = some p →
      Position.locate? text offset' = some p' →
      (p.offset < p'.offset → p.coordinates < p'.coordinates) ∧
      (p.line = p'.line → p.column = p'.column → p.offset = p'.offset) := by
  refine ⟨Offsets.toOption_locate text, fun offset => (Position.locate?_min text offset).symm, ?_,
    Position.locate?_eq_none_iff text, ?_, ?_, ?_⟩
  · intro offset p h
    obtain ⟨before, rest, -, hlen, rfl⟩ := Position.exists_of_locate?_eq_some h
    exact hlen
  · exact Position.locate?_append [] text
  · rintro before c rest rfl
    refine ⟨.after before, Position.locate?_append before _, ?_⟩
    have hlen : byteLength before + c.utf8Size = byteLength (before ++ [c]) := by
      rw [byteLength_append, byteLength_cons, byteLength_nil, Nat.add_zero]
    rw [hlen, List.append_cons, Position.locate?_append, Position.after_concat]
  · intro offset offset' p p' h h'
    refine ⟨Position.coordinates_lt_of_offset_lt h h', fun hline hcolumn => ?_⟩
    have heq : p.coordinates = p'.coordinates := congrArg₂ (fun l c => toLex (l, c)) hline hcolumn
    rcases Nat.lt_trichotomy p.offset p'.offset with hlt | hoffset | hlt
    · exact absurd heq (Position.coordinates_lt_of_offset_lt h h' hlt).ne
    · exact hoffset
    · exact absurd heq (Position.coordinates_lt_of_offset_lt h' h hlt).ne'

/-- In front of the line feed and behind it, inside a character, and behind the end. -/
theorem locate?_coordinates_two_lines :
    Position.locate? "é\nü d".toList 2 = some ⟨2, 1, 2⟩ ∧
    Position.locate? "é\nü d".toList 3 = some ⟨3, 2, 1⟩ ∧
    Position.locate? "é\nü d".toList 4 = none ∧ IsInside "é\nü d".toList 4 ∧
    Position.locate? "é\nü d".toList 9 = some ⟨7, 2, 4⟩ ∧
    (⟨2, 1, 2⟩ : Position).coordinates < (⟨7, 2, 4⟩ : Position).coordinates := by
  obtain ⟨-, -, -, hnone, -, hnext, hcoordinates⟩ := locate?_coordinates "é\nü d".toList
  have hbreak : Position.locate? "é\nü d".toList 2 = some ⟨2, 1, 2⟩ := by decide
  have hend : Position.locate? "é\nü d".toList 9 = some ⟨7, 2, 4⟩ := by decide
  have hinside : Position.locate? "é\nü d".toList 4 = none := by decide
  obtain ⟨p, hp, hp'⟩ := hnext ['é'] '\n' "ü d".toList rfl
  cases hbreak.symm.trans hp
  exact ⟨hp, hp', hinside, (hnone 4).1 hinside, hend,
    (hcoordinates 2 9 _ _ hp hend).1 (by decide)⟩

end EbnfTables
