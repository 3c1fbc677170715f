import EbnfTables.Proofs.Source.Nesting

/-!
# How much text is needed for what was read

Every id that a reading may need is paid for by a character of its own, also if the text is refused
and a definition was only begun: `read_idCount_le`.  So the ids suffice for every compilation of a
text that is short enough, whether it succeeds or not.
-/

namespace EbnfTables

variable {limit : ℕ}

/-- The number of ids that alternations that were begun may need.  All but the outermost of them
belong to groups. -/
def openIdCount (frames : List Frame) : ℕ :=
  (frames.map fun f => f.body.idCount).sum + (frames.length - 1)

@[simp] theorem openIdCount_reverse (frames : List Frame) :
    openIdCount frames.reverse = openIdCount frames := by
  simp [openIdCount, List.sum_reverse]

/-- The number of ids that a definition that was begun may need. -/
def OpenDefinition.idCount (d : OpenDefinition) : ℕ := openIdCount d.frames + 1

/-- The number of ids that may be needed for what was begun before a text was refused. -/
def Refusal.idCount (refusal : Refusal) : ℕ := (refusal.begun.map OpenDefinition.idCount).getD 0

/-- The number of ids that a reading may need. -/
def Reading.idCount (r : Reading) : ℕ :=
  EbnfTables.idCount r.definitions + (r.refusal.map Refusal.idCount).getD 0

theorem Opened.openIdCount_add_length_le {right rest : List Char} {depth : ℕ} {f : Frame}
    {outer : List Frame} (h : Opened limit right depth f outer rest) :
    openIdCount (f :: outer) + rest.length ≤ right.length := by
  induction h with
  | definition hsite hf =>
    have hlen := hf.idCount_add_length_le
    rw [hsite] at hlen
    simpa [openIdCount] using hlen
  | @group depth f g outer mid rest _ hskip hf ih =>
    have hlen := hf.idCount_add_length_le
    have hmid := Spacing.length_skips_le hskip
    simp only [openIdCount, List.map_cons, List.sum_cons, List.length_cons] at ih ⊢
    omega

theorem openIdCount_le_of_readAlternatives {right : List Char} {i : Interruption}
    (h : readAlternatives limit right = .error i) : openIdCount i.frames ≤ right.length := by
  obtain ⟨c, depth, hopened, -, hframes⟩ := exists_opened_of_readAlternatives_eq_error h
  have hlen := hopened.openIdCount_add_length_le
  rw [hframes]
  omega

theorem Refusal.idCount_le {cs : List Char} {refusal : Refusal}
    (h : readDefinition limit cs = .error refusal) : refusal.idCount ≤ cs.length := by
  unfold readDefinition at h
  split at h
  · cases h
    exact Nat.zero_le _
  · rename_i name mid hname
    have hmid := (readName?_remains hname).length_lt
    have hskip := (Spacing.sameLine.skip_suffix mid).length_le
    simp only at h
    split at h
    · cases h
      show 0 + 1 ≤ cs.length
      omega
    · rename_i mark hmark
      rw [Text.after?_eq_some_iff.1 hmark, List.length_append] at hskip
      split at h
      · rename_i fault frames finished hread
        cases h
        have hframes : openIdCount frames ≤ _ := openIdCount_le_of_readAlternatives hread
        have hright := (Spacing.anyLine.skip_suffix mark).length_le
        show openIdCount frames + 1 ≤ cs.length
        omega
      · cases h

theorem readDefinitions_idCount_le (limit : ℕ) (cs : List Char) :
    (readDefinitions limit cs).idCount ≤ cs.length := by
  fun_induction readDefinitions limit cs with
  | case1 => exact Nat.zero_le _
  | case2 c cs refusal hread =>
    show 0 + refusal.idCount ≤ (c :: cs).length
    have := Refusal.idCount_le hread
    omega
  | case3 c cs d rest hread more ih =>
    have hd := (readDefinition_eq_ok_iff.1 hread).idCount_add_length_le
    simp only [Reading.idCount, more, idCount_cons] at ih ⊢
    omega

/-- A reading needs no more ids than there are characters. -/
theorem read_idCount_le (limit : ℕ) (text : List Char) :
    (read limit text).idCount ≤ text.length :=
  (readDefinitions_idCount_le _ _).trans (Spacing.anyLine.skip_suffix text).length_le

end EbnfTables
