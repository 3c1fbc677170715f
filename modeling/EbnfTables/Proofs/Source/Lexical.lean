import EbnfTables.Source.Alternatives
import Mathlib.Data.List.TakeWhile

/-!
# The lexical grammar of sources

The smallest parts of a source, described by what they look like and not by how they are read.
Each description relates a text to what is left of it.

* `Blanks s w` says that `w` is a row of blanks and comments, and `Skips s text rest` that `rest`
  follows the longest such row at the start of `text`;
* `NameText name text rest` says that `text` starts with `name`, taken as long as possible;
* `LiteralText` describes what follows the opening quote of a literal, and `ClassText` what follows
  the opening bracket of a class;
* `LineEnd` describes a line break.

Every reader reads exactly what its description says: `skip_eq_iff`, `readName?_eq_some_iff`,
`readLiteral_eq_ok_iff`, `readClass_eq_ok_iff`, `readLineEnd?_skip_iff`.
-/

namespace EbnfTables

/-! ### Blanks -/

/-- A row of blanks and comments.  A comment stays on its line. -/
inductive Blanks (s : Spacing) : List Char → Prop
  | nil : Blanks s []
  | blank {c : Char} {w : List Char} (hc : s.isBlank c) (hw : Blanks s w) : Blanks s (c :: w)
  | comment {u w : List Char} (hu : ∀ c ∈ u, isLineBreak c = false) (hw : Blanks s w) :
      Blanks s ('#' :: (u ++ w))

/-- `rest` follows the longest row of blanks and comments at the start of `text`. -/
structure Skips (s : Spacing) (text rest : List Char) : Prop where
  row : ∃ w, Blanks s w ∧ text = w ++ rest
  longest : ∀ w rest', Blanks s w → text = w ++ rest' → rest.length ≤ rest'.length

namespace Spacing

variable {s : Spacing}

@[simp] theorem isBlank_hash (s : Spacing) : s.isBlank '#' = false := by
  cases s <;> rfl

theorem isLineBreak_of_isBlank_anyLine {c : Char} (h : isLineBreak c) : anyLine.isBlank c := by
  simp [isBlank, h]

/-- What is skipped is the rest `u` of the comment at hand, and a row of blanks and comments. -/
theorem skipFrom_eq_append (s : Spacing) (inComment : Bool) (cs : List Char) :
    ∃ u w, (inComment = false → u = []) ∧ (∀ c ∈ u, isLineBreak c = false) ∧ Blanks s w ∧
      cs = u ++ (w ++ s.skipFrom inComment cs) := by
  fun_induction skipFrom s inComment cs with
  | case1 => exact ⟨[], [], fun _ => rfl, by simp, .nil, rfl⟩
  | case2 c cs hc ih =>
    obtain ⟨u, w, hu, -, hw, heq⟩ := ih
    cases hu rfl
    exact ⟨[], c :: w, fun _ => rfl, by simp, .blank hc hw, by simpa using heq⟩
  | case3 cs _ ih =>
    obtain ⟨u, w, -, hu, hw, heq⟩ := ih
    exact ⟨[], '#' :: (u ++ w), fun _ => rfl, by simp, .comment hu hw, by simpa using heq⟩
  | case4 c cs _ _ => exact ⟨[], [], fun _ => rfl, by simp, .nil, rfl⟩
  | case5 c cs _ hc ih =>
    obtain ⟨u, w, hu, -, hw, heq⟩ := ih
    cases hu rfl
    exact ⟨[], c :: w, by simp, by simp, .blank hc hw, by simpa using heq⟩
  | case6 c cs _ _ => exact ⟨[], [], by simp, by simp, .nil, rfl⟩
  | case7 c cs hc ih =>
    obtain ⟨u, w, -, hu, hw, heq⟩ := ih
    refine ⟨c :: u, w, by simp, ?_, hw, by simpa using heq⟩
    intro d hd
    rcases List.mem_cons.1 hd with rfl | hd
    · simpa using hc
    · exact hu d hd

/-- Starting inside a comment skips at least as much. -/
theorem skipFrom_true_suffix (s : Spacing) (cs : List Char) :
    s.skipFrom true cs <:+ s.skipFrom false cs := by
  induction cs with
  | nil => exact List.suffix_rfl
  | cons c cs ih =>
    by_cases hblank : s.isBlank c
    · by_cases hbreak : isLineBreak c
      · simp [skipFrom, hblank, hbreak]
      · simpa [skipFrom, hblank, hbreak] using ih
    · by_cases hhash : c = '#'
      · subst hhash
        simp [skipFrom, isLineBreak]
      · rw [show s.skipFrom false (c :: cs) = c :: cs by simp [skipFrom, hblank, hhash]]
        exact s.skipFrom_suffix true _

theorem skipFrom_true_append {u : List Char} (hu : ∀ c ∈ u, isLineBreak c = false)
    (s : Spacing) (cs : List Char) : s.skipFrom true (u ++ cs) = s.skipFrom true cs := by
  induction u with
  | nil => rfl
  | cons c u ih =>
    rw [List.forall_mem_cons] at hu
    simp only [List.cons_append, skipFrom, hu.1, Bool.false_eq_true, if_false]
    exact ih hu.2

/-- Any row of blanks and comments at the start of a text is skipped. -/
theorem skip_append_suffix {w : List Char} (hw : Blanks s w) (cs : List Char) :
    s.skip (w ++ cs) <:+ cs := by
  induction hw with
  | nil => exact s.skip_suffix cs
  | blank hc _ ih => simpa [skip, skipFrom, hc] using ih
  | @comment u w hu _ ih =>
    have h : s.skip ('#' :: (u ++ w) ++ cs) = s.skipFrom true (w ++ cs) := by
      rw [skip, List.cons_append, List.append_assoc]
      simp only [skipFrom, isBlank_hash, Bool.false_eq_true, if_false, if_true]
      exact skipFrom_true_append hu s _
    rw [h]
    exact (s.skipFrom_true_suffix _).trans ih

theorem skips_skip (s : Spacing) (text : List Char) : Skips s text (s.skip text) := by
  constructor
  · obtain ⟨u, w, hu, -, hw, heq⟩ := s.skipFrom_eq_append false text
    cases hu rfl
    exact ⟨w, hw, heq⟩
  · rintro w rest hw rfl
    exact (skip_append_suffix hw rest).length_le

/-- Skipping leaves what follows the longest row of blanks and comments. -/
theorem skip_eq_iff {text rest : List Char} : s.skip text = rest ↔ Skips s text rest := by
  constructor
  · rintro rfl
    exact s.skips_skip text
  · rintro ⟨⟨w, hw, rfl⟩, hlongest⟩
    have hsuffix := skip_append_suffix hw rest
    obtain ⟨w', hw', heq⟩ := (s.skips_skip (w ++ rest)).row
    exact hsuffix.eq_of_length (le_antisymm hsuffix.length_le (hlongest w' _ hw' heq))

/-- Where there is neither a blank nor a comment, nothing is skipped. -/
theorem skip_eq_self (s : Spacing) {cs : List Char}
    (h : ∀ c ∈ cs.head?, s.isBlank c = false ∧ c ≠ '#') : s.skip cs = cs := by
  cases cs with
  | nil => rfl
  | cons c cs =>
    obtain ⟨hblank, hhash⟩ := h c rfl
    simp [skip, skipFrom, hblank, hhash]

/-- Line breaks do not matter where they are blanks. -/
theorem skip_anyLine_cons_of_isLineBreak {c : Char} (h : isLineBreak c) (cs : List Char) :
    anyLine.skip (c :: cs) = anyLine.skip cs := by
  simp [skip, skipFrom, isLineBreak_of_isBlank_anyLine h]

end Spacing

/-- A character that is neither a blank nor the start of a comment. -/
def IsVisible (c : Char) : Prop := Spacing.anyLine.isBlank c = false ∧ c ≠ '#'

instance (c : Char) : Decidable (IsVisible c) :=
  inferInstanceAs (Decidable (Spacing.anyLine.isBlank c = false ∧ c ≠ '#'))

theorem Spacing.isBlank_anyLine_of_isBlank {s : Spacing} {c : Char} (h : s.isBlank c) :
    anyLine.isBlank c := by
  cases s with
  | sameLine =>
    have hc : (c == ' ' || c == '\t') = true := h
    show (c == ' ' || c == '\t' || isLineBreak c) = true
    rw [hc, Bool.true_or]
  | anyLine => exact h

theorem Spacing.skip_of_isVisible (s : Spacing) {c : Char} (h : IsVisible c) (cs : List Char) :
    s.skip (c :: cs) = c :: cs := by
  have hblank : s.isBlank c = false := by
    by_contra hc
    rw [Bool.not_eq_false] at hc
    have := isBlank_anyLine_of_isBlank hc
    rw [h.1] at this
    cases this
  refine s.skip_eq_self fun d hd => ?_
  cases hd
  exact ⟨hblank, h.2⟩

theorem Spacing.skip_space (s : Spacing) (cs : List Char) : s.skip (' ' :: cs) = s.skip cs := by
  cases s <;> rfl

/-! ### Names -/

/-- The longest row of characters of a kind ends where another character stands. -/
theorem takeWhile_dropWhile_append {p : Char → Bool} {row rest : List Char} (hrow : ∀ c ∈ row, p c)
    (hrest : ∀ c cs, rest = c :: cs → p c = false) :
    (row ++ rest).takeWhile p = row ∧ (row ++ rest).dropWhile p = rest := by
  rw [List.takeWhile_append_of_pos hrow, List.dropWhile_append_of_pos hrow]
  cases rest with
  | nil => simp
  | cons c cs => simp [hrest c cs rfl]

/-- `text` starts with a name, taken as long as possible, and goes on with `rest`. -/
structure NameText (name : String) (text rest : List Char) : Prop where
  eq_append : text = name.toList ++ rest
  ne_nil : name.toList ≠ []
  isWordChar_of_mem : ∀ c ∈ name.toList, isWordChar c
  longest : ∀ c cs, rest = c :: cs → isWordChar c = false

theorem readName?_eq_some_iff {name : String} {text rest : List Char} :
    readName? text = some (name, rest) ↔ NameText name text rest := by
  constructor
  · intro h
    unfold readName? at h
    split at h
    · cases h
    · rename_i c word hword
      cases h
      refine ⟨?_, ?_, ?_, ?_⟩
      · rw [String.toList_ofList, ← hword, List.takeWhile_append_dropWhile]
      · simp
      · intro d hd
        rw [String.toList_ofList, ← hword] at hd
        exact List.mem_takeWhile_imp hd
      · intro d ds hd
        have := List.head?_dropWhile_not isWordChar text
        rw [hd] at this
        simpa using this
  · rintro ⟨rfl, hne, hword, hlongest⟩
    obtain ⟨c, word, hname⟩ := List.exists_cons_of_ne_nil hne
    obtain ⟨htake, hdrop⟩ := takeWhile_dropWhile_append hword hlongest
    unfold readName?
    rw [htake, hdrop, hname]
    simp only [← hname, String.ofList_toList]

/-- Whether a text starts with a name is told by its first character. -/
theorem readName?_cons_eq_none_iff {c : Char} {cs : List Char} :
    readName? (c :: cs) = none ↔ isWordChar c = false := by
  cases hc : isWordChar c <;> simp [readName?, hc]

theorem isVisible_of_isWordChar {c : Char} (h : isWordChar c) : IsVisible c := by
  constructor
  · by_contra hc
    simp only [Spacing.isBlank, isLineBreak, Bool.not_eq_false, Bool.or_eq_true, beq_iff_eq] at hc
    rcases hc with (rfl | rfl) | rfl | rfl <;> exact absurd h (by decide)
  · rintro rfl
    exact absurd h (by decide)

/-! ### Literals -/

/-- What follows the opening quote of a literal: its characters and the closing quote. -/
inductive LiteralText : List Char → List Char → List Char → Prop
  | close {rest : List Char} : LiteralText [] ('"' :: rest) rest
  | char {c : Char} {cs text mid rest : List Char} (hopen : text.head? ≠ some '"')
      (hc : readChar text = .ok (c, mid)) (hcs : LiteralText cs mid rest) :
      LiteralText (c :: cs) text rest

theorem readLiteral_of_readChar_eq_error {c : Char} {cs : List Char} {e : SyntaxError}
    (hc : c ≠ '"') (h : readChar (c :: cs) = .error e) (site : List Char) :
    readLiteral site (c :: cs) = .error ⟨e, c :: cs⟩ := by
  rw [readLiteral, if_neg hc]
  split
  · rename_i heq; rw [h] at heq; cases heq; rfl
  · rename_i heq; rw [h] at heq; cases heq

theorem readLiteral_of_readChar_eq_ok {c d : Char} {cs rest : List Char} (hc : c ≠ '"')
    (h : readChar (c :: cs) = .ok (d, rest)) (site : List Char) :
    readLiteral site (c :: cs) = (readLiteral site rest).map fun r => (d :: r.1, r.2) := by
  rw [readLiteral, if_neg hc]
  split
  · rename_i heq; rw [h] at heq; cases heq
  · rename_i heq
    rw [h] at heq
    cases heq
    cases readLiteral site rest <;> rfl

theorem readLiteral_eq_ok_iff {site text cs rest : List Char} :
    readLiteral site text = .ok (cs, rest) ↔ LiteralText cs text rest := by
  constructor
  · intro h
    fun_induction readLiteral site text generalizing cs rest with
    | case1 => cases h
    | case2 => cases h; exact .close
    | case3 => cases h
    | case4 => cases h
    | case5 c text' hc d mid hread ds rest' hrest ih =>
      cases h
      exact .char (by simpa using hc) hread (ih hrest)
  · intro h
    induction h with
    | close => rw [readLiteral]; simp
    | @char c cs text mid rest hopen hc _ ih =>
      cases text with
      | nil => simp [readChar] at hc
      | cons d text =>
        rw [readLiteral_of_readChar_eq_ok (by simpa using hopen) hc, ih]
        rfl

/-! ### Classes -/

/-- A member of a class.  Behind a single character, `-` makes a range unless the closing bracket
comes next. -/
inductive MemberText : Member → List Char → List Char → Prop
  | single {c : Char} {text rest : List Char} (hc : readChar text = .ok (c, rest))
      (hdash : ∀ after, rest = '-' :: after → after.head? = some ']') :
      MemberText (.single c) text rest
  | range {lower upper : Char} {text mid rest : List Char}
      (hlower : readChar text = .ok (lower, '-' :: mid)) (hmid : mid.head? ≠ some ']')
      (hupper : readChar mid = .ok (upper, rest)) : MemberText (.range lower upper) text rest

theorem memberText_of_readMember {m : Member} {text rest : List Char}
    (h : readMember text = .ok (m, rest)) : MemberText m text rest := by
  unfold readMember at h
  split at h
  · cases h
  · rename_i c mid hc
    split at h
    · cases h; exact .single hc (by simp)
    · rename_i d behind
      split at h
      · -- a dash is a range operator unless the closing bracket is behind it
        rename_i hdash
        subst hdash
        split at h
        · cases h
        · rename_i d' after
          split at h
          · rename_i hclose
            cases h
            exact .single hc (by simp [hclose])
          · rename_i hopen
            split at h
            · cases h
            · rename_i hupper
              cases h
              exact .range hc (by simpa using hopen) hupper
      · rename_i hdash
        cases h
        exact .single hc (by simp [hdash])

theorem MemberText.readMember_eq {m : Member} {text rest : List Char}
    (h : MemberText m text rest) : readMember text = .ok (m, rest) := by
  cases h with
  | single hc hdash =>
    unfold readMember
    rw [hc]
    cases rest with
    | nil => rfl
    | cons d behind =>
      by_cases hd : d = '-'
      · subst hd
        have hclose := hdash behind rfl
        cases behind with
        | nil => simp at hclose
        | cons e after =>
          obtain rfl : e = ']' := by simpa using hclose
          simp
      · simp [hd]
  | range hlower hmid hupper =>
    rename_i lower upper mid
    unfold readMember
    rw [hlower]
    cases mid with
    | nil => simp [readChar] at hupper
    | cons e after =>
      have he : e ≠ ']' := by simpa using hmid
      simp [he, hupper]

theorem readMember_eq_ok_iff {m : Member} {text rest : List Char} :
    readMember text = .ok (m, rest) ↔ MemberText m text rest :=
  ⟨memberText_of_readMember, MemberText.readMember_eq⟩

/-- The members of a class and its closing bracket. -/
inductive MembersText : List Member → List Char → List Char → Prop
  | close {rest : List Char} : MembersText [] (']' :: rest) rest
  | member {m : Member} {ms : List Member} {text mid rest : List Char}
      (hopen : text.head? ≠ some ']') (hm : MemberText m text mid)
      (hms : MembersText ms mid rest) : MembersText (m :: ms) text rest

theorem readMembers_of_readMember_eq_error {c : Char} {cs : List Char} {fault : Fault}
    (hc : c ≠ ']') (h : readMember (c :: cs) = .error fault) (site : List Char) :
    readMembers site (c :: cs) = .error fault := by
  rw [readMembers, if_neg hc]
  split
  · rename_i heq; rw [h] at heq; cases heq; rfl
  · rename_i heq; rw [h] at heq; cases heq

theorem readMembers_of_readMember_eq_ok {c : Char} {m : Member} {cs rest : List Char}
    (hc : c ≠ ']') (h : readMember (c :: cs) = .ok (m, rest)) (site : List Char) :
    readMembers site (c :: cs) = (readMembers site rest).map fun r => (m :: r.1, r.2) := by
  rw [readMembers, if_neg hc]
  split
  · rename_i heq; rw [h] at heq; cases heq
  · rename_i heq
    rw [h] at heq
    cases heq
    cases readMembers site rest <;> rfl

theorem readMembers_eq_ok_iff {site text rest : List Char} {ms : List Member} :
    readMembers site text = .ok (ms, rest) ↔ MembersText ms text rest := by
  constructor
  · intro h
    fun_induction readMembers site text generalizing ms rest with
    | case1 => cases h
    | case2 => cases h; exact .close
    | case3 => cases h
    | case4 => cases h
    | case5 c text' hc m mid hread ms' rest' hrest ih =>
      cases h
      exact .member (by simpa using hc) (readMember_eq_ok_iff.1 hread) (ih hrest)
  · intro h
    induction h with
    | close => rw [readMembers]; simp
    | @member m ms text mid rest hopen hm _ ih =>
      rw [← readMember_eq_ok_iff] at hm
      cases text with
      | nil => simp [readMember, readChar] at hm
      | cons d text =>
        rw [readMembers_of_readMember_eq_ok (by simpa using hopen) hm, ih]
        rfl

/-- What follows the opening bracket of a class; `^` in the first place negates it. -/
inductive ClassText : Bool → List Member → List Char → List Char → Prop
  | negated {ms : List Member} {text rest : List Char} (h : MembersText ms text rest) :
      ClassText true ms ('^' :: text) rest
  | plain {ms : List Member} {text rest : List Char} (hplain : text.head? ≠ some '^')
      (h : MembersText ms text rest) : ClassText false ms text rest

theorem readClass_eq_ok_iff {site text rest : List Char} {e : Expr .item} :
    readClass site text = .ok (e, rest) ↔
      ∃ negated ms, e = .charClass negated ms ∧ ClassText negated ms text rest := by
  constructor
  · intro h
    unfold readClass at h
    split at h
    · cases h
    · rename_i ms rest' hms
      cases h
      rw [readMembers_eq_ok_iff] at hms
      refine ⟨_, _, rfl, ?_⟩
      cases text with
      | nil => cases hms with | member _ hm _ => cases hm <;> simp_all [readChar, readNegation]
      | cons c text =>
        by_cases hc : c = '^'
        · subst hc
          simpa [readNegation] using ClassText.negated hms
        · have hneg : readNegation (c :: text) = (false, c :: text) := by simp [readNegation, hc]
          rw [hneg] at hms ⊢
          exact .plain (by simpa using hc) hms
  · rintro ⟨negated, ms, rfl, h⟩
    unfold readClass
    cases h with
    | negated h => simp [readNegation, readMembers_eq_ok_iff.2 h]
    | plain hplain h =>
      have hneg : readNegation text = (false, text) := by
        cases text with
        | nil => rfl
        | cons c text => simp_all [readNegation]
      rw [hneg, readMembers_eq_ok_iff.2 h]

/-! ### Line ends -/

/-- A line break. -/
inductive LineEnd : List Char → List Char → Prop
  | lf {rest : List Char} : LineEnd ('\n' :: rest) rest
  | cr {rest : List Char} : LineEnd ('\r' :: rest) rest
  | crlf {rest : List Char} : LineEnd ('\r' :: '\n' :: rest) rest

/-- A definition ends with the text, or with a line break and the blanks behind it. -/
inductive DefinitionEnd : List Char → List Char → Prop
  | ending : DefinitionEnd [] []
  | line {text mid rest : List Char} (hline : LineEnd text mid)
      (hskip : Skips .anyLine mid rest) : DefinitionEnd text rest

theorem exists_cons_of_readLineEnd?_eq_none {cs : List Char} (h : readLineEnd? cs = none) :
    ∃ c cs', cs = c :: cs' ∧ c ≠ '\r' ∧ c ≠ '\n' := by
  cases cs with
  | nil => cases h
  | cons c cs =>
    refine ⟨c, cs, rfl, ?_, ?_⟩
    · rintro rfl
      simp [readLineEnd?] at h
    · rintro rfl
      simp [readLineEnd?] at h

theorem readLineEnd?_skip_iff {text rest : List Char} :
    (readLineEnd? text).map Spacing.anyLine.skip = some rest ↔ DefinitionEnd text rest := by
  -- a carriage return may be read with or without the line feed behind it
  have hcr (cs : List Char) :
      (readLineEnd? ('\r' :: cs)).map Spacing.anyLine.skip = some (Spacing.anyLine.skip cs) := by
    cases hp : Text.after? ['\n'] cs with
    | none => simp [readLineEnd?, hp]
    | some after =>
      rw [Text.after?_eq_some_iff.1 hp]
      simp [readLineEnd?, Text.after?, Spacing.skip_anyLine_cons_of_isLineBreak, isLineBreak]
  constructor
  · intro h
    cases text with
    | nil => cases h; exact .ending
    | cons c cs =>
      by_cases hlf : c = '\n'
      · subst hlf
        exact .line .lf (Spacing.skip_eq_iff.1 (by simpa [readLineEnd?] using h))
      · by_cases hret : c = '\r'
        · subst hret
          rw [hcr] at h
          exact .line .cr (Spacing.skip_eq_iff.1 (Option.some.inj h))
        · simp [readLineEnd?, hlf, hret] at h
  · intro h
    cases h with
    | ending => rfl
    | line hline hskip =>
      rw [← Spacing.skip_eq_iff] at hskip
      cases hline with
      | lf => simp [readLineEnd?, hskip]
      | cr => rw [hcr, hskip]
      | crlf =>
        rw [hcr, Spacing.skip_anyLine_cons_of_isLineBreak rfl, hskip]

end EbnfTables
