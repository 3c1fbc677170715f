import EbnfTables.Proofs.Source.Grammar
import Mathlib.Logic.Relation

/-!
# Steps of the machine that reads alternatives

`Config.step` reads one item, bar or quantifier, or opens or closes a group.

* `readAtom?` finds the literals, classes and names of the grammar (`exprText_of_readAtom?` and its
  three converses), and nothing where a sign comes next (`readAtom?_cons_eq_none`);
* `Config.Step` says what a step that goes on does, `Config.step_eq_done_iff` when a step is the
  last one of a run that succeeds.
-/

namespace EbnfTables

/-! ### Atoms -/

theorem exprText_of_readAtom? {s : Spacing} {depth : ℕ} {e : Expr .item} {text rest : List Char}
    (h : readAtom? text = some (.ok (e, rest))) : ExprText s depth e text rest := by
  cases text with
  | nil => cases h
  | cons c text =>
    by_cases hquote : c = '"'
    · subst hquote
      simp only [readAtom?, if_true] at h
      split at h
      · cases h
      · rename_i hread
        cases h
        exact .literal (readLiteral_eq_ok_iff.1 hread)
    · by_cases hbracket : c = '['
      · subst hbracket
        simp only [readAtom?, hquote, if_false, if_true, Option.some.injEq] at h
        obtain ⟨negated, ms, rfl, hclass⟩ := readClass_eq_ok_iff.1 h
        exact .charClass hclass
      · simp only [readAtom?, hquote, hbracket, if_false] at h
        obtain ⟨⟨name, after⟩, hname, heq⟩ := Option.map_eq_some_iff.1 h
        cases heq
        exact .ref (readName?_eq_some_iff.1 hname)

theorem readAtom?_literal {cs text rest : List Char} (h : LiteralText cs text rest) :
    readAtom? ('"' :: text) = some (.ok (.literal cs, rest)) := by
  simp [readAtom?, readLiteral_eq_ok_iff.2 h]

theorem readAtom?_charClass {negated : Bool} {ms : List Member} {text rest : List Char}
    (h : ClassText negated ms text rest) :
    readAtom? ('[' :: text) = some (.ok (.charClass negated ms, rest)) := by
  simp [readAtom?, readClass_eq_ok_iff.2 ⟨negated, ms, rfl, h⟩]

theorem readAtom?_ref {name : String} {text rest : List Char} (h : NameText name text rest) :
    readAtom? text = some (.ok (.ref name, rest)) := by
  have hread := readName?_eq_some_iff.2 h
  obtain ⟨heq, hne, hword, -⟩ := h
  obtain ⟨c, cs, hname⟩ := List.exists_cons_of_ne_nil hne
  have hc : isWordChar c := hword c (by simp [hname])
  obtain ⟨tail, rfl⟩ : ∃ tail, text = c :: tail := ⟨cs ++ rest, by rw [heq, hname]; rfl⟩
  have hquote : c ≠ '"' := by rintro rfl; simp [isWordChar] at hc
  have hbracket : c ≠ '[' := by rintro rfl; simp [isWordChar] at hc
  simp [readAtom?, hquote, hbracket, hread]

/-- No atom starts with a sign or with a line break. -/
theorem readAtom?_cons_eq_none {c : Char} (hc : c ∈ ['(', ')', '|', '?', '*', '+', '\n', '\r'])
    (cs : List Char) : readAtom? (c :: cs) = none := by
  simp only [List.mem_cons, List.not_mem_nil, or_false] at hc
  rcases hc with rfl | rfl | rfl | rfl | rfl | rfl | rfl | rfl <;> rfl

namespace Quantifier

theorem eq_sign_of_ofSign? {c : Char} {q : Quantifier} (h : ofSign? c = some q) : c = q.sign := by
  have := List.find?_some h
  simpa [eq_comm] using this

end Quantifier

/-! ### Steps -/

namespace Frame

variable (f : Frame)

@[simp] theorem site_push (e : Expr .item) : (f.push e).site = f.site := rfl

@[simp] theorem site_bar : f.bar.site = f.site := rfl

/-- What a quantifier does to a frame: it repeats the last item, which gives an element. -/
theorem quantify?_eq_some_iff {f g : Frame} {q : Quantifier} :
    f.quantify? q = some g ↔ ∃ front last, f.current = .snoc front last ∧ last.contributes ∧
      g = { f with current := .snoc front (.repeated q last) } := by
  obtain ⟨site, earlier, current⟩ := f
  cases current with
  | nothing => simp [quantify?, Expr.quantifyLast?]
  | snoc front last =>
    by_cases hc : last.contributes
    · simp only [quantify?, Expr.quantifyLast?, hc, if_true, Option.map_some, Option.some.injEq,
        Expr.snoc.injEq]
      constructor
      · rintro rfl
        exact ⟨front, last, ⟨rfl, rfl⟩, hc, rfl⟩
      · rintro ⟨_, _, ⟨rfl, rfl⟩, -, rfl⟩
        rfl
    · simp only [quantify?, Expr.quantifyLast?, hc, if_false, Option.map_none, reduceCtorEq,
        false_iff, not_exists, Expr.snoc.injEq]
      rintro _ _ ⟨⟨rfl, rfl⟩, hlast, -⟩
      exact hc hlast

end Frame

namespace Config

/-- What a step that goes on does. -/
inductive Step (limit : ℕ) : Config → Config → Prop
  | atom {c : Config} {e : Expr .item} {rest : List Char}
      (h : readAtom? c.rest = some (.ok (e, rest))) : Step limit c (c.resume (c.frame.push e) rest)
  | openGroup {c : Config} {rest : List Char} (hrest : c.rest = '(' :: rest)
      (hlimit : c.outer.length < limit) : Step limit c (c.openGroup rest)
  | bar {c : Config} {rest : List Char} (hrest : c.rest = '|' :: rest) :
      Step limit c { c with frame := c.frame.bar, rest := Spacing.anyLine.skip rest }
  | quantifier {c : Config} {q : Quantifier} {f : Frame} {rest : List Char}
      (hrest : c.rest = q.sign :: rest) (hf : c.frame.quantify? q = some f) :
      Step limit c (c.resume f rest)
  | closeGroup {f g : Frame} {outer : List Frame} {rest : List Char}
      (hc : f.body.contributes) :
      Step limit ⟨f, g :: outer, ')' :: rest⟩
        (resume ⟨g, outer, rest⟩ (g.push (.group f.body)) rest)

variable {limit : ℕ} {c next : Config}

theorem close_eq_more_iff : c.close = .more next ↔
    ∃ g outer rest, c.outer = g :: outer ∧ c.rest = ')' :: rest ∧ c.frame.body.contributes ∧
      next = resume ⟨g, outer, rest⟩ (g.push (.group c.frame.body)) rest := by
  obtain ⟨f, outer, rest⟩ := c
  by_cases hc : f.body.contributes
  · cases outer with
    | nil =>
      simp only [close, hc, if_true]
      split <;> simp
    | cons g outer =>
      cases rest with
      | nil => simp [close, hc]
      | cons ch rest =>
        by_cases hch : ch = ')'
        · subst hch
          simp only [close, hc, if_true, Move.more.injEq, List.cons.injEq]
          constructor
          · rintro rfl
            exact ⟨g, outer, rest, ⟨rfl, rfl⟩, ⟨trivial, rfl⟩, trivial, rfl⟩
          · rintro ⟨_, _, _, ⟨rfl, rfl⟩, ⟨-, rfl⟩, -, rfl⟩
            rfl
        · simp [close, hc, hch]
  · simp [close, hc]

theorem close_eq_done_iff {body : Expr .alternatives} {rest : List Char} :
    c.close = .done body rest ↔ c.outer = [] ∧ c.frame.body.contributes ∧ body = c.frame.body ∧
      readLineEnd? c.rest = some rest := by
  obtain ⟨f, outer, text⟩ := c
  by_cases hc : f.body.contributes
  · cases outer with
    | nil =>
      simp only [close, hc, if_true, true_and]
      split
      · rename_i hnone
        simp [hnone]
      · rename_i rest' hsome
        simp only [hsome, Move.done.injEq, Option.some.injEq]
        exact ⟨fun h => ⟨h.1.symm, h.2⟩, fun h => ⟨h.1.symm, h.2⟩⟩
    | cons g outer =>
      simp only [close, hc, if_true, reduceCtorEq, false_and, iff_false]
      split
      · simp
      · split <;> simp
  · simp [close, hc]

theorem step_of_step_eq_more (h : c.step limit = .more next) : Step limit c next := by
  have hclose (h : c.close = .more next) : Step limit c next := by
    obtain ⟨g, outer, rest, houter, hrest, hc, rfl⟩ := close_eq_more_iff.1 h
    obtain ⟨f, outer', rest'⟩ := c
    subst houter hrest
    exact .closeGroup hc
  simp only [step] at h
  split at h
  · cases h
  · rename_i hread
    cases h
    exact .atom hread
  · split at h
    · exact hclose h
    · rename_i ch rest hrest
      -- what is no atom is told by its first sign; any other sign can only close
      split at h
      · rename_i hopen
        subst hopen
        split at h
        · rename_i hlimit
          cases h
          exact .openGroup hrest hlimit
        · cases h
      · split at h
        · rename_i hbar
          subst hbar
          cases h
          exact .bar hrest
        · split at h
          · exact hclose h
          · rename_i q hq
            rw [Quantifier.eq_sign_of_ofSign? hq] at hrest
            split at h
            · cases h
            · rename_i hf
              cases h
              exact .quantifier hrest hf

theorem Step.step_eq_more (h : Step limit c next) : c.step limit = .more next := by
  cases h with
  | atom h => simp only [step, h]
  | openGroup hrest hlimit =>
    have hatom : readAtom? c.rest = none := by
      rw [hrest]
      exact readAtom?_cons_eq_none (by decide) _
    simp only [step, hatom]
    simp [hrest, hlimit]
  | bar hrest =>
    have hatom : readAtom? c.rest = none := by
      rw [hrest]
      exact readAtom?_cons_eq_none (by decide) _
    simp only [step, hatom]
    simp [hrest]
  | @quantifier _ q f rest hrest hf =>
    have hatom : readAtom? c.rest = none := by
      rw [hrest]
      cases q <;> exact readAtom?_cons_eq_none (by decide) _
    have hsign : q.sign ≠ '(' ∧ q.sign ≠ '|' := by cases q <;> decide
    simp only [step, hatom]
    simp [hrest, hsign.1, hsign.2, hf]
  | @closeGroup f g outer rest hc =>
    have hatom : readAtom? (')' :: rest) = none := readAtom?_cons_eq_none (by decide) _
    have hsign : Quantifier.ofSign? ')' = none := by decide
    have hclose : (⟨f, g :: outer, ')' :: rest⟩ : Config).close =
        .more (resume ⟨g, outer, rest⟩ (g.push (.group f.body)) rest) :=
      close_eq_more_iff.2 ⟨g, outer, rest, rfl, rfl, hc, rfl⟩
    simp only [step, hatom, hsign]
    simpa using hclose

/-- A step ends a run only by closing the definition. -/
theorem step_eq_done_iff {body : Expr .alternatives} {rest : List Char} :
    c.step limit = .done body rest ↔ c.outer = [] ∧ c.frame.body.contributes ∧
      body = c.frame.body ∧ readLineEnd? c.rest = some rest := by
  rw [← close_eq_done_iff]
  constructor
  · intro h
    simp only [step] at h
    split at h
    · cases h
    · cases h
    · split at h
      · exact h
      · split at h
        · split at h <;> cases h
        · split at h
          · cases h
          · split at h
            · exact h
            · split at h <;> cases h
  · intro h
    -- what ends a line starts no item, and is no sign
    have hstep : c.step limit = c.close := by
      obtain ⟨-, -, -, hend⟩ := close_eq_done_iff.1 h
      cases hrest : c.rest with
      | nil => simp [step, hrest, readAtom?]
      | cons ch text =>
        rw [hrest] at hend
        have hbreak : ch = '\n' ∨ ch = '\r' := by
          by_contra hne
          rw [not_or] at hne
          simp [readLineEnd?, hne.1, hne.2] at hend
        have hatom : readAtom? c.rest = none := by
          rw [hrest]
          rcases hbreak with rfl | rfl <;> exact readAtom?_cons_eq_none (by decide) text
        have hsign : ch ≠ '(' ∧ ch ≠ '|' ∧ Quantifier.ofSign? ch = none := by
          rcases hbreak with rfl | rfl <;> decide
        simp only [step, hatom]
        simp [hrest, hsign]
    rw [hstep, h]

theorem run_of_step_eq_more (h : c.step limit = .more next) : c.run limit = next.run limit := by
  rw [run]
  split
  · rename_i heq; rw [h] at heq; cases heq; rfl
  · rename_i heq; rw [h] at heq; cases heq
  · rename_i heq; rw [h] at heq; cases heq

theorem run_of_step_eq_done {body : Expr .alternatives} {rest : List Char}
    (h : c.step limit = .done body rest) : c.run limit = .ok (body, rest) := by
  rw [run]
  split
  · rename_i heq; rw [h] at heq; cases heq
  · rename_i heq; rw [h] at heq; cases heq; rfl
  · rename_i heq; rw [h] at heq; cases heq

theorem run_of_step_eq_failed {c : Config} {fault : Fault} {finished : Bool}
    (h : c.step limit = .failed fault finished) :
    c.run limit = .error ⟨fault, c.frame :: c.outer, finished⟩ := by
  rw [run]
  split
  · rename_i heq; rw [h] at heq; cases heq
  · rename_i heq; rw [h] at heq; cases heq
  · rename_i heq; rw [h] at heq; cases heq; rfl

end Config

end EbnfTables
