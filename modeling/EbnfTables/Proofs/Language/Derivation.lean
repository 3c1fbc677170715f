import EbnfTables.Proofs.Language.Table

/-!
# Derivations in tables

The least solution of the bodies, spelled out: a word belongs to a rule if and only if it can be
derived from it in finitely many steps.

* `RuleTable.Derives t s w`: the alternative `s` derives the word `w`.  A reference derives what one
  of the alternatives of its rule derives, and a run derives a single character;
* `RuleTable.words` and `RuleTable.ruleWords` are the words that can be derived from an alternative,
  and from a rule.

Derivations are sound (`RuleTable.Derives.mem_stretchLanguage`), by induction on them.  Conversely
the words that can be derived solve the bodies, so they contain the least solution
(`RuleTable.derives_of_mem_stretchLanguage`).  Main results: `Grammar.language_eq_ruleWords` and
`Grammar.stretchLanguage_eq_words`.
-/

namespace EbnfTables

/-- The alternative derives the word. -/
inductive RuleTable.Derives (t : RuleTable) : Body → List Char → Prop
  | nil : Derives t [] []
  /-- A reference stands for any alternative of its rule. -/
  | ref {id : RuleId} {body s es : Body} {v w : List Char} (hbody : t.body? id = some body)
      (hs : s ∈ body.alternatives) (hv : Derives t s v) (hw : Derives t es w) :
      Derives t (.ruleRef id :: es) (v ++ w)
  /-- A run stands for a character that it covers. -/
  | char {value : UInt32} {es : Body} {c : Char} {w : List Char}
      (hc : Covers (⟨.char, value⟩ :: es.takeWhile fun e => e.kind.isContinuation) c)
      (hw : Derives t (es.dropWhile fun e => e.kind.isContinuation) w) :
      Derives t (⟨.char, value⟩ :: es) (c :: w)
  /-- A negated run stands for a character that it does not cover. -/
  | charNot {value : UInt32} {es : Body} {c : Char} {w : List Char}
      (hc : ¬ Covers (⟨.charNot, value⟩ :: es.takeWhile fun e => e.kind.isContinuation) c)
      (hw : Derives t (es.dropWhile fun e => e.kind.isContinuation) w) :
      Derives t (⟨.charNot, value⟩ :: es) (c :: w)

/-- The words that can be derived from an alternative. -/
def RuleTable.words (t : RuleTable) (s : Body) : Language Char := {w | t.Derives s w}

/-- The words that can be derived from a rule. -/
def RuleTable.ruleWords (t : RuleTable) (id : RuleId) : Language Char :=
  {w | ∃ body, t.body? id = some body ∧ ∃ s ∈ body.alternatives, t.Derives s w}

/-- The words of a body are those of its alternatives. -/
theorem Body.mem_language_iff {L : RuleId → Language Char} {body : Body} {w : List Char} :
    w ∈ body.language L ↔ ∃ s ∈ body.alternatives, w ∈ stretchLanguage L s := by
  rw [language]
  induction body.alternatives with
  | nil => exact iff_of_false (Language.notMem_zero w) (by simp)
  | cons s ss ih =>
    rw [List.map_cons, List.sum_cons, Language.mem_add, ih, List.exists_mem_cons_iff]

/-- Derivations stay within any solution of the bodies. -/
theorem RuleTable.Derives.mem_stretchLanguage {t : RuleTable} {L : RuleId → Language Char}
    (hL : ∀ id body, t.body? id = some body → body.language L ≤ L id) {s : Body} {w : List Char}
    (h : t.Derives s w) : w ∈ stretchLanguage L s := by
  induction h with
  | nil =>
    rw [stretchLanguage]
    exact Language.nil_mem_one
  | ref hbody hs _ _ ihv ihw =>
    rw [stretchLanguage]
    exact Language.append_mem_mul (hL _ _ hbody (Body.mem_language_iff.2 ⟨_, hs, ihv⟩)) ihw
  | char hc _ ih | charNot hc _ ih =>
    rw [stretchLanguage]
    exact Language.mem_mul.2 ⟨[_], ⟨_, rfl, hc⟩, _, ih, rfl⟩

/-- If the rules have the words that can be derived from them, so have the alternatives. -/
theorem RuleTable.derives_of_mem_stretchLanguage {t : RuleTable} {s : Body} {w : List Char}
    (h : w ∈ stretchLanguage t.ruleWords s) : t.Derives s w := by
  generalize hL : t.ruleWords = L at h
  fun_induction stretchLanguage L s generalizing w with
  | case1 =>
    obtain rfl := (Language.mem_one w).1 h
    exact .nil
  | case2 e es hkind ih =>
    obtain ⟨kind, value⟩ := e
    obtain rfl : kind = .ruleRef := hkind
    subst hL
    obtain ⟨v, ⟨body, hbody, s, hs, hv⟩, w, hw, rfl⟩ := Language.mem_mul.1 h
    exact .ref hbody hs hv (ih hw)
  | case3 e es hkind ih =>
    obtain ⟨kind, value⟩ := e
    obtain rfl : kind = .char := hkind
    obtain ⟨_, ⟨c, rfl, hc⟩, w, hw, rfl⟩ := Language.mem_mul.1 h
    exact .char hc (ih hw)
  | case4 e es hkind ih =>
    obtain ⟨kind, value⟩ := e
    obtain rfl : kind = .charNot := hkind
    obtain ⟨_, ⟨c, rfl, hc⟩, w, hw, rfl⟩ := Language.mem_mul.1 h
    exact .charNot hc (ih hw)
  | case5 | case6 | case7 | case8 => exact absurd h (Language.notMem_zero w)

namespace Grammar

variable (g : Grammar)

/-- **The words of a rule are those that can be derived from it.** -/
theorem language_eq_ruleWords : g.language = g.rules.ruleWords := by
  apply le_antisymm
  · refine language_le fun id body hbody w hw => ?_
    obtain ⟨s, hs, hw⟩ := Body.mem_language_iff.1 hw
    exact ⟨body, hbody, s, hs, RuleTable.derives_of_mem_stretchLanguage hw⟩
  · rintro id w ⟨body, hbody, s, hs, hw⟩
    rw [language_eq hbody]
    exact Body.mem_language_iff.2
      ⟨s, hs, hw.mem_stretchLanguage fun _ _ hbody => (language_eq hbody).ge⟩

/-- The words of an alternative are those that can be derived from it. -/
theorem stretchLanguage_eq_words (s : Body) : stretchLanguage g.language s = g.rules.words s := by
  refine Language.ext fun w => ⟨fun hw => ?_, fun hw => ?_⟩
  · rw [language_eq_ruleWords] at hw
    exact RuleTable.derives_of_mem_stretchLanguage hw
  · exact hw.mem_stretchLanguage fun _ _ hbody => (language_eq hbody).ge

end Grammar

end EbnfTables
