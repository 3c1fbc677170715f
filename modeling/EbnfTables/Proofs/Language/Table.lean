import EbnfTables.Grammar.Basic
import EbnfTables.Proofs.Language.Source
import EbnfTables.Proofs.Tables.Layout
import Mathlib.Algebra.Order.BigOperators.Group.List

/-!
# The languages of tables

What tables mean, for any tables and without regard to where they come from.

* `spans` are the ranges of code points that a run lists, and `Covers` says that a character is in
  one of them;
* `stretchLanguage L s`: the words of an alternative, read from the left, where `L` gives the words
  of each rule.  A continuation without a run has no words;
* `Body.language L body`: the words of the alternatives;
* `Grammar.language g`: the least solution of the bodies, read as equations.

For the bodies that are laid out by a compilation, these are sums of products
(`Layout.language_elements`, `Row.stretchLanguage_elements`).
-/

namespace EbnfTables

open scoped Computability

/-- The ranges of code points in a run. -/
def spans : Body → List (UInt32 × UInt32)
  | [] => []
  | [e] => [(e.value, e.value)]
  | e :: e' :: es =>
    if e'.kind = .rangeUpper then (e.value, e'.value) :: spans es
    else (e.value, e.value) :: spans (e' :: es)

/-- The character is in one of the ranges of the run. -/
def Covers (run : Body) (c : Char) : Prop := ∃ s ∈ spans run, s.1 ≤ c.val ∧ c.val ≤ s.2

/-- The words of an alternative. -/
def stretchLanguage (L : RuleId → Language Char) : Body → Language Char
  | [] => 1
  | e :: es =>
    match e.kind with
    | .ruleRef => L e.value * stretchLanguage L es
    | .char =>
      oneOf (Covers (e :: es.takeWhile fun e => e.kind.isContinuation)) *
        stretchLanguage L (es.dropWhile fun e => e.kind.isContinuation)
    | .charNot =>
      oneOf (fun c => ¬ Covers (e :: es.takeWhile fun e => e.kind.isContinuation) c) *
        stretchLanguage L (es.dropWhile fun e => e.kind.isContinuation)
    | .stop | .alt | .rangeUpper | .charAlt => 0
termination_by s => s.length
decreasing_by
  · simp
  all_goals
    have := (List.dropWhile_suffix (l := es) fun e => e.kind.isContinuation).length_le
    simp only [List.length_cons]
    omega

theorem stretchLanguage_mono {L M : RuleId → Language Char} (h : L ≤ M) (s : Body) :
    stretchLanguage L s ≤ stretchLanguage M s := by
  fun_induction stretchLanguage L s with
  | case1 => rw [stretchLanguage]
  | case2 e es hkind ih =>
    rw [stretchLanguage.eq_def M]
    simp only [hkind]
    exact mul_le_mul' (h e.value) ih
  | case3 e es hkind ih | case4 e es hkind ih =>
    rw [stretchLanguage.eq_def M]
    simp only [hkind]
    exact mul_le_mul' le_rfl ih
  | case5 | case6 | case7 | case8 => exact bot_le

/-- The words of a body. -/
def Body.language (L : RuleId → Language Char) (body : Body) : Language Char :=
  (body.alternatives.map (stretchLanguage L)).sum

theorem Body.language_mono {L M : RuleId → Language Char} (h : L ≤ M) (body : Body) :
    body.language L ≤ body.language M :=
  List.sum_le_sum fun s _ => stretchLanguage_mono h s

/-- Where a new piece starts, the words of an alternative can be divided. -/
theorem stretchLanguage_append (L : RuleId → Language Char) (s : Body) {s' : Body}
    (h : s'.EndsRun) : stretchLanguage L (s ++ s') = stretchLanguage L s * stretchLanguage L s' := by
  fun_induction stretchLanguage L s with
  | case1 => rw [List.nil_append, one_mul]
  | case2 e es hkind ih =>
    rw [List.cons_append, stretchLanguage.eq_def]
    simp only [hkind, ih, mul_assoc]
  | case3 e es hkind ih | case4 e es hkind ih =>
    rw [List.cons_append, stretchLanguage.eq_def]
    simp only [hkind, h.takeWhile_append, h.dropWhile_append, ih, mul_assoc]
  | case5 e es hkind | case6 e es hkind | case7 e es hkind | case8 e es hkind =>
    rw [List.cons_append, stretchLanguage.eq_def]
    simp only [hkind, zero_mul]

theorem stretchLanguage_ruleRef (L : RuleId → Language Char) (id : RuleId) :
    stretchLanguage L [.ruleRef id] = L id := by
  rw [stretchLanguage, stretchLanguage, mul_one]
  rfl

/-- What the bodies make of given words for the rules. -/
def RuleTable.step (t : RuleTable) : (RuleId → Language Char) →o (RuleId → Language Char) where
  toFun L id := {w | ∃ body, t.body? id = some body ∧ w ∈ body.language L}
  monotone' := by
    rintro L M h id w ⟨body, hbody, hw⟩
    exact ⟨body, hbody, body.language_mono h hw⟩

/-- The words of each rule: the least solution of the bodies. -/
def Grammar.language (g : Grammar) : RuleId → Language Char := g.rules.step.lfp

/-- The words of a body are those of its rule. -/
theorem Grammar.language_eq {g : Grammar} {id : RuleId} {body : Body}
    (h : g.rule? id = some body) : g.language id = body.language g.language := by
  have hstep : g.rules.step g.language = g.language := g.rules.step.map_lfp
  conv_lhs => rw [← hstep]
  refine Language.ext fun w => ⟨?_, fun hw => ⟨body, h, hw⟩⟩
  rintro ⟨body', h', hw⟩
  obtain rfl : body = body' := Option.some.inj (h.symm.trans h')
  exact hw

/-- Whatever solves the bodies contains the least solution. -/
theorem Grammar.language_le {g : Grammar} {L : RuleId → Language Char}
    (h : ∀ id body, g.rule? id = some body → body.language L ≤ L id) : g.language ≤ L := by
  refine g.rules.step.lfp_le ?_
  rintro id w ⟨body, hbody, hw⟩
  exact h id body hbody hw

/-! ### The words of layouts -/

section Layouts

variable (L : RuleId → Language Char)

/-- The words of a piece. -/
def Piece.language : Piece → Language Char
  | ref id => L id
  | run negated m ms => oneOf (ClassContains negated (m :: ms))

/-- The words of a row. -/
def Row.language (row : Row) : Language Char := (row.map (Piece.language L)).prod

@[simp] theorem Row.language_nil : Row.language L [] = 1 := rfl

theorem Row.language_append (row row' : Row) :
    Row.language L (row ++ row') = row.language L * row'.language L := by
  rw [Row.language, List.map_append, List.prod_append]
  rfl

@[simp] theorem Row.language_cons (p : Piece) (row : Row) :
    Row.language L (p :: row) = p.language L * row.language L := rfl

theorem spans_elements_append (kind : ElementKind) (m : Member) {es : Body}
    (hes : ∀ e, es.head? = some e → e.kind ≠ .rangeUpper) :
    ∃ lower upper, spans (m.elements kind ++ es) = (lower, upper) :: spans es ∧
      ∀ c : Char, m.Contains c ↔ lower ≤ c.val ∧ c.val ≤ upper := by
  cases m with
  | single d =>
    refine ⟨d.val, d.val, ?_, fun c => ?_⟩
    · cases es with
      | nil => rfl
      | cons e es => simp [Member.elements, spans, hes e rfl]
    · rw [Member.Contains, ← Char.val_inj]
      constructor
      · rintro h
        simp [h]
      · rintro ⟨hle, hge⟩
        exact UInt32.le_antisymm hge hle
  | range lower upper =>
    refine ⟨lower.val, upper.val, ?_, fun c => Iff.rfl⟩
    simp [Member.elements, spans]

theorem head?_flatMap_ne_rangeUpper (ms : List Member) :
    ∀ e, (ms.flatMap (Member.elements .charAlt)).head? = some e → e.kind ≠ .rangeUpper := by
  intro e he
  cases ms with
  | nil => cases he
  | cons m ms => cases m <;> obtain rfl := Option.some.inj he <;> nofun

theorem covers_flatMap_iff (ms : List Member) (c : Char) :
    Covers (ms.flatMap (Member.elements .charAlt)) c ↔ ∃ m ∈ ms, m.Contains c := by
  induction ms with
  | nil => simp [Covers, spans]
  | cons m ms ih =>
    obtain ⟨lower, upper, hspans, hm⟩ :=
      spans_elements_append .charAlt m (head?_flatMap_ne_rangeUpper ms)
    rw [List.flatMap_cons, Covers, hspans]
    simp only [List.mem_cons, exists_eq_or_imp, ← hm, ← ih]
    rfl

/-- A run covers the characters of its members. -/
theorem covers_classElements_iff (negated : Bool) (m : Member) (ms : List Member) (c : Char) :
    Covers (classElements negated (m :: ms)) c ↔ ∃ m' ∈ m :: ms, m'.Contains c := by
  obtain ⟨lower, upper, hspans, hm⟩ :=
    spans_elements_append (if negated then .charNot else .char) m (head?_flatMap_ne_rangeUpper ms)
  rw [classElements, Covers, hspans]
  simp only [List.mem_cons, exists_eq_or_imp, ← hm, ← covers_flatMap_iff]
  rfl

theorem Piece.stretchLanguage_elements (p : Piece) :
    stretchLanguage L p.elements = p.language L := by
  cases p with
  | ref id => exact stretchLanguage_ruleRef L id
  | run negated m ms =>
    obtain ⟨e, es, heq, hkind, hes⟩ := exists_classElements_eq_cons negated m ms
    have hcovers := covers_classElements_iff negated m ms
    rw [elements, Piece.language]
    rw [heq] at hcovers ⊢
    -- all of the run but its first element are continuations
    rw [stretchLanguage, List.takeWhile_eq_self_iff.2 hes, List.dropWhile_eq_nil_iff.2 hes, hkind,
      stretchLanguage]
    cases negated with
    | false =>
      refine (mul_one _).trans (oneOf_congr fun c => ?_)
      rw [hcovers, ClassContains]
      simp only [iff_true]
    | true =>
      refine (mul_one _).trans (oneOf_congr fun c => ?_)
      rw [hcovers, ClassContains]
      simp only [Bool.true_eq_false, iff_false]

/-- The words of a row are the products of the words of its pieces. -/
theorem Row.stretchLanguage_elements (row : Row) :
    stretchLanguage L row.elements = row.language L := by
  induction row with
  | nil => rw [elements_nil, stretchLanguage, language_nil]
  | cons p row ih =>
    rw [elements_cons, stretchLanguage_append L _ (endsRun_elements row),
      p.stretchLanguage_elements, ih, language_cons]

/-- The words of a layout are those of its rows. -/
theorem Layout.language_elements (l : Layout) :
    Body.language L l.elements = (l.rows.map (Row.language L)).sum := by
  rw [Body.language, alternatives_elements, List.map_map]
  exact congrArg List.sum (List.map_congr_left fun row _ => Row.stretchLanguage_elements L row)

/-- The end of a body adds nothing to its words. -/
theorem Layout.language_body (l : Layout) :
    Body.language L l.body = Body.language L l.elements := by
  rw [Body.language, alternatives_body, ← alternatives_elements, Body.language]

theorem Row.language_elements (row : Row) : Body.language L row.elements = row.language L := by
  rw [← Layout.elements_mk_nil, Layout.language_elements]
  simp [Layout.rows]

@[simp] theorem Body.language_ruleRef (id : RuleId) : Body.language L [.ruleRef id] = L id := by
  rw [show [Element.ruleRef id] = Row.elements [.ref id] from rfl, Row.language_elements,
    Row.language_cons, Row.language_nil, mul_one, Piece.language]

theorem Row.language_ofClass (X : String → Language Char) (negated : Bool) (ms : List Member) :
    Row.language L (ofClass negated ms) = (Expr.charClass negated ms).language X := by
  cases ms with
  | nil => rfl
  | cons m ms => rw [ofClass, language_cons, language_nil, mul_one, Piece.language, Expr.language]

theorem Row.language_ofChars (cs : List Char) : Row.language L (ofChars cs) = {cs} := by
  induction cs with
  | nil => rfl
  | cons c cs ih =>
    have hc : oneOf (ClassContains false [.single c]) = {[c]} := by
      refine Language.ext fun w => ?_
      constructor
      · rintro ⟨d, rfl, hd⟩
        obtain ⟨m, hm, hd⟩ := hd.2 rfl
        obtain rfl := List.mem_singleton.1 hm
        exact congrArg (fun c => [c]) hd
      · rintro rfl
        exact ⟨c, rfl, iff_of_true ⟨_, List.mem_singleton_self _, rfl⟩ rfl⟩
    have hcons : ofChars (c :: cs) = .run false (.single c) [] :: ofChars cs := rfl
    rw [hcons, language_cons, ih, Piece.language, hc]
    refine Language.ext fun w => ?_
    rw [Language.mem_mul]
    constructor
    · rintro ⟨_, rfl, _, rfl, rfl⟩
      rfl
    · rintro rfl
      exact ⟨[c], rfl, cs, rfl, rfl⟩

/-- A bar adds the words of the alternative behind it. -/
theorem Layout.language_push (l : Layout) (row : Row) :
    Body.language L (l.push row).elements = Body.language L l.elements + row.language L := by
  simp only [language_elements, rows, push, List.map_cons, List.map_append, List.map_nil,
    List.sum_cons, List.sum_append, List.sum_nil, add_zero, add_assoc]

/-- The words of the rule that repeats an operand, in terms of the operand and of the rule itself. -/
theorem Quantifier.language_expansion (q : Quantifier) {operand : Body}
    (h : operand.IsAlternative) (id : RuleId) :
    Body.language L (q.expansion operand id) = q.unfolding (stretchLanguage L operand) (L id) := by
  have hnil : stretchLanguage L [] = 1 := by rw [stretchLanguage]
  have hid : stretchLanguage L (operand ++ [.ruleRef id]) = stretchLanguage L operand * L id := by
    rw [stretchLanguage_append L operand (Body.endsRun_cons rfl []), stretchLanguage_ruleRef]
  rw [Body.language, q.alternatives_expansion h id]
  cases q <;> simp [unfolding, hnil, hid]

end Layouts

end EbnfTables
