import EbnfTables.Source.Definition
import Mathlib

/-!
# The languages of sources

What definitions mean, as sets of words over the code points.

* `Expr.language L e`: the words of an expression, where `L` gives the words of each name.  An empty
  literal and an empty class have the empty word;
* `Quantifier.repetition`: the words of a repetition, which are the least solution of an equation,
  `Quantifier.unfolding`;
* `sourceLanguage defs`: the least solution of the definitions, read as equations.

Solutions are compared name by name, and everything is monotone, so there is a least one.
-/

namespace EbnfTables

open scoped Computability

/-- The words of a single character with the given property. -/
def oneOf (p : Char → Prop) : Language Char := {w | ∃ c, w = [c] ∧ p c}

theorem oneOf_congr {p q : Char → Prop} (h : ∀ c, p c ↔ q c) : oneOf p = oneOf q := by
  rw [show p = q from funext fun c => propext (h c)]

/-- The character belongs to the member. -/
def Member.Contains : Member → Char → Prop
  | single d, c => c = d
  | range lower upper, c => lower ≤ c ∧ c ≤ upper

/-- The character belongs to the class: it is inside the union of the members, or outside if the
class is negated. -/
def ClassContains (negated : Bool) (ms : List Member) (c : Char) : Prop :=
  (∃ m ∈ ms, m.Contains c) ↔ negated = false

/-- The words of an expression. -/
def Expr.language (L : String → Language Char) : {level : Level} → Expr level → Language Char
  | _, literal cs => {cs}
  | _, charClass _ [] => 1
  | _, charClass negated (m :: ms) => oneOf (ClassContains negated (m :: ms))
  | _, ref name => L name
  | _, group body => body.language L
  | _, repeated .zeroOrOne operand => operand.language L + 1
  | _, repeated .zeroOrMore operand => (operand.language L)∗
  | _, repeated .oneOrMore operand => operand.language L * (operand.language L)∗
  | _, nothing => 1
  | _, snoc front last => front.language L * last.language L
  | _, only sequence => sequence.language L
  | _, orElse earlier last => earlier.language L + last.language L

theorem Expr.language_mono {level : Level} (e : Expr level) {L M : String → Language Char}
    (h : L ≤ M) : e.language L ≤ e.language M := by
  induction e with
  | literal | nothing => exact le_rfl
  | charClass negated ms => cases ms <;> exact le_rfl
  | ref name => exact h name
  | group _ ih | only _ ih => exact ih
  | repeated q operand ih =>
    cases q with
    | zeroOrOne => exact add_le_add_left ih 1
    | zeroOrMore => exact kstar_mono ih
    | oneOrMore => exact mul_le_mul' ih (kstar_mono ih)
  | snoc _ _ ihfront ihlast => exact mul_le_mul' ihfront ihlast
  | orElse _ _ ihearlier ihlast => exact add_le_add ihearlier ihlast

/-! ### Repetition -/

namespace Quantifier

variable {q : Quantifier} {K L X Y : Language Char}

/-- The words of what is repeated: at most once, any number of times, or at least once. -/
def repetition (q : Quantifier) (L : Language Char) : Language Char :=
  match q with
  | zeroOrOne => L + 1
  | zeroOrMore => L∗
  | oneOrMore => L * L∗

/-- What a rule that repeats `L` by recursion makes of its own words. -/
def unfolding (q : Quantifier) (L X : Language Char) : Language Char :=
  match q with
  | zeroOrOne => L + 1
  | zeroOrMore => L * X + 1
  | oneOrMore => L * X + L

theorem unfolding_mono (hL : K ≤ L) (hX : X ≤ Y) : q.unfolding K X ≤ q.unfolding L Y := by
  cases q with
  | zeroOrOne => exact add_le_add_left hL 1
  | zeroOrMore => exact add_le_add_left (mul_le_mul' hL hX) 1
  | oneOrMore => exact add_le_add (mul_le_mul' hL hX) hL

/-- The words of a repetition solve the equation of its rule. -/
theorem unfolding_repetition (q : Quantifier) (L : Language Char) :
    q.unfolding L (q.repetition L) = q.repetition L := by
  have hstar : L * L∗ + 1 = L∗ := (add_comm _ _).trans (Language.one_add_self_mul_kstar_eq_kstar L)
  cases q with
  | zeroOrOne => rfl
  | zeroOrMore => exact hstar
  | oneOrMore =>
    calc L * (L * L∗) + L = L * (L * L∗ + 1) := by rw [mul_add, mul_one]
      _ = L * L∗ := by rw [hstar]

/-- They are the least to do so. -/
theorem repetition_le (h : q.unfolding L X ≤ X) : q.repetition L ≤ X := by
  cases q with
  | zeroOrOne => exact h
  | zeroOrMore =>
    obtain ⟨hmul, hone⟩ := add_le_iff.1 h
    exact kstar_le_of_mul_le_right hone hmul
  | oneOrMore =>
    obtain ⟨hmul, hbase⟩ := add_le_iff.1 h
    rw [repetition, ← Language.mul_self_kstar_comm]
    exact kstar_mul_le hbase hmul

end Quantifier

theorem Expr.language_repeated (L : String → Language Char) (q : Quantifier)
    (operand : Expr .item) :
    (repeated q operand).language L = q.repetition (operand.language L) := by
  cases q <;> rfl

/-- What the definitions make of given words for the names. -/
def sourceStep (defs : List Definition) :
    (String → Language Char) →o (String → Language Char) where
  toFun L name := {w | ∃ d ∈ defs, d.name = name ∧ w ∈ d.body.language L}
  monotone' := by
    rintro L M h name w ⟨d, hd, hname, hw⟩
    exact ⟨d, hd, hname, d.body.language_mono h hw⟩

/-- The words of each name: the least solution of the definitions. -/
def sourceLanguage (defs : List Definition) : String → Language Char := (sourceStep defs).lfp

/-- The words of a right side are words of its name. -/
theorem language_body_le_sourceLanguage {defs : List Definition} {d : Definition} (hd : d ∈ defs) :
    d.body.language (sourceLanguage defs) ≤ sourceLanguage defs d.name := by
  intro w hw
  have hstep : sourceStep defs (sourceLanguage defs) = sourceLanguage defs :=
    (sourceStep defs).map_lfp
  rw [← hstep]
  exact ⟨d, hd, rfl, hw⟩

/-- Whatever solves the definitions contains the least solution. -/
theorem sourceLanguage_le {defs : List Definition} {L : String → Language Char}
    (h : ∀ d ∈ defs, d.body.language L ≤ L d.name) : sourceLanguage defs ≤ L := by
  refine (sourceStep defs).lfp_le ?_
  rintro name w ⟨d, hd, rfl, hw⟩
  exact h d hd hw

end EbnfTables
