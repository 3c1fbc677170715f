import EbnfTables.Proofs.Tables.Symbols
import EbnfTables.Proofs.Tables.WellFormed
import EbnfTables.StaticTables

/-!
# Lookup in static tables

The static tables of a compiled grammar answer as the grammar does.

* The symbols are sorted strictly, because no name has two ids (`SymbolTable.pairwise_sorted`);
* in symbols that are sorted strictly, bisection finds what there is
  (`bisect_eq_some_iff`).  Its invariant is that a name can only be between `lo` and `hi`;
* in a rule table without empty slots, the body of an id is what stands at its place
  (`RuleTable.body?_eq_getElem?`).

Main theorem: `staticTables_lookup`.
-/

namespace EbnfTables

/-! ### Bisection -/

section Bisection

variable {symbols : Array (String × RuleId)} {name : String} {id : RuleId}

/-- The places of a table that is sorted strictly are in the order of the names. -/
theorem getElem?_name_lt_iff (hsorted : symbols.toList.Pairwise fun a b => a.1 < b.1) {i j : ℕ}
    {a b : String × RuleId} (hi : symbols[i]? = some a) (hj : symbols[j]? = some b) :
    a.1 < b.1 ↔ i < j := by
  obtain ⟨hi', rfl⟩ := Array.getElem?_eq_some_iff.1 hi
  obtain ⟨hj', rfl⟩ := Array.getElem?_eq_some_iff.1 hj
  have hmono := List.pairwise_iff_getElem.1 hsorted
  refine ⟨fun h => ?_, hmono i j hi' hj'⟩
  rcases lt_trichotomy i j with hlt | rfl | hlt
  · exact hlt
  · exact absurd h (lt_irrefl _)
  · exact absurd h (hmono j i hj' hi' hlt).asymm

/-- Between two places of a table that is sorted strictly, bisection finds the id of a name if and
only if the name stands there. -/
theorem bisect_eq_some_iff (hsorted : symbols.toList.Pairwise fun a b => a.1 < b.1) {lo hi : ℕ}
    (hhi : hi ≤ symbols.size) : bisect symbols name lo hi = some id ↔
      ∃ i, lo ≤ i ∧ i < hi ∧ symbols[i]? = some (name, id) := by
  fun_induction bisect symbols name lo hi with
  | case1 lo hi hlt mid hmid =>
    have hsize := Array.getElem?_eq_none_iff.1 hmid
    omega
  | case2 lo hi hlt mid other id' hmid hcompare =>
    rw [Text.compareNames_eq_compare, compare_eq_iff_eq] at hcompare
    subst hcompare
    constructor
    · intro h
      cases h
      exact ⟨mid, by omega, by omega, hmid⟩
    · rintro ⟨i, -, -, hget⟩
      have hle : mid ≤ i := not_lt.1 (mt (getElem?_name_lt_iff hsorted hget hmid).2 (lt_irrefl _))
      have hge : i ≤ mid := not_lt.1 (mt (getElem?_name_lt_iff hsorted hmid hget).2 (lt_irrefl _))
      rw [hge.antisymm hle, hmid] at hget
      cases hget
      rfl
  | case3 lo hi hlt mid other id' hmid hcompare ih =>
    rw [Text.compareNames_eq_compare, compare_lt_iff_lt] at hcompare
    refine (ih hhi).trans ⟨?_, ?_⟩
    · rintro ⟨i, hi', hget⟩
      exact ⟨i, by omega, hget⟩
    · -- what stands at the middle or before it comes before the name
      rintro ⟨i, -, hi', hget⟩
      exact ⟨i, (getElem?_name_lt_iff hsorted hmid hget).1 hcompare, hi', hget⟩
  | case4 lo hi hlt mid other id' hmid hcompare ih =>
    rw [Text.compareNames_eq_compare, compare_gt_iff_gt] at hcompare
    refine (ih (by omega)).trans ⟨?_, ?_⟩
    · rintro ⟨i, hi', hlt', hget⟩
      exact ⟨i, hi', by omega, hget⟩
    · rintro ⟨i, hi', -, hget⟩
      exact ⟨i, hi', (getElem?_name_lt_iff hsorted hget hmid).1 hcompare, hget⟩
  | case5 lo hi hlt =>
    simp only [reduceCtorEq, false_iff]
    rintro ⟨i, hi', hlt', -⟩
    omega

end Bisection

/-! ### Bodies -/

/-- In a table without empty slots, the body of an id stands at its place. -/
theorem RuleTable.body?_eq_getElem? {t : RuleTable}
    (hfull : ∀ id : RuleId, id.toNat < t.size → ∃ body, t.body? id = some body) (id : RuleId) :
    t.body? id = t.bodies[id.toNat]? := by
  by_cases hid : id.toNat < t.size
  · obtain ⟨body, hbody⟩ := hfull id hid
    have hget : t.bodies[id.toNat]? = some (t.slot id) := by
      rw [slot, List.getD_eq_getElem?_getD, List.getElem?_eq_getElem hid, Option.getD_some]
    have hslot : t.body? id = some (t.slot id) := by
      unfold body? at hbody ⊢
      split at hbody
      · rename_i hdefined
        rw [if_pos hdefined]
      · cases hbody
    rw [hslot, hget]
  · have hget : t.bodies[id.toNat]? = none := List.getElem?_eq_none (Nat.le_of_not_lt hid)
    have hslot : t.slot id = [] := by
      rw [slot, List.getD_eq_getElem?_getD, hget, Option.getD_none]
    rw [hget, body?, isDefined, hslot]
    rfl

/-! ### Static tables -/

namespace StaticTables

theorem id?_ofGrammar {g : Grammar} (hn : g.symbols.names.Nodup) (hlen : g.symbols.size ≤ 2 ^ 32)
    (name : String) : (ofGrammar g).id? name = g.id? name := by
  ext id
  have hsorted : (ofGrammar g).symbols.toList.Pairwise fun a b => a.1 < b.1 :=
    SymbolTable.pairwise_sorted hn
  have hmem : (∃ i, 0 ≤ i ∧ i < (ofGrammar g).symbols.size ∧
      (ofGrammar g).symbols[i]? = some (name, id)) ↔ (name, id) ∈ g.symbols.sorted := by
    rw [List.mem_iff_getElem?]
    constructor
    · rintro ⟨i, -, -, hget⟩
      exact ⟨i, by rwa [ofGrammar, List.getElem?_toArray] at hget⟩
    · rintro ⟨i, hget⟩
      refine ⟨i, Nat.zero_le i, ?_, by rwa [ofGrammar, List.getElem?_toArray]⟩
      exact (List.getElem?_eq_some_iff.1 hget).1
  rw [id?, bisect_eq_some_iff hsorted le_rfl, hmem, g.symbols.sorted_perm.mem_iff,
    SymbolTable.mem_entries_iff_id? hn hlen, Grammar.id?]

end StaticTables

/-- **Static tables answer as the grammar does.**  The symbols of the static tables of a compiled
grammar are sorted strictly by their bytes.  Every name has the id there that it has in the grammar,
or none in either, and so has every id its body. -/
theorem staticTables_lookup (source : String) (options : CompileOptions) (g : Grammar)
    (hlen : source.length < 2 ^ 32) (hok : compile source options = .ok g) :
    ((StaticTables.ofGrammar g).symbols.toList.Pairwise fun a b =>
      Text.bytes a.1 < Text.bytes b.1) ∧
    (∀ name, (StaticTables.ofGrammar g).id? name = g.id? name) ∧
    ∀ id, (StaticTables.ofGrammar g).rule? id = g.rule? id := by
  have h := compile_wellFormed source options g hlen hok
  have hsize : g.symbols.size ≤ 2 ^ 32 := h.size_eq.trans_le h.size_le
  refine ⟨?_, StaticTables.id?_ofGrammar h.nodup hsize, fun id => ?_⟩
  · exact (SymbolTable.pairwise_sorted h.nodup).imp Text.bytes_lt_iff.2
  · rw [Grammar.rule?, RuleTable.body?_eq_getElem? h.exists_body]
    exact List.getElem?_toArray

/-- The names are seen in another order than they are sorted, and `"a_4"` is a name that was
written.  A name between two others is not found, and an id behind the last has no body. -/
theorem staticTables_lookup_four_names :
    ∃ g, compile "b ::= a* a_4\na ::= \"x\"\na_4 ::= a" = .ok g ∧
      (StaticTables.ofGrammar g).symbols = #[("a", 1), ("a_4", 3), ("b", 0), ("b_2", 2)] ∧
      (StaticTables.ofGrammar g).id? "b_2" = g.id? "b_2" ∧
      (StaticTables.ofGrammar g).id? "a_é" = g.id? "a_é" ∧
      (StaticTables.ofGrammar g).rule? 3 = g.rule? 3 ∧
      (StaticTables.ofGrammar g).rule? 4 = g.rule? 4 := by
  have hok : compile "b ::= a* a_4\na ::= \"x\"\na_4 ::= a" =
      .ok ⟨⟨["b", "a", "b_2", "a_4"]⟩, ⟨[
        [.ruleRef 2, .ruleRef 3, .stop],
        [.char 'x', .stop],
        [.ruleRef 1, .ruleRef 2, .alt, .stop],
        [.ruleRef 1, .stop]]⟩⟩ := by decide +kernel
  have hsorted : SymbolTable.sorted ⟨["b", "a", "b_2", "a_4"]⟩ =
      [("a", 1), ("a_4", 3), ("b", 0), ("b_2", 2)] :=
    SymbolTable.sorted_eq_of_perm (by decide) (by decide +kernel) (by decide +kernel)
  obtain ⟨-, hid, hrule⟩ := staticTables_lookup _ {} _ (by decide +kernel) hok
  exact ⟨_, hok, congrArg List.toArray hsorted, hid _, hid _, hrule _, hrule _⟩

end EbnfTables
