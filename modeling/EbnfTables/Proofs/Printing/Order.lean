import Mathlib.Data.List.Nodup
import Mathlib.Data.List.Infix
import Mathlib.Data.List.Perm.Subperm
import Mathlib.Logic.Function.Iterate

/-!
# The order in which names are seen

A row of definitions shows its names one after the other: the name of the first definition, the
names that its right side refers to, the name of the second definition, and so on.  `seenOrder`
lists them in the order in which they are first seen, if the definitions come in the order `names`
and `links` tells what a name refers to.

Defining the names in this order shows them in yet another order.  Main result:
`iterate_seenOrder_eq`.  After as many rounds as there are names the order does not change any more.
For at each round the names at the front that will never move again become more: what they refer to
is seen in a fixed order, and if that is nothing new, the next name stays where it is
(`exists_longer_prefix`).
-/

namespace EbnfTables

/-! ### First occurrences -/

theorem nodup_eraseDups (names : List String) : names.eraseDups.Nodup := by
  match names with
  | [] => exact List.nodup_nil
  | name :: names =>
    rw [List.eraseDups_cons, List.nodup_cons]
    constructor
    · intro hmem
      rw [List.mem_eraseDups, List.mem_filter] at hmem
      simp at hmem
    · exact nodup_eraseDups _
termination_by names.length
decreasing_by exact Nat.lt_succ_of_le (List.length_filter_le _ _)

theorem eraseDups_isPrefix {names names' : List String} (h : names <+: names') :
    names.eraseDups <+: names'.eraseDups := by
  obtain ⟨more, rfl⟩ := h
  rw [List.eraseDups_append]
  exact List.prefix_append _ _

/-- A name that is seen for the first time comes next. -/
theorem eraseDups_append_cons {names : List String} {name : String} (h : name ∉ names)
    (more : List String) :
    ∃ rest, (names ++ name :: more).eraseDups = names.eraseDups ++ name :: rest := by
  rw [List.eraseDups_append, List.cons_removeAll, if_pos (by simpa using h), List.eraseDups_cons]
  exact ⟨_, rfl⟩

/-! ### Names and what they refer to -/

variable (links : String → List String)

/-- The order in which names are first seen, if they are defined in the order `names`. -/
def seenOrder (names : List String) : List String :=
  (names.flatMap fun name => name :: links name).eraseDups

variable {links} {names names' p : List String}

theorem nodup_seenOrder (names : List String) : (seenOrder links names).Nodup :=
  nodup_eraseDups _

theorem seenOrder_isPrefix (h : names <+: names') :
    seenOrder links names <+: seenOrder links names' := by
  obtain ⟨more, rfl⟩ := h
  rw [seenOrder, seenOrder, List.flatMap_append]
  exact eraseDups_isPrefix (List.prefix_append _ _)

theorem subset_seenOrder (links : String → List String) (names : List String) :
    names ⊆ seenOrder links names := by
  intro name hname
  rw [seenOrder, List.mem_eraseDups, List.mem_flatMap]
  exact ⟨name, hname, List.mem_cons_self⟩

/-- If only names that are defined are referred to, no others are seen. -/
theorem mem_seenOrder_iff (hlinks : ∀ name ∈ names, links name ⊆ names) {name : String} :
    name ∈ seenOrder links names ↔ name ∈ names := by
  refine ⟨fun h => ?_, fun h => subset_seenOrder links names h⟩
  rw [seenOrder, List.mem_eraseDups, List.mem_flatMap] at h
  obtain ⟨name', hname', h⟩ := h
  rcases List.mem_cons.1 h with rfl | h
  · exact hname'
  · exact hlinks name' hname' h

theorem seenOrder_perm (hn : names.Nodup) (hlinks : ∀ name ∈ names, links name ⊆ names) :
    (seenOrder links names).Perm names :=
  (List.perm_ext_iff_of_nodup (nodup_seenOrder names) hn).2 fun _ => mem_seenOrder_iff hlinks

/-- Names that only refer to each other are seen before the name behind them. -/
theorem seenOrder_concat (hp : seenOrder links p = p) {name : String} (hname : name ∉ p) :
    p ++ [name] <+: seenOrder links (p ++ [name]) := by
  have hnew : name ∉ p.flatMap fun name => name :: links name := by
    intro hmem
    refine hname ?_
    rw [← hp, seenOrder, List.mem_eraseDups]
    exact hmem
  obtain ⟨rest, hrest⟩ := eraseDups_append_cons hnew (links name)
  have heq : seenOrder links (p ++ [name]) = p ++ name :: rest := by
    rw [seenOrder, List.flatMap_append, List.flatMap_singleton, hrest, ← seenOrder, hp]
  rw [heq]
  exact ⟨rest, by simp⟩

/-! ### Repetition -/

theorem iterate_seenOrder_perm (hn : names.Nodup) (hlinks : ∀ name ∈ names, links name ⊆ names)
    (k : ℕ) : ((seenOrder links)^[k] names).Perm names := by
  induction k with
  | zero => exact List.Perm.refl names
  | succ k ih =>
    rw [Function.iterate_succ_apply']
    refine (seenOrder_perm (ih.nodup_iff.2 hn) fun name hname => ?_).trans ih
    exact List.Subset.trans (hlinks name (ih.mem_iff.1 hname)) ih.symm.subset

/-- Names at the front that stayed where they were in one round are followed by another such name
in the next round, unless these are all names. -/
theorem exists_longer_prefix (hn : names.Nodup) (hp : p <+: names)
    (hp' : p <+: seenOrder links names) (hne : p ≠ names) :
    ∃ q, q <+: seenOrder links names ∧ q <+: seenOrder links (seenOrder links names) ∧
      p.length < q.length := by
  have hle : p.length ≤ (seenOrder links p).length :=
    ((hn.sublist hp.sublist).subperm (subset_seenOrder links p)).length_le
  rcases hle.lt_or_eq with hlt | heq
  · exact ⟨seenOrder links p, seenOrder_isPrefix hp, seenOrder_isPrefix hp', hlt⟩
  · -- the names at the front refer only to each other, so the name behind them stays as well
    have hclosed : seenOrder links p = p :=
      ((List.prefix_of_prefix_length_le hp' (seenOrder_isPrefix hp) hle).eq_of_length heq).symm
    obtain ⟨more, rfl⟩ := hp
    cases more with
    | nil => exact absurd (List.append_nil p).symm hne
    | cons name more =>
      have hname : name ∉ p := fun hmem =>
        (List.nodup_append.1 hn).2.2 name hmem name List.mem_cons_self rfl
      have hseen : p ++ [name] <+: seenOrder links (p ++ name :: more) :=
        (seenOrder_concat hclosed hname).trans (seenOrder_isPrefix ⟨more, by simp⟩)
      refine ⟨p ++ [name], hseen, ?_, by simp⟩
      exact (seenOrder_concat hclosed hname).trans (seenOrder_isPrefix hseen)

/-- After `k` rounds, at least `k + 1` names at the front stay where they are in the next round, or
all of them do. -/
theorem exists_common_prefix (hn : names.Nodup) (hlinks : ∀ name ∈ names, links name ⊆ names)
    (k : ℕ) :
    ∃ p, p <+: (seenOrder links)^[k] names ∧ p <+: (seenOrder links)^[k + 1] names ∧
      (k < p.length ∨ p = (seenOrder links)^[k] names) := by
  induction k with
  | zero =>
    cases names with
    | nil => exact ⟨[], List.nil_prefix, List.nil_prefix, .inr rfl⟩
    | cons name names =>
      have hfirst : [name] <+: seenOrder links [name] :=
        seenOrder_concat (p := []) rfl List.not_mem_nil
      refine ⟨[name], ⟨names, rfl⟩, ?_, .inl Nat.zero_lt_one⟩
      exact hfirst.trans (seenOrder_isPrefix ⟨names, rfl⟩)
  | succ k ih =>
    obtain ⟨p, hp, hp', h⟩ := ih
    have hperm := iterate_seenOrder_perm hn hlinks k
    have hperm' := iterate_seenOrder_perm hn hlinks (k + 1)
    by_cases hall : p = (seenOrder links)^[k] names
    · -- nothing moved in this round, so nothing moves in the next
      have hfix : (seenOrder links)^[k + 1] names = (seenOrder links)^[k] names :=
        ((hall ▸ hp').eq_of_length (hperm.trans hperm'.symm).length_eq).symm
      refine ⟨_, List.prefix_rfl, ?_, .inr rfl⟩
      rw [Function.iterate_succ_apply' _ (k + 1), hfix,
        ← Function.iterate_succ_apply' (seenOrder links) k names, hfix]
    · rw [Function.iterate_succ_apply'] at hp'
      obtain ⟨q, hq, hq', hlt⟩ := exists_longer_prefix (hperm.nodup_iff.2 hn) hp hp' hall
      rw [Function.iterate_succ_apply' _ (k + 1), Function.iterate_succ_apply' _ k]
      have hk := h.resolve_right hall
      exact ⟨q, hq, hq', .inl (by omega)⟩

/-- **After as many rounds as there are names, less one, the order stays as it is.** -/
theorem iterate_seenOrder_eq (hn : names.Nodup) (hlinks : ∀ name ∈ names, links name ⊆ names)
    {k : ℕ} (hk : names.length ≤ k + 1) :
    (seenOrder links)^[k + 1] names = (seenOrder links)^[k] names := by
  obtain ⟨p, hp, hp', h⟩ := exists_common_prefix hn hlinks k
  have hlen := (iterate_seenOrder_perm hn hlinks k).length_eq
  have hlen' := (iterate_seenOrder_perm hn hlinks (k + 1)).length_eq
  have hle : names.length ≤ p.length := by
    rcases h with h | rfl
    · omega
    · exact hlen.ge
  rw [← hp.eq_of_length_le (by omega), ← hp'.eq_of_length_le (by omega)]

end EbnfTables
