import EbnfTables.Proofs.Tables.StaticLookup

/-!
# Flattened tables

All bodies of a grammar stand in one list, and the offsets say where each of them starts.  Nothing
is lost by this.

* `FlatRules.Holds f bodies` is the invariant of the loop that lays the bodies out: an offset is the
  number of elements in front of its body (`FlatRules.Holds.push`, `FlatRules.Holds.foldl_push`);
* `FlatRules.body?` cuts a body out again, between its offset and the next one
  (`FlatRules.Holds.body?_eq`);
* the end closes every body and stands nowhere else in it, so the offsets are known from the list of
  elements: the first body starts at 0, and each of the others behind an end
  (`FlatRules.Holds.offsets_concat`).

Main theorem: `compile_flatten`.
-/

namespace EbnfTables

/-- A body ends with the end and has no other. -/
def Body.IsClosed (body : Body) : Prop :=
  ∃ front, body = front ++ [.stop] ∧ ∀ e ∈ front, e.kind ≠ .stop

/-- The places behind the ends in a list of elements. -/
def behindStops (elements : List Element) : List ℕ :=
  (elements.findIdxs fun e => e.kind = .stop).map (· + 1)

/-- What stands from one offset up to the next one, or up to the end of the elements. -/
def FlatRules.body? (f : FlatRules) (i : ℕ) : Option Body :=
  f.offsets[i]?.map fun start =>
    (f.elements.take (f.offsets.getD (i + 1) f.elements.length)).drop start

/-! ### Ends -/

/-- A body that is put behind others adds one end, at its own end. -/
theorem behindStops_append {body : Body} (h : body.IsClosed) (elements : List Element) :
    behindStops (elements ++ body) =
      behindStops elements ++ [elements.length + body.length] := by
  obtain ⟨front, rfl, hfront⟩ := h
  have hnone : front.findIdxs (fun e => decide (e.kind = .stop)) elements.length = [] := by
    rw [List.findIdxs_eq_nil_iff]
    intro e he
    exact decide_eq_false (hfront e he)
  have hstop : decide (Element.stop.kind = .stop) = true := rfl
  unfold behindStops
  rw [List.findIdxs_append, List.findIdxs_append, Nat.zero_add, hnone, List.nil_append,
    List.findIdxs_singleton, if_pos hstop, List.map_append, List.length_append,
    List.length_singleton]
  rfl

theorem pairwise_behindStops (elements : List Element) :
    (0 :: behindStops elements).Pairwise (· < ·) := by
  rw [List.pairwise_cons]
  constructor
  · intro i hi
    obtain ⟨j, -, rfl⟩ := List.mem_map.1 hi
    exact j.succ_pos
  · exact List.pairwise_map.2 (List.pairwise_findIdxs.imp Nat.succ_lt_succ)

namespace FlatRules

/-! ### The loop -/

/-- `f` holds `bodies` one behind the other, and each offset is the number of elements in front of a
body. -/
structure Holds (f : FlatRules) (bodies : List Body) : Prop where
  elements_eq : f.elements = bodies.flatten
  offsets_eq : f.offsets = (List.range bodies.length).map fun i => (bodies.take i).flatten.length

namespace Holds

variable {f : FlatRules} {bodies : List Body}

theorem empty : Holds .empty [] := ⟨rfl, rfl⟩

theorem push (h : Holds f bodies) (body : Body) : Holds (f.push body) (bodies ++ [body]) := by
  constructor
  · rw [FlatRules.push, h.elements_eq, List.flatten_append, List.flatten_singleton]
  · have hearlier : ((List.range bodies.length).map fun i => (bodies.take i).flatten.length) =
        (List.range bodies.length).map fun i => ((bodies ++ [body]).take i).flatten.length := by
      refine List.map_congr_left fun i hi => ?_
      rw [List.take_append_of_le_length (List.mem_range.1 hi).le]
    rw [FlatRules.push, h.offsets_eq, h.elements_eq, hearlier, List.length_append,
      List.length_singleton, List.range_succ, List.map_append, List.map_singleton, List.take_left]

/-- What is held first is kept, and all bodies come behind it. -/
theorem foldl_push (h : Holds f bodies) (more : List Body) :
    Holds (more.foldl .push f) (bodies ++ more) := by
  induction more generalizing f bodies with
  | nil =>
    rw [List.append_nil]
    exact h
  | cons body more ih =>
    rw [List.append_cons]
    exact ih (h.push body)

theorem length_offsets (h : Holds f bodies) : f.offsets.length = bodies.length := by
  rw [h.offsets_eq, List.length_map, List.length_range]

theorem offsets_getElem? (h : Holds f bodies) {i : ℕ} (hi : i < bodies.length) :
    f.offsets[i]? = some (bodies.take i).flatten.length := by
  rw [h.offsets_eq, List.getElem?_map, List.getElem?_range hi, Option.map_some]

/-- A body ends where the next one starts, and the last one at the end of the elements. -/
theorem offsets_getD (h : Holds f bodies) (i : ℕ) :
    f.offsets.getD (i + 1) f.elements.length = (bodies.take (i + 1)).flatten.length := by
  rw [List.getD_eq_getElem?_getD]
  rcases Nat.lt_or_ge (i + 1) bodies.length with hlt | hge
  · rw [h.offsets_getElem? hlt, Option.getD_some]
  · rw [List.getElem?_eq_none (h.length_offsets.trans_le hge), Option.getD_none, h.elements_eq,
      List.take_of_length_le hge]

/-- Every body is cut out as it was put in. -/
theorem body?_eq (h : Holds f bodies) (i : ℕ) : f.body? i = bodies[i]? := by
  rcases Nat.lt_or_ge i bodies.length with hi | hi
  · have htake : f.elements.take (bodies.take (i + 1)).flatten.length =
        (bodies.take i).flatten ++ bodies[i] := by
      have hsplit : bodies.flatten =
          (bodies.take (i + 1)).flatten ++ (bodies.drop (i + 1)).flatten := by
        rw [← List.flatten_append, List.take_append_drop]
      rw [h.elements_eq, hsplit, List.take_left, List.take_succ_eq_append_getElem hi,
        List.flatten_append, List.flatten_singleton]
    rw [FlatRules.body?, h.offsets_getElem? hi, Option.map_some, h.offsets_getD, htake,
      List.drop_left, List.getElem?_eq_getElem hi]
  · rw [FlatRules.body?, List.getElem?_eq_none (h.length_offsets.trans_le hi), Option.map_none,
      List.getElem?_eq_none hi]

/-- The bodies start at 0 and behind the ends; the place behind the last end is the end of the
elements. -/
theorem offsets_concat (h : Holds f bodies) (hclosed : ∀ body ∈ bodies, body.IsClosed) :
    f.offsets ++ [f.elements.length] = 0 :: behindStops f.elements := by
  rw [h.offsets_eq, h.elements_eq]
  clear h
  induction bodies using List.reverseRecOn with
  | nil => rfl
  | append_singleton bodies body ih =>
    rw [List.forall_mem_append, List.forall_mem_singleton] at hclosed
    have hheld : Holds ⟨bodies.flatten, _⟩ bodies := ⟨rfl, rfl⟩
    have hpush := (hheld.push body).offsets_eq
    rw [← hpush, FlatRules.push, ih hclosed.1, List.flatten_append, List.flatten_singleton,
      behindStops_append hclosed.2, List.length_append, List.cons_append]

theorem offsets_eq_dropLast (h : Holds f bodies) (hclosed : ∀ body ∈ bodies, body.IsClosed)
    (hne : bodies ≠ []) : f.offsets = 0 :: (behindStops f.elements).dropLast := by
  have hconcat := h.offsets_concat hclosed
  have hbehind : behindStops f.elements ≠ [] := by
    intro hnil
    have hlength := congrArg List.length hconcat
    rw [hnil, List.length_append, List.length_singleton, List.length_singleton, h.length_offsets]
      at hlength
    exact hne (List.length_eq_zero_iff.1 (Nat.succ.inj hlength))
  rw [← List.dropLast_cons_of_ne_nil hbehind, ← hconcat, List.dropLast_concat]

theorem pairwise_offsets (h : Holds f bodies) (hclosed : ∀ body ∈ bodies, body.IsClosed) :
    f.offsets.Pairwise (· < ·) := by
  have hpairwise := pairwise_behindStops f.elements
  rw [← h.offsets_concat hclosed] at hpairwise
  exact hpairwise.sublist (List.sublist_append_left _ _)

/-- There is one way to divide elements into bodies. -/
theorem bodies_eq {f' : FlatRules} {bodies' : List Body} (h : Holds f bodies)
    (h' : Holds f' bodies') (hclosed : ∀ body ∈ bodies, body.IsClosed)
    (hclosed' : ∀ body ∈ bodies', body.IsClosed) (heq : f.elements = f'.elements) :
    bodies = bodies' := by
  have hoffsets : f.offsets = f'.offsets := by
    have hconcat := h.offsets_concat hclosed
    rw [heq, ← h'.offsets_concat hclosed'] at hconcat
    exact List.append_cancel_right hconcat
  refine List.ext_getElem? fun i => ?_
  rw [← h.body?_eq, ← h'.body?_eq, FlatRules.body?, FlatRules.body?, hoffsets, heq]

end Holds

end FlatRules

/-! ### Compiled grammars -/

theorem Grammar.holds_flatten (g : Grammar) : g.flatten.Holds g.rules.bodies :=
  FlatRules.Holds.empty.foldl_push g.rules.bodies

/-- Well formed tables with equal elements are equal. -/
theorem Grammar.WellFormed.rules_eq_of_elements_eq {g g' : Grammar} (h : g.WellFormed)
    (h' : g'.WellFormed) (heq : g.flatten.elements = g'.flatten.elements) : g.rules = g'.rules :=
  congrArg RuleTable.mk (g.holds_flatten.bodies_eq g'.holds_flatten
    (fun body hbody => (h.body body hbody).stop) (fun body hbody => (h'.body body hbody).stop) heq)

/-- **Flattening loses nothing.**  The offsets of a compiled grammar start at 0 and increase, and
between one and the next stands the body of the rule.  They are known from the elements alone: the
first body starts at 0, and each of the others behind an end.  So two compiled grammars have the
same rule table if and only if they are flattened alike, and they agree if and only if moreover
their symbol tables do. -/
theorem compile_flatten (source : String) (options : CompileOptions) (g : Grammar)
    (hlen : source.length < 2 ^ 32) (hok : compile source options = .ok g) :
    (g.flatten.offsets.length = g.size ∧ g.flatten.offsets.head? = some 0 ∧
      g.flatten.offsets.Pairwise (· < ·)) ∧
    (∀ id : RuleId, id.toNat < g.size →
      ∃ body, g.rule? id = some body ∧ g.flatten.body? id.toNat = some body) ∧
    g.flatten.offsets = 0 :: (behindStops g.flatten.elements).dropLast ∧
    ∀ source' options' g', source'.length < 2 ^ 32 → compile source' options' = .ok g' →
      (g.flatten = g'.flatten ↔ g.rules = g'.rules) ∧
      (g.flatten.elements = g'.flatten.elements ↔ g.rules = g'.rules) ∧
      (g.agrees g' = true ↔
        g.flatten = g'.flatten ∧ g.symbols.agrees g'.symbols = true) := by
  have hwell := compile_wellFormed source options g hlen hok
  have hheld := g.holds_flatten
  have hclosed : ∀ body ∈ g.rules.bodies, body.IsClosed :=
    fun body hbody => (hwell.body body hbody).stop
  have hstarts : g.flatten.offsets = 0 :: (behindStops g.flatten.elements).dropLast :=
    hheld.offsets_eq_dropLast hclosed (List.ne_nil_of_length_pos hwell.one_le_size)
  refine ⟨⟨hheld.length_offsets, by rw [hstarts, List.head?_cons],
    hheld.pairwise_offsets hclosed⟩, ?_, hstarts, ?_⟩
  · intro id hid
    obtain ⟨body, hbody⟩ := hwell.exists_body id hid
    refine ⟨body, hbody, ?_⟩
    rw [hheld.body?_eq, ← RuleTable.body?_eq_getElem? hwell.exists_body]
    exact hbody
  · intro source' options' g' hlen' hok'
    have hwell' := compile_wellFormed source' options' g' hlen' hok'
    have hflatten (hrules : g.rules = g'.rules) : g.flatten = g'.flatten := by
      rw [Grammar.flatten, Grammar.flatten, hrules]
    have helements : g.flatten.elements = g'.flatten.elements → g.rules = g'.rules :=
      hwell.rules_eq_of_elements_eq hwell'
    have hiff : g.flatten = g'.flatten ↔ g.rules = g'.rules :=
      ⟨fun heq => helements (congrArg FlatRules.elements heq), hflatten⟩
    refine ⟨hiff, ⟨helements, fun hrules => ?_⟩, ?_⟩
    · rw [hflatten hrules]
    · rw [Grammar.agrees, Bool.and_eq_true, beq_iff_eq, hiff, and_comm]

/-- A rule that is referred to before it is defined, and one that is generated.  Another source has
the same rule table for other names. -/
theorem compile_flatten_three_rules :
    ∃ g g', compile "b ::= a a+\na ::= \"x\" |" = .ok g ∧
      compile "one ::= two two+\ntwo ::= [\\x78] | \"\"" = .ok g' ∧
      g.flatten.offsets = [0, 3, 6] ∧
      g.flatten.offsets = 0 :: (behindStops g.flatten.elements).dropLast ∧
      (∃ body, g.rule? 2 = some body ∧ g.flatten.body? 2 = some body) ∧
      g.flatten = g'.flatten ∧ g.agrees g' = false := by
  have hok : compile "b ::= a a+\na ::= \"x\" |" = .ok ⟨⟨["b", "a", "b_2"]⟩, ⟨[
      [.ruleRef 1, .ruleRef 2, .stop],
      [.char 'x', .alt, .stop],
      [.ruleRef 1, .ruleRef 2, .alt, .ruleRef 1, .stop]]⟩⟩ := by decide +kernel
  have hok' : compile "one ::= two two+\ntwo ::= [\\x78] | \"\"" =
      .ok ⟨⟨["one", "two", "one_2"]⟩, ⟨[
        [.ruleRef 1, .ruleRef 2, .stop],
        [.char 'x', .alt, .stop],
        [.ruleRef 1, .ruleRef 2, .alt, .ruleRef 1, .stop]]⟩⟩ := by decide +kernel
  obtain ⟨-, hbodies, hstarts, hall⟩ := compile_flatten _ _ _ (by decide +kernel) hok
  obtain ⟨hflatten, -, hagrees⟩ := hall _ _ _ (by decide +kernel) hok'
  refine ⟨_, _, hok, hok', by decide, hstarts, hbodies 2 (by decide), hflatten.2 rfl, ?_⟩
  rw [← Bool.not_eq_true, hagrees]
  rintro ⟨-, hsymbols⟩
  exact absurd hsymbols (by decide +kernel)

end EbnfTables
