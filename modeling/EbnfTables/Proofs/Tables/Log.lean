import EbnfTables.Proofs.Tables.References

/-!
# The log accounts for every rule

What a compilation notes in its log, whether it succeeds or not.

* Building an expression only adds to the log (`Expr.grows_build`).  The notes that it adds are
  `Allocations`: they are about generated rules, whose names begin with the name of the definition at
  hand and the id, and whose ids are increasing places in the symbol table;
* a log is `Settled` if it ends with a finished definition.  A log of finished definitions is
  settled, and behind it there may be the allocations of one that was begun
  (`Reading.isLog_build`);
* with each rule that has a body, the log of a row of definitions notes its id once
  (`ElaboratesAll.noted_perm`).

Main theorem: `run_events_account`.
-/

namespace EbnfTables

namespace Event

/-- The rule that a note is about. -/
def rule? : Event → Option (String × RuleId)
  | allocated name id | compiledRule name id => some (name, id)
  | compiledGrammar _ _ => none

/-- The id of the rule that a note says was generated. -/
def allocatedId? : Event → Option RuleId
  | allocated _ id => some id
  | compiledRule _ _ | compiledGrammar _ _ => none

/-- The name of the definition that a note says is finished. -/
def compiledName? : Event → Option String
  | compiledRule name _ => some name
  | allocated _ _ | compiledGrammar _ _ => none

/-- The note is about a rule whose name was generated from `base` and its id. -/
def IsAllocation (base : String) (e : Event) : Prop :=
  ∃ name id, e = allocated name id ∧
    (base ++ "_" ++ toString id.toNat).toList <+: name.toList

theorem IsAllocation.compiledName?_eq {base : String} {e : Event} (h : e.IsAllocation base) :
    e.compiledName? = none := by
  obtain ⟨name, id, rfl, -⟩ := h
  rfl

end Event

/-! ### Generated names -/

theorem SymbolTable.exists_firstFree_eq (taken : List String) (mark : String) (trials : ℕ)
    (name : String) : ∃ n, firstFree taken mark trials name = marked name mark n := by
  induction trials generalizing name with
  | zero => exact ⟨0, rfl⟩
  | succ trials ih =>
    rw [firstFree]
    split
    · obtain ⟨n, hn⟩ := ih (name ++ mark)
      exact ⟨n + 1, by rw [hn, marked_append]⟩
    · exact ⟨0, rfl⟩

theorem isPrefix_marked (base mark : String) (n : ℕ) :
    base.toList <+: (marked base mark n).toList := by
  induction n with
  | zero => exact List.prefix_rfl
  | succ n ih =>
    rw [marked, String.toList_append]
    exact ih.trans (List.prefix_append _ _)

/-- A generated name begins with its base and its id. -/
theorem SymbolTable.isPrefix_freshName (t : SymbolTable) (base : String) :
    (base ++ "_" ++ toString t.nextId.toNat).toList <+: (t.freshName base).toList := by
  obtain ⟨n, hn⟩ := exists_firstFree_eq t.names ("_" ++ toString t.nextId.toNat) t.size
    (base ++ ("_" ++ toString t.nextId.toNat))
  rw [String.append_assoc]
  show _ <+: (firstFree _ _ _ _).toList
  rw [hn]
  exact isPrefix_marked _ _ n

/-! ### Notes about generated rules -/

/-- The ids that are noted as generated are increasing places of the symbol table, from `lo` on and
before `hi`. -/
def AllocatesWithin (lo hi : ℕ) (es : List Event) : Prop :=
  ∃ places : List ℕ, es.filterMap Event.allocatedId? = places.map Nat.toUInt32 ∧
    places.Pairwise (· < ·) ∧ ∀ i ∈ places, lo ≤ i ∧ i < hi

namespace AllocatesWithin

variable {lo mid hi : ℕ} {es es' : List Event}

theorem nil : AllocatesWithin lo hi [] := ⟨[], rfl, .nil, by simp⟩

theorem mono {lo' hi' : ℕ} (h : AllocatesWithin lo hi es) (hlo : lo' ≤ lo) (hhi : hi ≤ hi') :
    AllocatesWithin lo' hi' es := by
  obtain ⟨places, heq, hlt, hplaces⟩ := h
  refine ⟨places, heq, hlt, fun i hi => ?_⟩
  have := hplaces i hi
  omega

theorem append (h : AllocatesWithin lo mid es) (h' : AllocatesWithin mid hi es') (hlo : lo ≤ mid)
    (hhi : mid ≤ hi) : AllocatesWithin lo hi (es ++ es') := by
  obtain ⟨places, heq, hlt, hplaces⟩ := h
  obtain ⟨places', heq', hlt', hplaces'⟩ := h'
  refine ⟨places ++ places', by rw [List.filterMap_append, heq, heq', List.map_append], ?_, ?_⟩
  · refine List.pairwise_append.2 ⟨hlt, hlt', fun i hi j hj => ?_⟩
    have := hplaces i hi
    have := hplaces' j hj
    omega
  · intro i hi
    rcases List.mem_append.1 hi with hi | hi
    · have := hplaces i hi
      omega
    · have := hplaces' i hi
      omega

/-- Where nothing is generated, nothing changes. -/
theorem concat (h : AllocatesWithin lo hi es) {e : Event} (he : e.allocatedId? = none) :
    AllocatesWithin lo hi (es ++ [e]) := by
  obtain ⟨places, heq, hplaces⟩ := h
  exact ⟨places, by rw [List.filterMap_append, heq]; simp [he], hplaces⟩

/-- If the ids suffice, they are increasing themselves. -/
theorem pairwise (h : AllocatesWithin lo hi es) (hhi : hi ≤ 2 ^ 32) :
    (es.filterMap Event.allocatedId?).Pairwise (· < ·) := by
  obtain ⟨places, heq, hlt, hplaces⟩ := h
  rw [heq, List.pairwise_map]
  refine hlt.imp_of_mem fun {i j} hi hj hij => ?_
  have hi := (hplaces i hi).2
  have hj := (hplaces j hj).2
  rw [UInt32.lt_iff_toNat_lt, toNat_toUInt32_of_lt (by omega), toNat_toUInt32_of_lt (by omega)]
  exact hij

end AllocatesWithin

/-- Notes about rules that are generated inside the definition of `base`, while the number of names
grows from `lo` to `hi`. -/
structure Allocations (base : String) (lo hi : ℕ) (es : List Event) : Prop where
  le : lo ≤ hi
  within : AllocatesWithin lo hi es
  isAllocation : ∀ e ∈ es, e.IsAllocation base

namespace Allocations

variable {base : String} {lo mid hi : ℕ} {es es' : List Event}

theorem nil (h : lo ≤ hi) : Allocations base lo hi [] := ⟨h, .nil, by simp⟩

theorem append (h : Allocations base lo mid es) (h' : Allocations base mid hi es') :
    Allocations base lo hi (es ++ es') :=
  ⟨h.le.trans h'.le, h.within.append h'.within h.le h'.le,
    List.forall_mem_append.2 ⟨h.isAllocation, h'.isAllocation⟩⟩

theorem mono {hi' : ℕ} (h : Allocations base lo hi es) (hhi : hi ≤ hi') :
    Allocations base lo hi' es :=
  ⟨h.le.trans hhi, h.within.mono le_rfl hhi, h.isAllocation⟩

theorem compiledGrammar_notMem (h : Allocations base lo hi es) (symbols rules : ℕ) :
    .compiledGrammar symbols rules ∉ es := by
  intro hmem
  obtain ⟨_, _, heq, -⟩ := h.isAllocation _ hmem
  cases heq

theorem fresh (t : SymbolTable) (base : String) :
    Allocations base t.size (t.size + 1) [.allocated (t.freshName base) t.nextId] := by
  refine ⟨Nat.le_succ _, ⟨[t.size], rfl, List.pairwise_singleton _ _, by simp⟩, ?_⟩
  rw [List.forall_mem_singleton]
  exact ⟨_, _, rfl, t.isPrefix_freshName base⟩

end Allocations

namespace Builder

/-- From `b` to `b'`, rules are generated inside the definition of `base`. -/
def Grows (base : String) (b b' : Builder) : Prop :=
  ∃ es, b'.events = b.events ++ es ∧ Allocations base b.symbols.size b'.symbols.size es

namespace Grows

variable {base : String} {b b' b'' : Builder}

theorem of_events_eq (hevents : b'.events = b.events) (hsize : b.symbols.size ≤ b'.symbols.size) :
    Grows base b b' :=
  ⟨[], by rw [hevents, List.append_nil], .nil hsize⟩

theorem refl (b : Builder) : Grows base b b := of_events_eq rfl le_rfl

theorem trans (h : Grows base b b') (h' : Grows base b' b'') : Grows base b b'' := by
  obtain ⟨es, heq, hes⟩ := h
  obtain ⟨es', heq', hes'⟩ := h'
  exact ⟨es ++ es', by rw [heq', heq, List.append_assoc], hes.append hes'⟩

theorem define (h : Grows base b b') (id : RuleId) (body : Body) :
    Grows base b (b'.define id body) := h

theorem intern (b : Builder) (name : String) : Grows base b (b.intern name).2 :=
  of_events_eq rfl (b.symbols.le_size_intern name)

theorem fresh (b : Builder) : Grows base b (b.fresh base).2 := by
  refine ⟨_, rfl, ?_⟩
  have hsize : (b.fresh base).2.symbols.size = b.symbols.size + 1 := b.symbols.size_fresh base
  rw [hsize]
  exact .fresh b.symbols base

end Grows

end Builder

open Builder (Grows)

theorem Expr.grows_build {level : Level} (e : Expr level) (base : String) (b : Builder) :
    Grows base b (e.build base b).2 := by
  induction e generalizing b with
  | literal | charClass | nothing => exact .refl b
  | ref name => exact .intern b name
  | group body ih => exact ((Grows.fresh b).trans (ih _)).define _ _
  | repeated q operand ih => exact ((ih b).trans (.fresh _)).define _ _
  | only _ ih => exact ih b
  | snoc _ _ ihfront ihlast | orElse _ _ ihfront ihlast => exact (ihfront b).trans (ihlast _)

namespace Builder

theorem grows_addFrames (base : String) (finished : Bool) (frames : List Frame) (id : RuleId)
    (b : Builder) : Grows base b (addFrames base finished frames id b) := by
  induction frames generalizing id b with
  | nil => exact .refl b
  | cons f frames ih =>
    have hf := f.body.grows_build base b
    cases frames with
    | nil =>
      simp only [addFrames]
      split
      · exact hf.define _ _
      · exact hf
    | cons g frames => exact (hf.trans (.fresh _)).trans (ih _ _)

theorem grows_addOpenDefinition (b : Builder) (d : OpenDefinition) :
    Grows d.name b (b.addOpenDefinition d).1 := by
  have hintern : Grows d.name b (b.intern d.name).2 := .intern b d.name
  unfold addOpenDefinition
  by_cases hdefined : (b.intern d.name).2.rules.isDefined (b.intern d.name).1
  · simpa only [hdefined, if_true] using hintern
  · simp only [hdefined, Bool.false_eq_true, if_false]
    exact hintern.trans (grows_addFrames _ _ _ _ _)

end Builder

/-! ### Logs of definitions -/

/-- A member of two lists in a row is a member of the first or of the second. -/
theorem append_eq_append_cons_cases {α : Type} {as bs before after : List α} {a : α}
    (h : as ++ bs = before ++ a :: after) :
    (∃ more, as = before ++ a :: more ∧ after = more ++ bs) ∨
      ∃ more, before = as ++ more ∧ bs = more ++ a :: after := by
  rcases List.append_eq_append_iff.1 h with ⟨more, hbefore, hbs⟩ | ⟨more, has, hmore⟩
  · exact .inr ⟨more, hbefore, hbs⟩
  · cases more with
    | nil => exact .inr ⟨[], by simp [has], hmore.symm⟩
    | cons c more =>
      obtain ⟨rfl, rfl⟩ := List.cons.inj hmore
      exact .inl ⟨more, has, rfl⟩

/-- A log that ends with a finished definition, when there are `n` names. -/
inductive Settled : ℕ → List Event → Prop
  | nil {n : ℕ} : Settled n []
  | definition {lo hi : ℕ} {done new : List Event} {base : String} {id : RuleId}
      (hdone : Settled lo done) (hnew : Allocations base lo hi new) :
      Settled hi (done ++ (new ++ [.compiledRule base id]))

namespace Settled

variable {n : ℕ} {es : List Event}

theorem mono (h : Settled n es) {m : ℕ} (hle : n ≤ m) : Settled m es := by
  cases h with
  | nil => exact .nil
  | definition hdone hnew => exact .definition hdone (hnew.mono hle)

theorem allocatesWithin (h : Settled n es) : AllocatesWithin 0 n es := by
  induction h with
  | nil => exact .nil
  | definition _ hnew ih => exact ih.append (hnew.within.concat rfl) (Nat.zero_le _) hnew.le

theorem compiledGrammar_notMem (h : Settled n es) (symbols rules : ℕ) :
    .compiledGrammar symbols rules ∉ es := by
  induction h with
  | nil => exact List.not_mem_nil
  | definition _ hnew ih =>
    simp only [List.mem_append, List.mem_singleton, reduceCtorEq, or_false, not_or]
    exact ⟨ih, hnew.compiledGrammar_notMem symbols rules⟩

/-- Behind every note about a generated rule there is one about a finished definition, and the first
of these names the definition for which the rule was generated. -/
theorem exists_compiledName (h : Settled n es) {before after : List Event} {name : String}
    {id : RuleId} (heq : es = before ++ .allocated name id :: after) :
    ∃ base, after.findSome? Event.compiledName? = some base ∧
      (base ++ "_" ++ toString id.toNat).toList <+: name.toList := by
  induction h generalizing after with
  | nil => simp at heq
  | @definition lo hi done new base k hdone hnew ih =>
    rcases append_eq_append_cons_cases heq with ⟨more, hdone', rfl⟩ | ⟨more, -, hlast⟩
    · obtain ⟨base', hfind, hprefix⟩ := ih hdone'
      exact ⟨base', by rw [List.findSome?_append, hfind]; rfl, hprefix⟩
    · rcases append_eq_append_cons_cases hlast with ⟨more', rfl, rfl⟩ | ⟨more', -, hnote⟩
      · -- what is noted up to the end of the definition are generated rules
        obtain ⟨hbefore, hevent, hmore⟩ := by
          simpa only [List.forall_mem_append, List.forall_mem_cons] using hnew.isAllocation
        obtain ⟨_, _, hevent, hprefix⟩ := hevent
        cases hevent
        refine ⟨base, ?_, hprefix⟩
        rw [List.findSome?_append,
          List.findSome?_eq_none_iff.2 fun e he => (hmore e he).compiledName?_eq]
        rfl
      · cases more' <;> simp at hnote

end Settled

namespace Builder

theorem settled_addDefinition {b : Builder} (d : Definition)
    (h : Settled b.symbols.size b.events) :
    Settled (b.addDefinition d).1.symbols.size (b.addDefinition d).1.events := by
  have hintern : b.symbols.size ≤ (b.intern d.name).2.symbols.size :=
    b.symbols.le_size_intern d.name
  unfold addDefinition
  by_cases hdefined : (b.intern d.name).2.rules.isDefined (b.intern d.name).1
  · simp only [hdefined, if_true]
    exact h.mono hintern
  · simp only [hdefined, Bool.false_eq_true, if_false]
    obtain ⟨es, heq, hes⟩ := d.body.grows_build d.name (b.intern d.name).2
    have hevents : (d.body.build d.name (b.intern d.name).2).2.events = b.events ++ es := heq
    simp only [define, log, hevents, List.append_assoc]
    exact .definition (h.mono hintern) hes

theorem settled_addDefinitions {b : Builder} (defs : List Definition)
    (h : Settled b.symbols.size b.events) :
    Settled (b.addDefinitions defs).1.symbols.size (b.addDefinitions defs).1.events := by
  induction defs generalizing b with
  | nil => exact h
  | cons d defs ih =>
    have hd := settled_addDefinition d h
    rw [addDefinitions]
    split
    · rename_i heq
      rwa [heq] at hd
    · rename_i heq
      rw [heq] at hd
      exact ih hd

end Builder

/-- A log of finished definitions, and of one that may be begun, when there are `n` names. -/
def IsLog (n : ℕ) (es : List Event) : Prop :=
  ∃ lo done new base, es = done ++ new ∧ Settled lo done ∧ Allocations base lo n new

namespace IsLog

variable {n : ℕ} {es : List Event}

theorem of_settled (h : Settled n es) : IsLog n es :=
  ⟨n, es, [], "", (List.append_nil es).symm, h, .nil le_rfl⟩

theorem allocatesWithin (h : IsLog n es) : AllocatesWithin 0 n es := by
  obtain ⟨lo, done, new, base, rfl, hdone, hnew⟩ := h
  exact hdone.allocatesWithin.append hnew.within (Nat.zero_le _) hnew.le

theorem compiledGrammar_notMem (h : IsLog n es) (symbols rules : ℕ) :
    .compiledGrammar symbols rules ∉ es := by
  obtain ⟨lo, done, new, base, rfl, hdone, hnew⟩ := h
  rw [List.mem_append, not_or]
  exact ⟨hdone.compiledGrammar_notMem symbols rules, hnew.compiledGrammar_notMem symbols rules⟩

/-- A generated rule is named for the first definition that is finished behind it. -/
theorem isPrefix_of_findSome? (h : IsLog n es) {last : List Event}
    (hlast : ∀ e ∈ last, e.compiledName? = none) {before after : List Event} {name base : String}
    {id : RuleId} (heq : es ++ last = before ++ .allocated name id :: after)
    (hbase : after.findSome? Event.compiledName? = some base) :
    (base ++ "_" ++ toString id.toNat).toList <+: name.toList := by
  obtain ⟨lo, done, new, base', rfl, hdone, hnew⟩ := h
  have hopen : ∀ e ∈ new ++ last, e.compiledName? = none :=
    List.forall_mem_append.2 ⟨fun e he => (hnew.isAllocation e he).compiledName?_eq, hlast⟩
  rw [List.append_assoc] at heq
  rcases append_eq_append_cons_cases heq with ⟨more, hdone', rfl⟩ | ⟨more, -, hnotes⟩
  · obtain ⟨base'', hfind, hprefix⟩ := hdone.exists_compiledName hdone'
    rw [List.findSome?_append, hfind] at hbase
    cases hbase
    exact hprefix
  · have hnone : after.findSome? Event.compiledName? = none := by
      refine List.findSome?_eq_none_iff.2 fun e he => hopen e ?_
      rw [hnotes]
      simp [he]
    rw [hnone] at hbase
    cases hbase

end IsLog

/-- Whatever a reading comes to, its log is one of finished definitions and of one that may be
begun. -/
theorem Reading.isLog_build (text : List Char) (r : Reading) :
    IsLog (r.build text).1.symbols.size (r.build text).1.events := by
  have hdefs : Settled (Builder.empty.addDefinitions r.definitions).1.symbols.size
      (Builder.empty.addDefinitions r.definitions).1.events :=
    Builder.settled_addDefinitions _ .nil
  unfold build
  split
  · rename_i heq
    rw [heq] at hdefs
    exact .of_settled hdefs
  · rename_i b heq
    rw [heq] at hdefs
    split
    · exact .of_settled hdefs
    · exact .of_settled hdefs
    · rename_i fault d hrefusal
      obtain ⟨es, hes, hnew⟩ := b.grows_addOpenDefinition d
      have hopen : IsLog (b.addOpenDefinition d).1.symbols.size (b.addOpenDefinition d).1.events :=
        ⟨_, _, _, _, hes, hdefs, hnew⟩
      split <;> rename_i heq <;> rwa [heq] at hopen

/-! ### Each rule once -/

/-- The rules that a log is about. -/
def notedIds (es : List Event) : List RuleId := (es.filterMap Event.rule?).map Prod.snd

@[simp] theorem notedIds_append (es es' : List Event) :
    notedIds (es ++ es') = notedIds es ++ notedIds es' := by
  simp [notedIds]

@[simp] theorem notedIds_allocated (name : String) (id : RuleId) :
    notedIds [.allocated name id] = [id] := rfl

@[simp] theorem notedIds_compiledRule (name : String) (id : RuleId) :
    notedIds [.compiledRule name id] = [id] := rfl

/-- The log of an expression is about the rules that get a body. -/
theorem Elaborates.noted_perm {base : String} {level : Level} {e : Expr level}
    {names names' : List String} {elements : Body} {writes : List (RuleId × Body)}
    (h : Elaborates base e names elements names' writes) (rules : RuleTable)
    (events : List Event) :
    (notedIds (e.build base ⟨⟨names⟩, rules, events⟩).2.events).Perm
      (notedIds events ++ writes.map Prod.fst) := by
  induction h generalizing rules events with
  | literal | charClass | nothing | ref => simp [Expr.build, Builder.intern]
  | @group body id names mid names' elements writes hid hbody ih =>
    obtain ⟨hnext, -⟩ := hid.getElem?_eq
    have hbuild := ih rules (events ++ [.allocated (SymbolTable.freshName ⟨names⟩ base) id])
    simp only [Expr.build, Builder.fresh, Builder.log, Builder.define,
      Generated.fresh_eq (t := ⟨names⟩) hid, hnext]
    refine hbuild.trans ?_
    -- the group is noted before its body, and has its own body after it
    rw [notedIds_append, notedIds_allocated, List.append_assoc, List.map_append]
    exact List.perm_append_comm.append_left _
  | @repeated q operand id names mid names' elements writes hoperand hid ih =>
    obtain ⟨hnext, -⟩ := hid.getElem?_eq
    obtain ⟨events', hbuild⟩ := hoperand.build_eq rules events
    have hlog := ih rules events
    rw [hbuild] at hlog
    simp only [Expr.build, hbuild, Builder.fresh, Builder.log, Builder.define, hnext,
      notedIds_append, notedIds_allocated, List.map_append, ← List.append_assoc]
    exact hlog.append_right _
  | only _ ih => exact ih rules events
  | @snoc _ _ _ _ _ _ _ writes _ hfront _ ihfront ihlast
  | @orElse _ _ _ _ _ _ _ writes _ hfront _ ihfront ihlast =>
    obtain ⟨events', hbuild⟩ := hfront.build_eq rules events
    have hlog := ihfront rules events
    have hlog' := ihlast (rules.defineAll writes) events'
    rw [hbuild] at hlog
    simp only [Expr.build, hbuild]
    refine hlog'.trans ?_
    rw [List.map_append, ← List.append_assoc]
    exact hlog.append_right _

namespace ElaboratesAll

variable {defs : List Definition} {names : List String} {writes : List (RuleId × Body)}

/-- The log of a row of definitions is about each rule that has a body, once. -/
theorem noted_perm (h : ElaboratesAll defs names writes) :
    (notedIds (Builder.empty.addDefinitions defs).1.events).Perm (writes.map Prod.fst) := by
  induction h with
  | nil => exact .refl _
  | @snoc defs d id names mid names' elements writes writes' hdefs hid hnew hbody ih =>
    obtain ⟨rules, hevents⟩ := hdefs.exists_events_concat hid hnew
    rw [hevents, notedIds_append, notedIds_compiledRule]
    have hlog := (hbody.noted_perm rules _).trans (ih.append_right _)
    simpa only [List.map_append, List.map_cons, List.map_nil, List.append_assoc]
      using hlog.append_right [id]

/-- A definition is noted with its name. -/
theorem getElem?_of_compiledRule_mem (h : ElaboratesAll defs names writes) {name : String}
    {id : RuleId} (hmem : .compiledRule name id ∈ (Builder.empty.addDefinitions defs).1.events) :
    names[id.toNat]? = some name := by
  induction h with
  | nil => cases hmem
  | @snoc defs d k names mid names' elements writes writes' hdefs hid hnew hbody ih =>
    obtain ⟨rules, hevents⟩ := hdefs.exists_events_concat hid hnew
    obtain ⟨es, hbuild, hes⟩ := d.body.grows_build d.name
      ⟨⟨mid⟩, rules, (Builder.empty.addDefinitions defs).1.events⟩
    rw [hevents, hbuild, List.mem_append, List.mem_append, List.mem_singleton] at hmem
    rcases hmem with (hold | hnew') | hlast
    · exact getElem?_eq_some_of_isPrefix (hid.isPrefix.trans hbody.isPrefix) (ih hold)
    · obtain ⟨_, _, heq, -⟩ := hes.isAllocation _ hnew'
      cases heq
    · cases hlast
      exact getElem?_eq_some_of_isPrefix hbody.isPrefix hid.getElem?_eq

/-- Every note has the name of the rule that it is about. -/
theorem getElem?_of_rule?_eq (h : ElaboratesAll defs names writes) {e : Event} {name : String}
    {id : RuleId} (he : e ∈ (Builder.empty.addDefinitions defs).1.events)
    (hrule : e.rule? = some (name, id)) : names[id.toNat]? = some name := by
  cases e with
  | allocated =>
    cases hrule
    exact (h.mem_events_iff.1 he).2.1
  | compiledRule =>
    cases hrule
    exact h.getElem?_of_compiledRule_mem he
  | compiledGrammar => cases hrule

end ElaboratesAll

/-- In the tables of a compiled grammar, each place has one body. -/
theorem CompilesTo.map_toNat_writes_perm {source : String} {options : CompileOptions} {g : Grammar}
    {defs : List Definition} {writes : List (RuleId × Body)}
    (h : CompilesTo options source defs writes g) (hlen : source.length < 2 ^ 32) :
    ((writes.map Prod.fst).map UInt32.toNat).Perm (List.range g.size) := by
  have hinj : Function.Injective UInt32.toNat := fun _ _ => UInt32.toNat_inj.1
  refine (List.perm_ext_iff_of_nodup (h.elaborates.nodup_writes.map hinj) List.nodup_range).2
    fun i => ?_
  rw [List.mem_map, List.mem_range, ← h.size_eq hlen]
  constructor
  · rintro ⟨id, hid, rfl⟩
    exact h.mem_writes_iff.1 hid
  · intro hi
    have htoNat : i.toUInt32.toNat = i :=
      toNat_toUInt32_of_lt (hi.trans_le (h.size_symbols_le hlen))
    exact ⟨i.toUInt32, h.mem_writes_iff.2 (by rwa [htoNat]), htoNat⟩

/-! ### Compilation -/

/-- Behind the log of a parse there is a note about the whole grammar, if the compilation
succeeds. -/
theorem exists_run_events_eq (source : String) (options : CompileOptions) :
    ∃ last, (run options source).events = (parse options.maxNesting source).1.events ++ last ∧
      ∀ e ∈ last, ∃ g, (run options source).result = .ok g ∧
        e = .compiledGrammar g.symbols.size g.rules.size := by
  unfold run
  cases hparse : parse options.maxNesting source with
  | mk b error =>
    cases error with
    | some error => exact ⟨[], (List.append_nil _).symm, by simp⟩
    | none =>
      simp only [Builder.finish]
      cases hcheck : b.check options with
      | error error => exact ⟨[], (List.append_nil _).symm, by simp⟩
      | ok g => exact ⟨[_], rfl, by simp⟩

/-- **The log accounts for every rule.**  Generated rules are noted with increasing ids, and named
for the definition that is the next to be finished.  A compilation that succeeds notes each id
once, as a generated rule or as a definition, with its name, and then the sizes of its tables.  A
compilation that fails notes no grammar. -/
theorem run_events_account (source : String) (options : CompileOptions)
    (hlen : source.length < 2 ^ 32) :
    ((run options source).events.filterMap Event.allocatedId?).Pairwise (· < ·) ∧
    (∀ before name id after base,
      (run options source).events = before ++ .allocated name id :: after →
      after.findSome? Event.compiledName? = some base →
      (base ++ "_" ++ toString id.toNat).toList <+: name.toList) ∧
    (∀ g, (run options source).result = .ok g →
      ∃ notes, (run options source).events = notes ++ [.compiledGrammar g.size g.size] ∧
        (∀ symbols rules, .compiledGrammar symbols rules ∉ notes) ∧
        ((notedIds notes).map UInt32.toNat).Perm (List.range g.size) ∧
        ∀ e ∈ notes, ∀ name id, e.rule? = some (name, id) → g.symbols.name? id = some name) ∧
    ∀ e, (run options source).result = .error e →
      ∀ symbols rules, .compiledGrammar symbols rules ∉ (run options source).events := by
  obtain ⟨last, hevents, hlast⟩ := exists_run_events_eq source options
  have hlog : IsLog _ (parse options.maxNesting source).1.events := Reading.isLog_build _ _
  refine ⟨?_, fun before name id after base heq hbase => ?_, fun g hg => ?_, fun e he => ?_⟩
  · have hlast' : last.filterMap Event.allocatedId? = [] := by
      refine List.filterMap_eq_nil_iff.2 fun e he => ?_
      obtain ⟨_, -, rfl⟩ := hlast e he
      rfl
    rw [hevents, List.filterMap_append, hlast', List.append_nil]
    exact hlog.allocatesWithin.pairwise ((size_parse_le _ _).trans hlen.le)
  · refine hlog.isPrefix_of_findSome? (fun e he => ?_) (hevents ▸ heq) hbase
    obtain ⟨_, -, rfl⟩ := hlast e he
    rfl
  · obtain ⟨defs, writes, h⟩ := exists_compilesTo hlen hg
    have hsize : g.symbols.size = g.size := h.size_eq hlen
    refine ⟨(Builder.empty.addDefinitions defs).1.events, ?_, ?_, ?_, fun e he name id hrule => ?_⟩
    · rw [run_events_eq hg h.sourceText, hsize]
      rfl
    · exact (Builder.settled_addDefinitions (b := .empty) defs .nil).compiledGrammar_notMem
    · exact (h.elaborates.noted_perm.map _).trans (h.map_toNat_writes_perm hlen)
    · exact h.elaborates.getElem?_of_rule?_eq he hrule
  · intro symbols rules hmem
    rw [hevents, List.mem_append] at hmem
    rcases hmem with hmem | hmem
    · exact hlog.compiledGrammar_notMem symbols rules hmem
    · obtain ⟨g, hg, -⟩ := hlast _ hmem
      rw [he] at hg
      cases hg

/-- Two definitions, with two generated rules for the first and one for the second. -/
theorem run_events_account_two_definitions :
    ∃ g notes, compile "a ::= (\"x\" | b)*\nb ::= [^a-c]?" = .ok g ∧
      (run {} "a ::= (\"x\" | b)*\nb ::= [^a-c]?").events = notes ++ [.compiledGrammar 5 5] ∧
      notes.filterMap Event.allocatedId? = [1, 3, 4] ∧
      ((notedIds notes).map UInt32.toNat).Perm (List.range 5) := by
  obtain ⟨g, hg, hsize⟩ :
      ∃ g, compile "a ::= (\"x\" | b)*\nb ::= [^a-c]?" = .ok g ∧ g.size = 5 :=
    ⟨⟨⟨["a", "a_1", "b", "a_3", "b_4"]⟩, ⟨[
      [.ruleRef 3, .stop],
      [.char 'x', .alt, .ruleRef 2, .stop],
      [.ruleRef 4, .stop],
      [.ruleRef 1, .ruleRef 3, .alt, .stop],
      [⟨.charNot, 97⟩, ⟨.rangeUpper, 99⟩, .alt, .stop]]⟩⟩, by decide +kernel, rfl⟩
  obtain ⟨-, -, hok, -⟩ :=
    run_events_account "a ::= (\"x\" | b)*\nb ::= [^a-c]?" {} (by decide +kernel)
  obtain ⟨notes, hevents, -, hperm, -⟩ := hok g hg
  rw [hsize] at hevents hperm
  have hids : (run {} "a ::= (\"x\" | b)*\nb ::= [^a-c]?").events.filterMap Event.allocatedId? =
      [1, 3, 4] := by decide +kernel
  rw [hevents, List.filterMap_append] at hids
  exact ⟨g, notes, hg, hevents, (List.append_nil _).symm.trans hids, hperm⟩

end EbnfTables
