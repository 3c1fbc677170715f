import EbnfTables.Proofs.Source.Extent
import EbnfTables.Proofs.Tables.Representation

/-!
# Building the tables

The builder does what elaboration says (`Elaborates.build_eq`, `ElaboratesAll.addDefinitions_eq`),
and whenever it adds all definitions there is an elaboration to do (`exists_elaboratesAll`).

Together with what is known about reading, this describes parsing completely.  Main theorem:
`parse_eq_iff`.  The tables are filled without an error if and only if the text is a source whose
definitions can be elaborated, and then they are the tables of the elaboration.
-/

namespace EbnfTables

/-! ### Rule tables and what they hold -/

namespace RuleTable

/-- Stores several bodies. -/
def defineAll (t : RuleTable) (writes : List (RuleId × Body)) : RuleTable :=
  writes.foldl (fun t w => t.define w.1 w.2) t

@[simp] theorem defineAll_nil (t : RuleTable) : t.defineAll [] = t := rfl

@[simp] theorem defineAll_append (t : RuleTable) (writes writes' : List (RuleId × Body)) :
    t.defineAll (writes ++ writes') = (t.defineAll writes).defineAll writes' :=
  List.foldl_append

@[simp] theorem defineAll_singleton (t : RuleTable) (id : RuleId) (body : Body) :
    t.defineAll [(id, body)] = t.define id body := rfl

theorem holds_empty : empty.Holds [] := by
  refine ⟨by simp, fun id _ => ?_, by simp [size, empty]⟩
  simp [slot, empty]

namespace Holds

variable {t t' : RuleTable} {id : RuleId} {body : Body} {writes writes' : List (RuleId × Body)}

theorem define (h : t.Holds writes) (hid : id ∉ writes.map Prod.fst) :
    (t.define id body).Holds (writes ++ [(id, body)]) := by
  constructor
  · intro k body' hk
    rcases List.mem_append.1 hk with hk | hk
    · have hne : id ≠ k := by
        rintro rfl
        exact hid (List.mem_map_of_mem (f := Prod.fst) hk)
      rw [slot_define_of_ne t body hne]
      exact h.slot_of_mem k body' hk
    · obtain ⟨rfl, rfl⟩ : k = id ∧ body' = body := by simpa using hk
      exact slot_define_self t k body'
  · intro k hk
    rw [List.map_append, List.mem_append, not_or] at hk
    have hne : id ≠ k := fun heq => hk.2 (by simp [heq])
    rw [slot_define_of_ne t body hne]
    exact h.slot_of_notMem k hk.1
  · intro n
    rw [size_define, max_le_iff, h.size_le_iff]
    simp only [List.map_append, List.map_cons, List.map_nil, List.forall_mem_append,
      List.forall_mem_singleton]
    rfl

theorem defineAll (h : t.Holds writes) (hn : ((writes ++ writes').map Prod.fst).Nodup) :
    (t.defineAll writes').Holds (writes ++ writes') := by
  induction writes' generalizing t writes with
  | nil => simpa using h
  | cons w writes' ih =>
    have hw : w.1 ∉ writes.map Prod.fst := by
      rw [List.map_append, List.map_cons, List.nodup_append] at hn
      exact fun hmem => hn.2.2 w.1 hmem w.1 List.mem_cons_self rfl
    rw [List.append_cons] at hn ⊢
    exact ih (h.define hw) hn

theorem isDefined_iff (h : t.Holds writes) (hne : ∀ w ∈ writes, w.2 ≠ []) :
    t.isDefined id = true ↔ id ∈ writes.map Prod.fst := by
  rw [isDefined, Bool.not_eq_true', List.isEmpty_eq_false_iff]
  constructor
  · intro hslot
    by_contra hid
    exact hslot (h.slot_of_notMem id hid)
  · intro hid
    obtain ⟨w, hw, rfl⟩ := List.mem_map.1 hid
    rw [h.slot_of_mem w.1 w.2 hw]
    exact hne w hw

/-- A table is determined by what it holds. -/
theorem unique (h : t.Holds writes) (h' : t'.Holds writes) : t = t' := by
  have hsize : t.size = t'.size :=
    le_antisymm ((h.size_le_iff _).2 ((h'.size_le_iff _).1 le_rfl))
      ((h'.size_le_iff _).2 ((h.size_le_iff _).1 le_rfl))
  have hslot (id : RuleId) : t.slot id = t'.slot id := by
    by_cases hid : id ∈ writes.map Prod.fst
    · obtain ⟨w, hw, rfl⟩ := List.mem_map.1 hid
      rw [h.slot_of_mem w.1 w.2 hw, h'.slot_of_mem w.1 w.2 hw]
    · rw [h.slot_of_notMem id hid, h'.slot_of_notMem id hid]
  -- so every place in the tables is that of an id
  have hbound : t.size ≤ 2 ^ 32 := (h.size_le_iff _).2 fun id _ => id.toNat_lt
  obtain ⟨bodies⟩ := t
  obtain ⟨bodies'⟩ := t'
  congr 1
  refine List.ext_getElem hsize fun i hi hi' => ?_
  have hget := hslot i.toUInt32
  simp only [slot, List.getD_eq_getElem?_getD] at hget
  rw [toNat_toUInt32_of_lt (lt_of_lt_of_le hi hbound), List.getElem?_eq_getElem hi,
    List.getElem?_eq_getElem hi'] at hget
  exact hget

end Holds

end RuleTable

/-! ### The builder -/

/-- The builder does what elaboration says. -/
theorem Elaborates.build_eq {base : String} {level : Level} {e : Expr level}
    {names names' : List String} {elements : Body} {writes : List (RuleId × Body)}
    (h : Elaborates base e names elements names' writes) (rules : RuleTable)
    (events : List Event) :
    ∃ events', e.build base ⟨⟨names⟩, rules, events⟩ =
      (elements, ⟨⟨names'⟩, rules.defineAll writes, events'⟩) := by
  induction h generalizing rules events with
  | literal | charClass | nothing => exact ⟨events, rfl⟩
  | @ref name id names names' hid =>
    have hintern := Interned.intern_eq (t := ⟨names⟩) hid
    exact ⟨events, by simp only [Expr.build, Builder.intern, hintern, RuleTable.defineAll_nil]⟩
  | @group body id names mid names' elements writes hid _ ih =>
    have hfresh := Generated.fresh_eq (t := ⟨names⟩) hid
    obtain ⟨events', hbody⟩ := ih rules
      (events ++ [.allocated (SymbolTable.freshName ⟨names⟩ base) (SymbolTable.nextId ⟨names⟩)])
    refine ⟨events', ?_⟩
    simp only [Expr.build, Builder.fresh, Builder.log, hfresh, hbody, Builder.define,
      RuleTable.defineAll_append, RuleTable.defineAll_singleton]
  | @repeated q operand id names mid names' elements writes _ hid ih =>
    have hfresh := Generated.fresh_eq (t := ⟨mid⟩) hid
    obtain ⟨events', hoperand⟩ := ih rules events
    refine ⟨events' ++ [.allocated (SymbolTable.freshName ⟨mid⟩ base) (SymbolTable.nextId ⟨mid⟩)],
      ?_⟩
    simp only [Expr.build, hoperand, Builder.fresh, Builder.log, hfresh, Builder.define,
      RuleTable.defineAll_append, RuleTable.defineAll_singleton]
  | @snoc _ _ _ _ _ _ _ writes _ _ _ ihfront ihlast
  | @orElse _ _ _ _ _ _ _ writes _ _ _ ihfront ihlast =>
    obtain ⟨events₁, hfront⟩ := ihfront rules events
    obtain ⟨events₂, hlast⟩ := ihlast (rules.defineAll writes) events₁
    exact ⟨events₂, by simp only [Expr.build, hfront, hlast, RuleTable.defineAll_append]⟩
  | only _ ih => exact ih rules events

namespace Builder

theorem addDefinitions_append (b : Builder) (ds es : List Definition) :
    addDefinitions (ds ++ es) b =
      match addDefinitions ds b with
      | (b', none) => addDefinitions es b'
      | (b', some d) => (b', some d) := by
  induction ds generalizing b with
  | nil => rfl
  | cons d ds ih =>
    simp only [List.cons_append, addDefinitions]
    split
    · rfl
    · exact ih _

theorem addDefinitions_singleton (b : Builder) (d : Definition) :
    addDefinitions [d] b =
      if (b.addDefinition d).2 then ((b.addDefinition d).1, none)
      else ((b.addDefinition d).1, some d) := by
  simp only [addDefinitions]
  split
  · rename_i heq; simp [heq]
  · rename_i heq; simp [heq]

/-- A definition that was refused is one of those that were to be added, and the ones before it were
added. -/
theorem exists_of_addDefinitions_eq_some {ds : List Definition} {d : Definition} {b b' : Builder}
    (h : b.addDefinitions ds = (b', some d)) :
    ∃ front back mid, ds = front ++ d :: back ∧ b.addDefinitions front = (mid, none) ∧
      (mid.addDefinition d).2 = false := by
  induction ds generalizing b with
  | nil => cases h
  | cons d' ds ih =>
    rw [addDefinitions] at h
    split at h
    · rename_i hadd
      cases h
      exact ⟨[], ds, b, rfl, rfl, by rw [hadd]⟩
    · rename_i b₁ hadd
      obtain ⟨front, back, mid, rfl, hfront, hd⟩ := ih h
      refine ⟨d' :: front, back, mid, rfl, ?_, hd⟩
      rw [addDefinitions, hadd]
      exact hfront

end Builder

/-- Definitions that can be elaborated are all added. -/
theorem ElaboratesAll.addDefinitions_eq {defs : List Definition} {names : List String}
    {writes : List (RuleId × Body)} (h : ElaboratesAll defs names writes) :
    ∃ rules events, Builder.empty.addDefinitions defs = (⟨⟨names⟩, rules, events⟩, none) ∧
      rules.Holds writes := by
  induction h with
  | nil => exact ⟨.empty, [], rfl, RuleTable.holds_empty⟩
  | @snoc defs d id names mid names' elements writes writes' hdefs hid hnew hbody ih =>
    obtain ⟨rules, events, heq, hholds⟩ := ih
    have hintern := Interned.intern_eq (t := ⟨names⟩) hid
    have hundefined : rules.isDefined id = false := by
      rw [← Bool.not_eq_true, hholds.isDefined_iff hdefs.body_ne_nil]
      exact hnew
    obtain ⟨events', hbuild⟩ := hbody.build_eq rules events
    refine ⟨_, events' ++ [.compiledRule d.name id], ?_,
      hholds.defineAll (ElaboratesAll.snoc hdefs hid hnew hbody).nodup_writes⟩
    rw [Builder.addDefinitions_append, heq]
    simp only [Builder.addDefinitions_singleton, Builder.addDefinition, Builder.intern, hintern,
      hundefined, Bool.false_eq_true, if_false, hbuild, Builder.define, Builder.log, if_true,
      RuleTable.defineAll_append, RuleTable.defineAll_singleton]

/-! ### The number of names -/

theorem Expr.le_size_build {level : Level} (e : Expr level) (base : String) (b : Builder) :
    b.symbols.size ≤ (e.build base b).2.symbols.size := by
  induction e generalizing b with
  | literal | charClass | nothing => exact le_rfl
  | ref name => exact b.symbols.le_size_intern name
  | group body ih =>
    have hfresh := b.symbols.size_fresh base
    have hbody := ih (b.fresh base).2
    simp only [build, Builder.define, Builder.fresh, Builder.log] at hbody ⊢
    omega
  | repeated q operand ih =>
    have hoperand := ih b
    have hfresh := (operand.build base b).2.symbols.size_fresh base
    simp only [build, Builder.define, Builder.fresh, Builder.log]
    omega
  | only _ ih => exact ih b
  | snoc front _ ihfront ihlast | orElse front _ ihfront ihlast =>
    exact (ihfront b).trans (ihlast (front.build base b).2)

theorem Expr.size_build_le {level : Level} (e : Expr level) (base : String) (b : Builder) :
    (e.build base b).2.symbols.size ≤ b.symbols.size + e.idCount := by
  induction e generalizing b with
  | literal | charClass | nothing => exact Nat.le_add_right _ _
  | ref name => exact b.symbols.size_intern_le name
  | group body ih =>
    have hfresh := b.symbols.size_fresh base
    have hbody := ih (b.fresh base).2
    simp only [build, Builder.define, Builder.fresh, Builder.log, idCount] at hbody ⊢
    omega
  | repeated q operand ih =>
    have hoperand := ih b
    have hfresh := (operand.build base b).2.symbols.size_fresh base
    simp only [build, Builder.define, Builder.fresh, Builder.log, idCount]
    omega
  | only _ ih => exact ih b
  | snoc front _ ihfront ihlast | orElse front _ ihfront ihlast =>
    have hfront := ihfront b
    have hlast := ihlast (front.build base b).2
    simp only [build, idCount]
    omega

/-- If the ids sufficed when an expression was built, it can be elaborated. -/
theorem Expr.exists_elaborates {level : Level} (e : Expr level) (base : String)
    (names : List String) (rules : RuleTable) (events : List Event)
    (hsize : (e.build base ⟨⟨names⟩, rules, events⟩).2.symbols.size ≤ 2 ^ 32) :
    ∃ elements names' writes, Elaborates base e names elements names' writes := by
  induction e generalizing names rules events with
  | literal cs => exact ⟨_, _, _, .literal⟩
  | charClass negated ms => exact ⟨_, _, _, .charClass⟩
  | ref name =>
    obtain ⟨id, names', hid⟩ := SymbolTable.exists_interned (t := ⟨names⟩) hsize
    exact ⟨_, _, _, .ref hid⟩
  | group body ih =>
    have hfresh := SymbolTable.size_fresh ⟨names⟩ base
    have hbody := body.le_size_build base (Builder.fresh ⟨⟨names⟩, rules, events⟩ base).2
    simp only [build, Builder.define] at hsize
    have hlen : names.length < 2 ^ 32 := by
      simp only [Builder.fresh, Builder.log, SymbolTable.size] at hfresh hbody hsize
      omega
    obtain ⟨id, mid, hid⟩ := exists_generated hlen base
    have hgen := Generated.fresh_eq (t := ⟨names⟩) hid
    simp only [Builder.fresh, Builder.log, hgen] at hsize
    obtain ⟨elements, names', writes, hbody⟩ := ih mid _ _ hsize
    exact ⟨_, _, _, .group hid hbody⟩
  | repeated q operand ih =>
    have hfresh := (operand.build base ⟨⟨names⟩, rules, events⟩).2.symbols.size_fresh base
    simp only [build, Builder.define, Builder.fresh, Builder.log] at hsize
    obtain ⟨elements, mid, writes, hoperand⟩ := ih names rules events (by omega)
    obtain ⟨events', hbuild⟩ := hoperand.build_eq rules events
    have hlen : mid.length < 2 ^ 32 := by
      rw [hbuild] at hfresh hsize
      simp only [SymbolTable.size] at hfresh hsize
      omega
    obtain ⟨id, names', hid⟩ := exists_generated hlen base
    exact ⟨_, _, _, .repeated hoperand hid⟩
  | nothing => exact ⟨_, _, _, .nothing⟩
  | only sequence ih =>
    obtain ⟨elements, names', writes, h⟩ := ih names rules events hsize
    exact ⟨_, _, _, .only h⟩
  | snoc front last ihfront ihlast =>
    have hlast := last.le_size_build base (front.build base ⟨⟨names⟩, rules, events⟩).2
    simp only [build] at hsize
    obtain ⟨before, mid, writes, hfront⟩ := ihfront names rules events (hlast.trans hsize)
    obtain ⟨events', hbuild⟩ := hfront.build_eq rules events
    rw [hbuild] at hsize
    obtain ⟨elements, names', writes', hlast⟩ := ihlast mid _ _ hsize
    exact ⟨_, _, _, .snoc hfront hlast⟩
  | orElse earlier last ihearlier ihlast =>
    have hlast := last.le_size_build base (earlier.build base ⟨⟨names⟩, rules, events⟩).2
    simp only [build] at hsize
    obtain ⟨before, mid, writes, hearlier⟩ := ihearlier names rules events (hlast.trans hsize)
    obtain ⟨events', hbuild⟩ := hearlier.build_eq rules events
    rw [hbuild] at hsize
    obtain ⟨elements, names', writes', hlast⟩ := ihlast mid _ _ hsize
    exact ⟨_, _, _, .orElse hearlier hlast⟩

namespace Builder

/-- What is done to the names when a definition is added that is not refused. -/
theorem addDefinition_of_snd {b : Builder} {d : Definition} (h : (b.addDefinition d).2 = true) :
    (b.intern d.name).2.rules.isDefined (b.intern d.name).1 = false ∧
      (b.addDefinition d).1.symbols = (d.body.build d.name (b.intern d.name).2).2.symbols := by
  unfold addDefinition at h ⊢
  by_cases hdefined : (b.intern d.name).2.rules.isDefined (b.intern d.name).1
  · simp [hdefined] at h
  · simp [hdefined, log, define]

theorem size_addDefinition_le (b : Builder) (d : Definition) :
    (b.addDefinition d).1.symbols.size ≤ b.symbols.size + (d.body.idCount + 1) := by
  have hintern : (b.intern d.name).2.symbols.size ≤ _ := b.symbols.size_intern_le d.name
  have hbuild := d.body.size_build_le d.name (b.intern d.name).2
  unfold addDefinition
  by_cases hdefined : (b.intern d.name).2.rules.isDefined (b.intern d.name).1
  · simp only [hdefined, if_true]
    omega
  · simp only [hdefined, Bool.false_eq_true, if_false, define, log]
    omega

theorem size_addDefinitions_le (defs : List Definition) (b : Builder) :
    (b.addDefinitions defs).1.symbols.size ≤ b.symbols.size + idCount defs := by
  induction defs generalizing b with
  | nil => exact Nat.le_add_right _ _
  | cons d defs ih =>
    have hd := b.size_addDefinition_le d
    rw [addDefinitions, idCount_cons]
    split
    · rename_i b' heq
      rw [heq] at hd
      dsimp only at hd ⊢
      omega
    · rename_i b' heq
      have hdefs := ih b'
      rw [heq] at hd
      dsimp only at hd
      omega

theorem size_addFrames_le (base : String) (finished : Bool) (frames : List Frame) (id : RuleId)
    (b : Builder) :
    (addFrames base finished frames id b).symbols.size ≤ b.symbols.size + openIdCount frames := by
  induction frames generalizing id b with
  | nil => exact Nat.le_add_right _ _
  | cons f frames ih =>
    have hf := f.body.size_build_le base b
    cases frames with
    | nil =>
      simp only [addFrames, openIdCount, List.map_cons, List.map_nil, List.sum_cons, List.sum_nil]
      split
      · exact hf
      · exact hf
    | cons g frames =>
      have hfresh := (f.body.build base b).2.symbols.size_fresh base
      have hrest := ih ((f.body.build base b).2.fresh base).1 ((f.body.build base b).2.fresh base).2
      simp only [addFrames, openIdCount, List.map_cons, List.sum_cons, List.length_cons, fresh,
        log] at hrest ⊢
      omega

theorem size_addOpenDefinition_le (b : Builder) (d : OpenDefinition) :
    (b.addOpenDefinition d).1.symbols.size ≤ b.symbols.size + d.idCount := by
  have hintern : (b.intern d.name).2.symbols.size ≤ _ := b.symbols.size_intern_le d.name
  have hframes := size_addFrames_le d.name d.finished d.frames.reverse (b.intern d.name).1
    (b.intern d.name).2
  rw [openIdCount_reverse] at hframes
  unfold addOpenDefinition OpenDefinition.idCount
  by_cases hdefined : (b.intern d.name).2.rules.isDefined (b.intern d.name).1
  · simp only [hdefined, if_true]
    omega
  · simp only [hdefined, Bool.false_eq_true, if_false]
    omega

end Builder

/-- If all definitions were added and the ids sufficed, the definitions can be elaborated. -/
theorem exists_elaboratesAll {defs : List Definition} {b : Builder}
    (h : Builder.empty.addDefinitions defs = (b, none)) (hsize : b.symbols.size ≤ 2 ^ 32) :
    ∃ writes, ElaboratesAll defs b.symbols.names writes ∧ b.rules.Holds writes := by
  suffices hex : ∃ names writes, ElaboratesAll defs names writes by
    obtain ⟨names, writes, hdefs⟩ := hex
    obtain ⟨rules, events, heq, hholds⟩ := hdefs.addDefinitions_eq
    rw [h] at heq
    cases heq
    exact ⟨writes, hdefs, hholds⟩
  induction defs using List.reverseRecOn generalizing b with
  | nil => exact ⟨[], [], .nil⟩
  | append_singleton defs d ih =>
    rw [Builder.addDefinitions_append] at h
    split at h
    · rename_i b₀ hdefs
      rw [Builder.addDefinitions_singleton] at h
      split at h
      · rename_i hadded
        obtain rfl : (b₀.addDefinition d).1 = b := congrArg Prod.fst h
        obtain ⟨hundefined, hsymbols⟩ := Builder.addDefinition_of_snd hadded
        rw [hsymbols] at hsize
        have hbuild := d.body.le_size_build d.name (b₀.intern d.name).2
        have hintern := b₀.symbols.le_size_intern d.name
        obtain ⟨names, writes, hall⟩ := ih hdefs (hintern.trans (hbuild.trans hsize))
        obtain ⟨rules, events, heq, hholds⟩ := hall.addDefinitions_eq
        rw [hdefs] at heq
        cases heq
        obtain ⟨id, mid, hid⟩ := SymbolTable.exists_interned (hbuild.trans hsize)
        have heq := Interned.intern_eq hid
        simp only [Builder.intern, heq] at hundefined hsize
        -- the definition was added, so its rule had no body
        have hnew : id ∉ writes.map Prod.fst := by
          rw [← hholds.isDefined_iff hall.body_ne_nil, hundefined]
          exact Bool.false_ne_true
        obtain ⟨elements, names', writes', hbody⟩ :=
          d.body.exists_elaborates d.name mid rules events hsize
        exact ⟨_, _, .snoc hall hid hnew hbody⟩
      · cases h
    · cases h

/-! ### Parsing -/

theorem build_eq_none_iff {text : List Char} {r : Reading} {b : Builder} :
    r.build text = (b, none) ↔ r.refusal = none ∧ r.definitions ≠ [] ∧
      Builder.empty.addDefinitions r.definitions = (b, none) := by
  obtain ⟨defs, refusal⟩ := r
  unfold Reading.build
  cases hdefs : Builder.empty.addDefinitions defs with
  | mk b' duplicate =>
    cases duplicate with
    | some d => simp
    | none =>
      cases refusal with
      | none => cases defs <;> simp
      | some refusal =>
        obtain ⟨fault, begun⟩ := refusal
        cases begun with
        | none => simp
        | some d =>
          simp only [reduceCtorEq, false_and, iff_false]
          split <;> simp

/-- A source whose definitions can be elaborated fills the tables, without an error. -/
theorem parse_eq_of_elaboratesAll {limit : ℕ} {source : String} {defs : List Definition}
    {names : List String} {writes : List (RuleId × Body)} {rules : RuleTable}
    (hsource : SourceText limit defs source.toList) (hall : ElaboratesAll defs names writes)
    (hholds : rules.Holds writes) :
    ∃ events, parse limit source = (⟨⟨names⟩, rules, events⟩, none) := by
  obtain ⟨hne, hread⟩ := read_eq_iff.2 hsource
  obtain ⟨rules', events, hadd, hholds'⟩ := hall.addDefinitions_eq
  obtain rfl := hholds.unique hholds'
  refine ⟨events, ?_⟩
  rw [parse, hread, build_eq_none_iff]
  exact ⟨rfl, hne, hadd⟩

/-- If the tables are filled without an error and the ids sufficed, the text is a source, and the
tables are those of its elaboration. -/
theorem exists_elaboratesAll_of_size_le {limit : ℕ} {source : String} {b : Builder}
    (hsize : b.symbols.size ≤ 2 ^ 32) (h : parse limit source = (b, none)) :
    ∃ defs writes, SourceText limit defs source.toList ∧
      ElaboratesAll defs b.symbols.names writes ∧ b.rules.Holds writes := by
  obtain ⟨hrefusal, hne, hadd⟩ := build_eq_none_iff.1 h
  have hsource : SourceText limit (read limit source.toList).definitions source.toList := by
    refine read_eq_iff.1 ⟨hne, ?_⟩
    rw [← hrefusal]
  obtain ⟨writes, hall, hholds⟩ := exists_elaboratesAll hadd hsize
  exact ⟨_, writes, hsource, hall, hholds⟩

/-- Whatever a reading comes to, its names are at most as many as the ids that it may need. -/
theorem Reading.size_build_le (text : List Char) (r : Reading) :
    (r.build text).1.symbols.size ≤ r.idCount := by
  have hdefs : (Builder.empty.addDefinitions r.definitions).1.symbols.size ≤
      0 + EbnfTables.idCount r.definitions := Builder.empty.size_addDefinitions_le r.definitions
  unfold build idCount
  split
  · rename_i heq
    rw [heq] at hdefs
    dsimp only at hdefs ⊢
    omega
  · rename_i b heq
    rw [heq] at hdefs
    dsimp only at hdefs
    split
    · dsimp only
      omega
    · dsimp only
      omega
    · rename_i fault d hrefusal
      have hopen := b.size_addOpenDefinition_le d
      rw [hrefusal]
      split <;> rename_i heq <;> rw [heq] at hopen <;>
        simp only [Refusal.idCount, Option.map_some, Option.getD_some] at hopen ⊢ <;> omega

/-- There are no more names than characters, whether the text is refused or not. -/
theorem size_parse_le (limit : ℕ) (source : String) :
    (parse limit source).1.symbols.size ≤ source.length := by
  rw [← String.length_toList]
  exact (Reading.size_build_le _ _).trans (read_idCount_le limit source.toList)

/-- The ids suffice for a text that is short enough. -/
theorem size_symbols_le_of_parse_eq {limit : ℕ} {source : String} {b : Builder}
    (hlen : source.length < 2 ^ 32) (h : parse limit source = (b, none)) :
    b.symbols.size ≤ 2 ^ 32 := by
  have hsize := size_parse_le limit source
  rw [h] at hsize
  exact hsize.trans hlen.le

theorem exists_elaboratesAll_of_parse_eq {limit : ℕ} {source : String} {b : Builder}
    (hlen : source.length < 2 ^ 32) (h : parse limit source = (b, none)) :
    ∃ defs writes, SourceText limit defs source.toList ∧
      ElaboratesAll defs b.symbols.names writes ∧ b.rules.Holds writes :=
  exists_elaboratesAll_of_size_le (size_symbols_le_of_parse_eq hlen h) h

/-- **The tables are filled without an error exactly for the sources whose definitions can be
elaborated, and then they are the tables of the elaboration.** -/
theorem parse_eq_iff (limit : ℕ) (source : String) (hlen : source.length < 2 ^ 32)
    (symbols : SymbolTable) (rules : RuleTable) :
    (∃ events, parse limit source = (⟨symbols, rules, events⟩, none)) ↔
      ∃ defs writes, SourceText limit defs source.toList ∧
        ElaboratesAll defs symbols.names writes ∧ rules.Holds writes := by
  constructor
  · rintro ⟨events, h⟩
    exact exists_elaboratesAll_of_parse_eq hlen h
  · rintro ⟨defs, writes, hsource, hall, hholds⟩
    exact parse_eq_of_elaboratesAll hsource hall hholds

/-- A group under a quantifier, a reference to what follows, and a negated range. -/
theorem exists_elaboratesAll_group_and_range :
    ∃ defs writes,
      SourceText 64 defs "a ::= (\"x\" | b)*\nb ::= [^a-c]?".toList ∧
        ElaboratesAll defs ["a", "a_1", "b", "a_3", "b_4"] writes ∧
        RuleTable.Holds ⟨[
          [.ruleRef 3, .stop],
          [.char 'x', .alt, .ruleRef 2, .stop],
          [.ruleRef 4, .stop],
          [.ruleRef 1, .ruleRef 3, .alt, .stop],
          [⟨.charNot, 97⟩, ⟨.rangeUpper, 99⟩, .alt, .stop]]⟩ writes :=
  (parse_eq_iff 64 "a ::= (\"x\" | b)*\nb ::= [^a-c]?" (by decide +kernel)
    ⟨["a", "a_1", "b", "a_3", "b_4"]⟩ _).1
    ⟨[.allocated "a_1" 1, .allocated "a_3" 3, .compiledRule "a" 0, .allocated "b_4" 4,
      .compiledRule "b" 2], by decide +kernel⟩

end EbnfTables
