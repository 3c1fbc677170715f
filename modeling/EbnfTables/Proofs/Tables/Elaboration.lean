import EbnfTables.Compile.Run
import EbnfTables.Proofs.Source.Reading
import EbnfTables.Proofs.Tables.Naming

/-!
# Elaboration

What the tables of a source are, said on lists and without a builder.

* `Elaborates base e names elements names' writes`: inside the definition of `base`, and with the
  names `names` given out before, the expression `e` stands for `elements`; afterwards the names
  are `names'`, and the rules generated on the way have the bodies `writes`, in their order.  A
  group has its id before the ids inside it, a quantifier has its id after those of its operand;
* `ElaboratesAll defs names writes`: the definitions `defs` lead to the names `names` and the bodies
  `writes`, and no definition finds that its rule has a body already;
* `RuleTable.Holds t writes`: the rule table `t` holds just these bodies.

Ids only grow, and no id is written twice (`ElaboratesAll.nodup_writes`).
-/

namespace EbnfTables

/-- The expression `e` stands for `elements`. -/
inductive Elaborates (base : String) : {level : Level} → Expr level → List String → Body →
    List String → List (RuleId × Body) → Prop
  | literal {cs : List Char} {names : List String} :
      Elaborates base (.literal cs) names (cs.map .char) names []
  | charClass {negated : Bool} {ms : List Member} {names : List String} :
      Elaborates base (.charClass negated ms) names (classElements negated ms) names []
  | ref {name : String} {id : RuleId} {names names' : List String}
      (hid : Interned names name id names') :
      Elaborates base (.ref name) names [.ruleRef id] names' []
  | group {body : Expr .alternatives} {id : RuleId} {names mid names' : List String}
      {elements : Body} {writes : List (RuleId × Body)} (hid : Generated names base id mid)
      (hbody : Elaborates base body mid elements names' writes) :
      Elaborates base (.group body) names [.ruleRef id] names'
        (writes ++ [(id, elements ++ [.stop])])
  | repeated {q : Quantifier} {operand : Expr .item} {id : RuleId} {names mid names' : List String}
      {elements : Body} {writes : List (RuleId × Body)}
      (hoperand : Elaborates base operand names elements mid writes)
      (hid : Generated mid base id names') :
      Elaborates base (.repeated q operand) names [.ruleRef id] names'
        (writes ++ [(id, q.expansion elements id)])
  | nothing {names : List String} : Elaborates base .nothing names [] names []
  | snoc {front : Expr .sequence} {last : Expr .item} {names mid names' : List String}
      {before elements : Body} {writes writes' : List (RuleId × Body)}
      (hfront : Elaborates base front names before mid writes)
      (hlast : Elaborates base last mid elements names' writes') :
      Elaborates base (.snoc front last) names (before ++ elements) names' (writes ++ writes')
  | only {sequence : Expr .sequence} {names names' : List String} {elements : Body}
      {writes : List (RuleId × Body)}
      (h : Elaborates base sequence names elements names' writes) :
      Elaborates base (.only sequence) names elements names' writes
  | orElse {earlier : Expr .alternatives} {last : Expr .sequence} {names mid names' : List String}
      {before elements : Body} {writes writes' : List (RuleId × Body)}
      (hearlier : Elaborates base earlier names before mid writes)
      (hlast : Elaborates base last mid elements names' writes') :
      Elaborates base (.orElse earlier last) names (before ++ .alt :: elements) names'
        (writes ++ writes')

/-- The definitions lead to the given names and bodies. -/
inductive ElaboratesAll : List Definition → List String → List (RuleId × Body) → Prop
  | nil : ElaboratesAll [] [] []
  | snoc {defs : List Definition} {d : Definition} {id : RuleId} {names mid names' : List String}
      {elements : Body} {writes writes' : List (RuleId × Body)}
      (hdefs : ElaboratesAll defs names writes) (hid : Interned names d.name id mid)
      (hnew : id ∉ writes.map Prod.fst)
      (hbody : Elaborates d.name d.body mid elements names' writes') :
      ElaboratesAll (defs ++ [d]) names' (writes ++ (writes' ++ [(id, elements ++ [.stop])]))

/-- The table holds the given bodies and no others, and no slot behind the last of them. -/
structure RuleTable.Holds (t : RuleTable) (writes : List (RuleId × Body)) : Prop where
  slot_of_mem : ∀ id body, (id, body) ∈ writes → t.slot id = body
  slot_of_notMem : ∀ id, id ∉ writes.map Prod.fst → t.slot id = []
  size_le_iff : ∀ n, t.size ≤ n ↔ ∀ id ∈ writes.map Prod.fst, id.toNat < n

/-! ### Ids -/

theorem map_fst_concat (writes : List (RuleId × Body)) (id : RuleId) (body : Body) :
    (writes ++ [(id, body)]).map Prod.fst = writes.map Prod.fst ++ [id] := by
  rw [List.map_append, List.map_singleton]

theorem nodup_map_fst_concat {writes : List (RuleId × Body)} {id : RuleId}
    (h : (writes.map Prod.fst).Nodup) (hid : id ∉ writes.map Prod.fst) (body : Body) :
    ((writes ++ [(id, body)]).map Prod.fst).Nodup := by
  rw [map_fst_concat, ← List.concat_eq_append, List.nodup_concat]
  exact ⟨hid, h⟩

namespace Elaborates

variable {base : String} {level : Level} {e : Expr level} {names names' : List String}
  {elements : Body} {writes : List (RuleId × Body)}

theorem isPrefix (h : Elaborates base e names elements names' writes) : names <+: names' := by
  induction h with
  | literal | charClass | nothing => exact List.prefix_rfl
  | ref hid => exact hid.isPrefix
  | group hid _ ih => exact hid.isPrefix.trans ih
  | repeated _ hid ih => exact ih.trans hid.isPrefix
  | snoc _ _ ihfront ihlast => exact ihfront.trans ihlast
  | only _ ih => exact ih
  | orElse _ _ ihearlier ihlast => exact ihearlier.trans ihlast

theorem nodup (h : Elaborates base e names elements names' writes) (hn : names.Nodup) :
    names'.Nodup := by
  induction h with
  | literal | charClass | nothing => exact hn
  | ref hid => exact hid.nodup hn
  | group hid _ ih => exact ih (hid.nodup hn)
  | repeated _ hid ih => exact hid.nodup (ih hn)
  | snoc _ _ ihfront ihlast => exact ihlast (ihfront hn)
  | only _ ih => exact ih hn
  | orElse _ _ ihearlier ihlast => exact ihlast (ihearlier hn)

theorem length_le (h : Elaborates base e names elements names' writes) :
    names'.length ≤ names.length + e.idCount := by
  induction h with
  | literal | charClass | nothing => exact Nat.le_add_right _ _
  | ref hid => exact hid.length_le
  | group hid _ ih =>
    have := hid.length_eq
    rw [Expr.idCount]
    omega
  | repeated _ hid ih =>
    have := hid.length_eq
    rw [Expr.idCount]
    omega
  | snoc _ _ ihfront ihlast => rw [Expr.idCount]; omega
  | only _ ih => exact ih
  | orElse _ _ ihearlier ihlast => rw [Expr.idCount]; omega

/-- The rules that are written are those that were generated. -/
theorem le_toNat_lt (h : Elaborates base e names elements names' writes) :
    ∀ id ∈ writes.map Prod.fst, names.length ≤ id.toNat ∧ id.toNat < names'.length := by
  induction h with
  | literal | charClass | nothing | ref => simp
  | @group body id names mid names' elements writes hid hbody ih =>
    have hlen := hid.length_eq
    have hle := hbody.isPrefix.length_le
    have htoNat := hid.toNat_id
    rw [map_fst_concat, List.forall_mem_append, List.forall_mem_singleton]
    refine ⟨fun k hk => ?_, by omega⟩
    have := ih k hk
    omega
  | @repeated q operand id names mid names' elements writes hoperand hid ih =>
    have hlen := hid.length_eq
    have hle := hoperand.isPrefix.length_le
    have htoNat := hid.toNat_id
    rw [map_fst_concat, List.forall_mem_append, List.forall_mem_singleton]
    refine ⟨fun k hk => ?_, by omega⟩
    have := ih k hk
    omega
  | only _ ih => exact ih
  | snoc hfront hlast ihfront ihlast | orElse hfront hlast ihfront ihlast =>
    have hle := hfront.isPrefix.length_le
    have hle' := hlast.isPrefix.length_le
    rw [List.map_append, List.forall_mem_append]
    exact ⟨fun k hk => ⟨(ihfront k hk).1, (ihfront k hk).2.trans_le hle'⟩,
      fun k hk => ⟨hle.trans (ihlast k hk).1, (ihlast k hk).2⟩⟩

theorem nodup_writes (h : Elaborates base e names elements names' writes) :
    (writes.map Prod.fst).Nodup := by
  induction h with
  | literal | charClass | nothing | ref => simp
  | @group body id names mid names' elements writes hid hbody ih =>
    -- the id of a group was given out before the ids inside it
    refine nodup_map_fst_concat ih (fun hmem => ?_) _
    have := hbody.le_toNat_lt id hmem
    rw [hid.length_eq, hid.toNat_id] at this
    omega
  | @repeated q operand id names mid names' elements writes hoperand hid ih =>
    -- the id of a repetition is given out after those of its operand
    refine nodup_map_fst_concat ih (fun hmem => ?_) _
    have := hoperand.le_toNat_lt id hmem
    rw [hid.toNat_id] at this
    omega
  | only _ ih => exact ih
  | snoc hfront hlast ihfront ihlast | orElse hfront hlast ihfront ihlast =>
    rw [List.map_append, List.nodup_append]
    refine ⟨ihfront, ihlast, ?_⟩
    rintro k hk _ hl rfl
    have := hfront.le_toNat_lt k hk
    have := hlast.le_toNat_lt k hl
    omega

end Elaborates

namespace ElaboratesAll

variable {defs : List Definition} {names : List String} {writes : List (RuleId × Body)}

theorem nodup (h : ElaboratesAll defs names writes) : names.Nodup := by
  induction h with
  | nil => exact List.nodup_nil
  | snoc _ hid _ hbody ih => exact hbody.nodup (hid.nodup ih)

theorem length_le (h : ElaboratesAll defs names writes) : names.length ≤ idCount defs := by
  induction h with
  | nil => simp
  | @snoc defs d id names mid names' elements writes writes' _ hid _ hbody ih =>
    have hmid := hid.length_le
    have hnames' := hbody.length_le
    rw [idCount_concat]
    omega

theorem toNat_lt (h : ElaboratesAll defs names writes) :
    ∀ id ∈ writes.map Prod.fst, id.toNat < names.length := by
  induction h with
  | nil => simp
  | @snoc defs d id names mid names' elements writes writes' _ hid _ hbody ih =>
    have hmid := hid.isPrefix.length_le
    have hnames' := hbody.isPrefix.length_le
    have hlt := hid.toNat_lt
    rw [List.map_append, map_fst_concat, List.forall_mem_append, List.forall_mem_append,
      List.forall_mem_singleton]
    refine ⟨fun k hk => ?_, fun k hk => (hbody.le_toNat_lt k hk).2, by omega⟩
    have := ih k hk
    omega

/-- No id is written twice. -/
theorem nodup_writes (h : ElaboratesAll defs names writes) : (writes.map Prod.fst).Nodup := by
  induction h with
  | nil => simp
  | @snoc defs d id names mid names' elements writes writes' hdefs hid hnew hbody ih =>
    have hmid := hid.isPrefix.length_le
    rw [← List.append_assoc]
    refine nodup_map_fst_concat ?_ (fun hmem => ?_) _
    · -- the new ids are not below those that were there before
      rw [List.map_append, List.nodup_append]
      refine ⟨ih, hbody.nodup_writes, ?_⟩
      rintro k hk _ hl rfl
      have := hbody.le_toNat_lt k hl
      have := hdefs.toNat_lt k hk
      omega
    · rw [List.map_append, List.mem_append] at hmem
      rcases hmem with hk | hk
      · exact hnew hk
      · have := hbody.le_toNat_lt id hk
        have := hid.toNat_lt
        omega

end ElaboratesAll

end EbnfTables
