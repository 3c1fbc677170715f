import EbnfTables.Proofs.Tables.Elaboration

/-!
# Expressions in finished tables

`Represents names writes e elements` says that in tables with the names `names` and the bodies
`writes`, the expression `e` is represented by `elements`.  It is elaboration seen from the end: it
does not matter when an id was given out, only what its body came to be.

It grows with the tables (`Represents.mono`), elaboration leads to it (`Elaborates.represents`), and
so every definition is represented in the tables of its source (`ElaboratesAll.exists_represents`).
Conversely every body that is written comes from such an expression, with its end or as a repetition
(`ElaboratesAll.isBody`).
-/

namespace EbnfTables

/-- In tables with the given names and bodies, `e` is represented by `elements`. -/
inductive Represents (names : List String) (writes : List (RuleId × Body)) :
    {level : Level} → Expr level → Body → Prop
  | literal {cs : List Char} : Represents names writes (.literal cs) (cs.map .char)
  | charClass {negated : Bool} {ms : List Member} :
      Represents names writes (.charClass negated ms) (classElements negated ms)
  | ref {name : String} {id : RuleId} (hid : names[id.toNat]? = some name) :
      Represents names writes (.ref name) [.ruleRef id]
  | group {body : Expr .alternatives} {id : RuleId} {elements : Body}
      (hbody : Represents names writes body elements) (hw : (id, elements ++ [.stop]) ∈ writes) :
      Represents names writes (.group body) [.ruleRef id]
  | repeated {q : Quantifier} {operand : Expr .item} {id : RuleId} {elements : Body}
      (hoperand : Represents names writes operand elements)
      (hw : (id, q.expansion elements id) ∈ writes) :
      Represents names writes (.repeated q operand) [.ruleRef id]
  | nothing : Represents names writes .nothing []
  | snoc {front : Expr .sequence} {last : Expr .item} {before elements : Body}
      (hfront : Represents names writes front before)
      (hlast : Represents names writes last elements) :
      Represents names writes (.snoc front last) (before ++ elements)
  | only {sequence : Expr .sequence} {elements : Body}
      (h : Represents names writes sequence elements) :
      Represents names writes (.only sequence) elements
  | orElse {earlier : Expr .alternatives} {last : Expr .sequence} {before elements : Body}
      (hearlier : Represents names writes earlier before)
      (hlast : Represents names writes last elements) :
      Represents names writes (.orElse earlier last) (before ++ .alt :: elements)

theorem Represents.mono {names names' : List String} {writes writes' : List (RuleId × Body)}
    {level : Level} {e : Expr level} {elements : Body} (h : Represents names writes e elements)
    (hnames : names <+: names') (hwrites : writes ⊆ writes') :
    Represents names' writes' e elements := by
  induction h with
  | literal => exact .literal
  | charClass => exact .charClass
  | ref hid => exact .ref (getElem?_eq_some_of_isPrefix hnames hid)
  | group _ hw ih => exact .group ih (hwrites hw)
  | repeated _ hw ih => exact .repeated ih (hwrites hw)
  | nothing => exact .nothing
  | snoc _ _ ihfront ihlast => exact .snoc ihfront ihlast
  | only _ ih => exact .only ih
  | orElse _ _ ihearlier ihlast => exact .orElse ihearlier ihlast

/-- An expression is represented in the tables of its elaboration. -/
theorem Elaborates.represents {base : String} {level : Level} {e : Expr level}
    {names names' : List String} {elements : Body} {writes : List (RuleId × Body)}
    (h : Elaborates base e names elements names' writes) : Represents names' writes e elements := by
  induction h with
  | literal => exact .literal
  | charClass => exact .charClass
  | ref hid => exact .ref hid.getElem?_eq
  | group _ _ ih =>
    refine .group (ih.mono List.prefix_rfl (List.subset_append_left _ _)) ?_
    exact List.mem_append_right _ List.mem_cons_self
  | repeated _ hid ih =>
    refine .repeated (ih.mono hid.isPrefix (List.subset_append_left _ _)) ?_
    exact List.mem_append_right _ List.mem_cons_self
  | nothing => exact .nothing
  | only _ ih => exact .only ih
  | snoc _ hlast ihfront ihlast =>
    exact .snoc (ihfront.mono hlast.isPrefix (List.subset_append_left _ _))
      (ihlast.mono List.prefix_rfl (List.subset_append_right _ _))
  | orElse _ hlast ihearlier ihlast =>
    exact .orElse (ihearlier.mono hlast.isPrefix (List.subset_append_left _ _))
      (ihlast.mono List.prefix_rfl (List.subset_append_right _ _))

/-- A body of the tables: that of alternatives with the end behind them, or of a repetition. -/
inductive IsBody (names : List String) (writes : List (RuleId × Body)) : RuleId × Body → Prop
  | alternatives {e : Expr .alternatives} {id : RuleId} {elements : Body}
      (h : Represents names writes e elements) : IsBody names writes (id, elements ++ [.stop])
  | repetition {q : Quantifier} {operand : Expr .item} {id : RuleId} {elements : Body}
      (h : Represents names writes operand elements) :
      IsBody names writes (id, q.expansion elements id)

theorem IsBody.mono {names names' : List String} {writes writes' : List (RuleId × Body)}
    {w : RuleId × Body} (h : IsBody names writes w) (hnames : names <+: names')
    (hwrites : writes ⊆ writes') : IsBody names' writes' w := by
  cases h with
  | alternatives h => exact .alternatives (h.mono hnames hwrites)
  | repetition h => exact .repetition (h.mono hnames hwrites)

/-- What is written on the way are bodies of the tables. -/
theorem Elaborates.isBody {base : String} {level : Level} {e : Expr level}
    {names names' : List String} {elements : Body} {writes : List (RuleId × Body)}
    (h : Elaborates base e names elements names' writes) :
    ∀ w ∈ writes, IsBody names' writes w := by
  induction h with
  | literal | charClass | nothing | ref => simp
  | group _ hbody ih =>
    rw [List.forall_mem_append, List.forall_mem_singleton]
    refine ⟨fun w hw => (ih w hw).mono List.prefix_rfl (List.subset_append_left _ _), ?_⟩
    exact .alternatives (hbody.represents.mono List.prefix_rfl (List.subset_append_left _ _))
  | repeated hoperand hid ih =>
    rw [List.forall_mem_append, List.forall_mem_singleton]
    refine ⟨fun w hw => (ih w hw).mono hid.isPrefix (List.subset_append_left _ _), ?_⟩
    exact .repetition (hoperand.represents.mono hid.isPrefix (List.subset_append_left _ _))
  | snoc _ hlast ihfront ihlast | orElse _ hlast ihfront ihlast =>
    rw [List.forall_mem_append]
    constructor
    · exact fun w hw => (ihfront w hw).mono hlast.isPrefix (List.subset_append_left _ _)
    · exact fun w hw => (ihlast w hw).mono List.prefix_rfl (List.subset_append_right _ _)
  | only _ ih => exact ih

/-- The rule of a definition has the representation of the right side as its body. -/
structure Definition.Represented (names : List String) (writes : List (RuleId × Body))
    (d : Definition) (id : RuleId) (elements : Body) : Prop where
  name : names[id.toNat]? = some d.name
  body : (id, elements ++ [.stop]) ∈ writes
  represents : Represents names writes d.body elements

theorem ElaboratesAll.exists_represents {defs : List Definition} {names : List String}
    {writes : List (RuleId × Body)} (h : ElaboratesAll defs names writes) :
    ∀ d ∈ defs, ∃ id elements, d.Represented names writes id elements := by
  induction h with
  | nil => simp
  | @snoc defs d id names mid names' elements writes writes' _ hid _ hbody ih =>
    rw [List.forall_mem_append, List.forall_mem_singleton]
    constructor
    · intro d' hd'
      obtain ⟨k, elements', hname, hw, hrep⟩ := ih d' hd'
      have hnames := hid.isPrefix.trans hbody.isPrefix
      exact ⟨k, elements', getElem?_eq_some_of_isPrefix hnames hname, List.mem_append_left _ hw,
        hrep.mono hnames (List.subset_append_left _ _)⟩
    · have hname := getElem?_eq_some_of_isPrefix hbody.isPrefix hid.getElem?_eq
      refine ⟨id, elements, hname, by simp, ?_⟩
      refine hbody.represents.mono List.prefix_rfl fun w hw => ?_
      exact List.mem_append_right _ (List.mem_append_left _ hw)

/-- All that is written are bodies of the tables. -/
theorem ElaboratesAll.isBody {defs : List Definition} {names : List String}
    {writes : List (RuleId × Body)} (h : ElaboratesAll defs names writes) :
    ∀ w ∈ writes, IsBody names writes w := by
  induction h with
  | nil => simp
  | @snoc defs d id names mid names' elements writes writes' _ hid _ hbody ih =>
    have hsub : writes' ⊆ writes ++ (writes' ++ [(id, elements ++ [.stop])]) :=
      fun w hw => List.mem_append_right _ (List.mem_append_left _ hw)
    rw [List.forall_mem_append, List.forall_mem_append, List.forall_mem_singleton]
    refine ⟨fun w hw => ?_, fun w hw => ?_, ?_⟩
    · exact (ih w hw).mono (hid.isPrefix.trans hbody.isPrefix) (List.subset_append_left _ _)
    · exact (hbody.isBody w hw).mono List.prefix_rfl hsub
    · exact .alternatives (hbody.represents.mono List.prefix_rfl hsub)

theorem ElaboratesAll.body_ne_nil {defs : List Definition} {names : List String}
    {writes : List (RuleId × Body)} (h : ElaboratesAll defs names writes) :
    ∀ w ∈ writes, w.2 ≠ [] := by
  intro w hw
  cases h.isBody w hw with
  | alternatives => simp
  | @repetition q _ id elements => exact q.expansion_ne_nil elements id

end EbnfTables
