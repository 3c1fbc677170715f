import EbnfTables.Proofs.Source.Extension
import EbnfTables.Proofs.Source.Names
import EbnfTables.Proofs.Tables.Representation

/-!
# Tables up to the choice of ids

The ids in the tables of a source depend on everything that stands before.  What does not depend on
it is how many rules an expression generates (`Elaborates.length_writes`), and therefore which of
two ids stand at the same place.

* `Element.rename σ` replaces the ids of references;
* two elaborations of one expression are the same up to `σ`, if `σ` takes the ids of the generated
  rules, and those of the names that are referred to, to each other (`Elaborates.eq_map_rename`);
* what a row of definitions writes is a row of blocks, one for each definition
  (`ElaboratesAll.exists_blocks`), and the blocks can be put in another order.

Main result: `ElaboratesAll.exists_renaming`.  The tables of definitions in two orders are the same up
to a renaming, which keeps the rules of the definitions.
-/

namespace EbnfTables

/-! ### Renaming -/

/-- A reference to the rule with the new id; other words stay what they are. -/
def Element.rename (σ : RuleId → RuleId) (e : Element) : Element :=
  if e.kind = .ruleRef then .ruleRef (σ e.value) else e

/-- A body with its id. -/
def renameWrite (σ : RuleId → RuleId) (w : RuleId × Body) : RuleId × Body :=
  (σ w.1, w.2.map (.rename σ))

section

variable (σ : RuleId → RuleId)

namespace Element

@[simp] theorem rename_ruleRef (id : RuleId) : (ruleRef id).rename σ = ruleRef (σ id) := rfl

@[simp] theorem rename_alt : alt.rename σ = alt := rfl

@[simp] theorem rename_stop : stop.rename σ = stop := rfl

@[simp] theorem rename_char (c : Char) : (char c).rename σ = char c := rfl

theorem rename_of_kind_ne {e : Element} (h : e.kind ≠ .ruleRef) : e.rename σ = e := if_neg h

end Element

@[simp] theorem map_fst_renameWrite (writes : List (RuleId × Body)) :
    (writes.map (renameWrite σ)).map Prod.fst = (writes.map Prod.fst).map σ := by
  simp [renameWrite, Function.comp_def]

theorem Member.map_rename_elements {kind : ElementKind} (hkind : kind ≠ .ruleRef) (m : Member) :
    (m.elements kind).map (.rename σ) = m.elements kind := by
  cases m with
  | single c => simp [elements, Element.rename_of_kind_ne, hkind]
  | range lower upper => simp [elements, Element.rename_of_kind_ne, hkind]

@[simp] theorem map_rename_classElements (negated : Bool) (ms : List Member) :
    (classElements negated ms).map (.rename σ) = classElements negated ms := by
  cases ms with
  | nil => rfl
  | cons m ms =>
    have hfirst : (if negated then ElementKind.charNot else .char) ≠ .ruleRef := by
      cases negated <;> decide
    have hothers (m : Member) : (m.elements .charAlt).map (.rename σ) = m.elements .charAlt :=
      m.map_rename_elements σ (by decide)
    simp only [classElements, List.map_append, List.map_flatMap, hothers,
      m.map_rename_elements σ hfirst]

@[simp] theorem Quantifier.map_rename_expansion (q : Quantifier) (operand : Body) (id : RuleId) :
    (q.expansion operand id).map (.rename σ) = q.expansion (operand.map (.rename σ)) (σ id) := by
  cases q <;> simp [expansion]

end

/-! ### Expressions -/

/-- The number of groups and quantifiers: for each of them a rule is generated. -/
def Expr.generatedCount : {level : Level} → Expr level → ℕ
  | _, literal _ | _, charClass _ _ | _, ref _ | _, nothing => 0
  | _, group body => body.generatedCount + 1
  | _, repeated _ operand => operand.generatedCount + 1
  | _, snoc front last => front.generatedCount + last.generatedCount
  | _, only sequence => sequence.generatedCount
  | _, orElse earlier last => earlier.generatedCount + last.generatedCount

section

variable {σ : RuleId → RuleId} {base : String} {level : Level} {e : Expr level}
  {names mid names₂ mid₂ : List String} {elements elements₂ : Body}
  {writes writes₂ : List (RuleId × Body)}

theorem Elaborates.length_writes (h : Elaborates base e names elements mid writes) :
    writes.length = e.generatedCount := by
  induction h with
  | literal | charClass | nothing | ref => rfl
  | group _ _ ih | repeated _ _ ih =>
    rw [List.length_append, ih]
    rfl
  | only _ ih => exact ih
  | snoc _ _ ihfront ihlast | orElse _ _ ihfront ihlast =>
    rw [List.length_append, ihfront, ihlast]
    rfl

/-- `σ` takes the ids that the names referred to have in `names` to those that they have in
`names₂`. -/
def MatchesRefs (σ : RuleId → RuleId) {level : Level} (e : Expr level) (names names₂ : List String) :
    Prop :=
  ∀ name ∈ e.refNames, ∀ id id₂ : RuleId, names[id.toNat]? = some name →
    names₂[id₂.toNat]? = some name → σ id = id₂

theorem MatchesRefs.anti {names' names₂' : List String} (h : MatchesRefs σ e names names₂)
    (hnames : names' <+: names) (hnames₂ : names₂' <+: names₂) :
    MatchesRefs σ e names' names₂' := by
  intro name hname id id₂ hid hid₂
  exact h name hname id id₂ (getElem?_eq_some_of_isPrefix hnames hid)
    (getElem?_eq_some_of_isPrefix hnames₂ hid₂)

/-- Two rows that go with two elaborations are cut at the same place. -/
theorem map_fst_append_inj {front back front₂ back₂ : List (RuleId × Body)}
    (h : ((front ++ back).map Prod.fst).map σ = (front₂ ++ back₂).map Prod.fst)
    (hlen : front.length = front₂.length) :
    (front.map Prod.fst).map σ = front₂.map Prod.fst ∧
      (back.map Prod.fst).map σ = back₂.map Prod.fst := by
  rw [List.map_append, List.map_append, List.map_append] at h
  exact List.append_inj h (by simpa using hlen)

/-- Two elaborations of an expression differ in the ids alone. -/
theorem Elaborates.eq_map_rename (h : Elaborates base e names elements mid writes)
    (h₂ : Elaborates base e names₂ elements₂ mid₂ writes₂) (hrefs : MatchesRefs σ e mid mid₂)
    (hwrites : (writes.map Prod.fst).map σ = writes₂.map Prod.fst) :
    elements₂ = elements.map (.rename σ) ∧ writes₂ = writes.map (renameWrite σ) := by
  induction h generalizing names₂ elements₂ mid₂ writes₂ with
  | literal =>
    cases h₂
    simp [Function.comp_def]
  | charClass =>
    cases h₂
    simp
  | nothing =>
    cases h₂
    exact ⟨rfl, rfl⟩
  | ref hid =>
    cases h₂ with
    | ref hid₂ =>
      have hσ := hrefs _ List.mem_cons_self _ _ hid.getElem?_eq hid₂.getElem?_eq
      simp [hσ]
  | group hid hbody ih =>
    cases h₂ with
    | group hid₂ hbody₂ =>
      obtain ⟨hfront, hlast⟩ := map_fst_append_inj hwrites
        (hbody.length_writes.trans hbody₂.length_writes.symm)
      obtain ⟨rfl, rfl⟩ := ih hbody₂ hrefs hfront
      obtain rfl := (List.cons.inj hlast).1
      simp [renameWrite]
  | repeated hoperand hid ih =>
    cases h₂ with
    | repeated hoperand₂ hid₂ =>
      obtain ⟨hfront, hlast⟩ := map_fst_append_inj hwrites
        (hoperand.length_writes.trans hoperand₂.length_writes.symm)
      obtain ⟨rfl, rfl⟩ := ih hoperand₂ (hrefs.anti hid.isPrefix hid₂.isPrefix) hfront
      obtain rfl := (List.cons.inj hlast).1
      simp [renameWrite]
  | only _ ih =>
    cases h₂ with
    | only h₂ => exact ih h₂ hrefs hwrites
  | snoc hfront hlast ihfront ihlast
  | orElse hfront hlast ihfront ihlast =>
    cases h₂
    rename_i hfront₂ hlast₂
    obtain ⟨hwritesFront, hwritesLast⟩ := map_fst_append_inj hwrites
      (hfront.length_writes.trans hfront₂.length_writes.symm)
    have hrefsFront := MatchesRefs.anti (fun name hname => hrefs name (List.mem_append_left _ hname))
      hlast.isPrefix hlast₂.isPrefix
    have hrefsLast := fun name hname => hrefs name (List.mem_append_right _ hname)
    obtain ⟨rfl, rfl⟩ := ihfront hfront₂ hrefsFront hwritesFront
    obtain ⟨rfl, rfl⟩ := ihlast hlast₂ hrefsLast hwritesLast
    simp

end

/-! ### Blocks of definitions -/

/-- What a definition that says `rule` writes, when the names are `names` in the end: the bodies of
the rules that it generates, and its own body. -/
inductive Block (names : List String) : String × Expr .alternatives → List (RuleId × Body) → Prop
  | intro {name : String} {body : Expr .alternatives} {id : RuleId} {start mid : List String}
      {elements : Body} {writes : List (RuleId × Body)} (hname : names[id.toNat]? = some name)
      (hbody : Elaborates name body start elements mid writes) (hmid : mid <+: names) :
      Block names (name, body) (writes ++ [(id, elements ++ [.stop])])

section

variable {names names₂ : List String} {rule : String × Expr .alternatives}
  {block block₂ : List (RuleId × Body)}

theorem Block.mono (h : Block names rule block) (hnames : names <+: names₂) :
    Block names₂ rule block := by
  obtain ⟨hname, hbody, hmid⟩ := h
  exact ⟨getElem?_eq_some_of_isPrefix hnames hname, hbody, hmid.trans hnames⟩

theorem Block.length_eq (h : Block names rule block) :
    block.length = rule.2.generatedCount + 1 := by
  obtain ⟨-, hbody, -⟩ := h
  rw [List.length_append, hbody.length_writes]
  rfl

/-- The rows of a row of definitions are blocks. -/
theorem ElaboratesAll.exists_blocks {defs : List Definition} {writes : List (RuleId × Body)}
    (h : ElaboratesAll defs names writes) :
    ∃ blocks, List.Forall₂ (Block names) (defs.map Definition.rule) blocks ∧
      blocks.flatten = writes := by
  induction h with
  | nil => exact ⟨[], .nil, rfl⟩
  | @snoc defs d id names mid names' elements writes writes' _ hid _ hbody ih =>
    obtain ⟨blocks, hblocks, rfl⟩ := ih
    have hnames := hid.isPrefix.trans hbody.isPrefix
    have hlast : Block names' d.rule (writes' ++ [(id, elements ++ [.stop])]) :=
      .intro (getElem?_eq_some_of_isPrefix hbody.isPrefix hid.getElem?_eq) hbody List.prefix_rfl
    refine ⟨blocks ++ [writes' ++ [(id, elements ++ [.stop])]], ?_, by simp⟩
    rw [List.map_append]
    exact List.rel_append (hblocks.imp fun _ _ h => h.mono hnames) (.cons hlast .nil)

section

variable {σ : RuleId → RuleId}

/-- Where the ids of two blocks go with each other, those of the definition do. -/
theorem Block.exists_id (h : Block names rule block) (h₂ : Block names₂ rule block₂)
    (hσ : (block.map Prod.fst).map σ = block₂.map Prod.fst) :
    ∃ id : RuleId, names[id.toNat]? = some rule.1 ∧ names₂[(σ id).toNat]? = some rule.1 := by
  obtain ⟨hname, hbody, -⟩ := h
  cases h₂ with
  | intro hname₂ hbody₂ _ =>
    obtain ⟨-, hlast⟩ := map_fst_append_inj hσ
      (hbody.length_writes.trans hbody₂.length_writes.symm)
    obtain rfl := (List.cons.inj hlast).1
    exact ⟨_, hname, hname₂⟩

theorem Block.eq_map_rename (h : Block names rule block) (h₂ : Block names₂ rule block₂)
    (hσ : (block.map Prod.fst).map σ = block₂.map Prod.fst)
    (hrefs : MatchesRefs σ rule.2 names names₂) : block₂ = block.map (renameWrite σ) := by
  obtain ⟨-, hbody, hmid⟩ := h
  cases h₂ with
  | intro _ hbody₂ hmid₂ =>
    obtain ⟨hwrites, hlast⟩ := map_fst_append_inj hσ
      (hbody.length_writes.trans hbody₂.length_writes.symm)
    obtain ⟨rfl, rfl⟩ := hbody.eq_map_rename hbody₂ (hrefs.anti hmid hmid₂) hwrites
    obtain rfl := (List.cons.inj hlast).1
    simp [renameWrite]

/-! ### Rows of blocks -/

variable {rules : List (String × Expr .alternatives)} {blocks blocks₂ : List (List (RuleId × Body))}

theorem length_flatten_blocks (h : List.Forall₂ (Block names) rules blocks) :
    blocks.flatten.length = (rules.map fun rule => rule.2.generatedCount + 1).sum := by
  induction h with
  | nil => rfl
  | cons hblock _ ih =>
    rw [List.flatten_cons, List.length_append, hblock.length_eq, ih, List.map_cons, List.sum_cons]

theorem exists_id_of_forall₂_block (h : List.Forall₂ (Block names) rules blocks)
    (h₂ : List.Forall₂ (Block names₂) rules blocks₂)
    (hσ : (blocks.flatten.map Prod.fst).map σ = blocks₂.flatten.map Prod.fst) :
    ∀ rule ∈ rules,
      ∃ id : RuleId, names[id.toNat]? = some rule.1 ∧ names₂[(σ id).toNat]? = some rule.1 := by
  induction h generalizing blocks₂ with
  | nil => simp
  | cons hblock _ ih =>
    cases h₂ with
    | cons hblock₂ hblocks₂ =>
      obtain ⟨hfirst, hothers⟩ := map_fst_append_inj hσ (hblock.length_eq.trans hblock₂.length_eq.symm)
      exact List.forall_mem_cons.2 ⟨hblock.exists_id hblock₂ hfirst, ih hblocks₂ hothers⟩

theorem flatten_eq_map_rename (h : List.Forall₂ (Block names) rules blocks)
    (h₂ : List.Forall₂ (Block names₂) rules blocks₂)
    (hσ : (blocks.flatten.map Prod.fst).map σ = blocks₂.flatten.map Prod.fst)
    (hrefs : ∀ rule ∈ rules, MatchesRefs σ rule.2 names names₂) :
    blocks₂.flatten = blocks.flatten.map (renameWrite σ) := by
  induction h generalizing blocks₂ with
  | nil =>
    cases h₂
    rfl
  | cons hblock _ ih =>
    cases h₂ with
    | cons hblock₂ hblocks₂ =>
      obtain ⟨hfirst, hothers⟩ := map_fst_append_inj hσ (hblock.length_eq.trans hblock₂.length_eq.symm)
      obtain ⟨hrefsFirst, hrefsOthers⟩ := List.forall_mem_cons.1 hrefs
      rw [List.flatten_cons, List.flatten_cons, List.map_append, ih hblocks₂ hothers hrefsOthers,
        hblock.eq_map_rename hblock₂ hfirst hrefsFirst]

end

end

/-- Takes the members of one row to those of another at the same places. -/
def matching (ids ids₂ : List RuleId) (id : RuleId) : RuleId := ids₂.getD (ids.idxOf id) id

theorem map_matching {ids ids₂ : List RuleId} (hnodup : ids.Nodup)
    (hlen : ids.length = ids₂.length) : ids.map (matching ids ids₂) = ids₂ := by
  refine List.ext_getElem (by simpa using hlen) fun i hi hi₂ => ?_
  rw [List.length_map] at hi
  rw [List.getElem_map, matching, hnodup.idxOf_getElem i hi, List.getD_eq_getElem?_getD,
    List.getElem?_eq_getElem hi₂, Option.getD_some]

/-- **The tables of definitions in two orders are the same up to a renaming** that keeps the rules of
the definitions, if every name that is referred to is defined. -/
theorem ElaboratesAll.exists_renaming {defs defs₂ : List Definition} {names names₂ : List String}
    {writes writes₂ : List (RuleId × Body)} (h : ElaboratesAll defs names writes)
    (h₂ : ElaboratesAll defs₂ names₂ writes₂)
    (hperm : (defs.map Definition.rule).Perm (defs₂.map Definition.rule))
    (hgrounded : ∀ d ∈ defs, d.body.Grounded defs) :
    ∃ σ : RuleId → RuleId, (writes.map (renameWrite σ)).Perm writes₂ ∧
      ∀ d ∈ defs, ∃ id : RuleId,
        names[id.toNat]? = some d.name ∧ names₂[(σ id).toNat]? = some d.name := by
  obtain ⟨blocks, hblocks, rfl⟩ := h.exists_blocks
  obtain ⟨blocks₂, hblocks₂, rfl⟩ := h₂.exists_blocks
  -- the blocks of the second row in the order of the first
  obtain ⟨blocks₃, hblocks₃, hperm₃⟩ := List.perm_comp_forall₂ hperm hblocks₂
  have hlen : (blocks.flatten.map Prod.fst).length = (blocks₃.flatten.map Prod.fst).length := by
    rw [List.length_map, List.length_map, length_flatten_blocks hblocks,
      length_flatten_blocks hblocks₃]
  have hσ : (blocks.flatten.map Prod.fst).map
      (matching (blocks.flatten.map Prod.fst) (blocks₃.flatten.map Prod.fst)) =
        blocks₃.flatten.map Prod.fst := map_matching h.nodup_writes hlen
  have hnames := exists_id_of_forall₂_block hblocks hblocks₃ hσ
  refine ⟨_, ?_, fun d hd => hnames d.rule (List.mem_map_of_mem hd)⟩
  rw [← flatten_eq_map_rename hblocks hblocks₃ hσ]
  · exact hperm₃.flatten
  · intro rule hrule name hname id id₂ hid hid₂
    obtain ⟨d, hd, rfl⟩ := List.mem_map.1 hrule
    obtain ⟨d', hd', rfl⟩ := hgrounded d hd name hname
    obtain ⟨k, hk, hk₂⟩ := hnames d'.rule (List.mem_map_of_mem hd')
    obtain rfl := eq_of_getElem?_eq_some h.nodup hk hid
    exact eq_of_getElem?_eq_some h₂.nodup hk₂ hid₂

end EbnfTables
