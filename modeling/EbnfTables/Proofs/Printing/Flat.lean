import EbnfTables.Proofs.Source.Names
import EbnfTables.Proofs.Tables.Layout

/-!
# Definitions without groups and quantifiers

A flat expression has neither groups nor quantifiers.  Its elaboration generates no rule: nothing is
written, and the log is left alone (`Expr.build_events`).  So definitions that are flat need no more
ids than there are names in them, however long they are (`exists_elaboratesAll_of_isFlat`).

Without generated rules a body can be compared with its expression by itself, once the ids are
replaced by the names: `Body.spelled` does this for bodies and `Expr.spelled` for expressions, and
the two agree (`Represents.spelled_eq`).
-/

namespace EbnfTables

/-- There are neither groups nor quantifiers in the expression. -/
def Expr.IsFlat : {level : Level} → Expr level → Prop
  | _, literal _ | _, charClass _ _ | _, ref _ | _, nothing => True
  | _, group _ | _, repeated _ _ => False
  | _, snoc front last => front.IsFlat ∧ last.IsFlat
  | _, only sequence => sequence.IsFlat
  | _, orElse earlier last => earlier.IsFlat ∧ last.IsFlat

/-! ### The log -/

/-- Flat expressions leave the log alone. -/
theorem Expr.build_events {level : Level} {e : Expr level} (he : e.IsFlat) (base : String)
    (b : Builder) : (e.build base b).2.events = b.events := by
  induction e generalizing b with
  | literal | charClass | ref | nothing => rfl
  | group | repeated => exact he.elim
  | only _ ih => exact ih he b
  | snoc _ _ ihfront ihlast | orElse _ _ ihfront ihlast =>
    simp only [build]
    rw [ihlast he.2, ihfront he.1]

/-- Flat definitions generate no rules. -/
theorem Builder.allocated_notMem_addDefinitions {defs : List Definition}
    (hflat : ∀ d ∈ defs, d.body.IsFlat) {b : Builder} {name : String} {id : RuleId}
    (hb : .allocated name id ∉ b.events) :
    .allocated name id ∉ (addDefinitions defs b).1.events := by
  induction defs generalizing b with
  | nil => exact hb
  | cons d defs ih =>
    obtain ⟨hd, hdefs⟩ := List.forall_mem_cons.1 hflat
    have hadd : .allocated name id ∉ (b.addDefinition d).1.events := by
      unfold addDefinition
      by_cases hdefined : b.rules.isDefined (b.symbols.intern d.name).1
      · simp only [intern, hdefined, if_true]
        exact hb
      · simp only [intern, if_neg hdefined, log, define, Expr.build_events hd, List.mem_append,
          List.mem_singleton, not_or]
        exact ⟨hb, by simp⟩
    rw [addDefinitions]
    split
    · rename_i heq
      rwa [heq] at hadd
    · rename_i heq
      rw [heq] at hadd
      exact ih hdefs hadd

/-- The log of a compilation is the log of its definitions, and perhaps the last note. -/
theorem allocated_notMem_run {options : CompileOptions} {source : String} {defs : List Definition}
    (hsource : SourceText options.maxNesting defs source.toList)
    (hflat : ∀ d ∈ defs, d.body.IsFlat) (name : String) (id : RuleId) :
    .allocated name id ∉ (run options source).events := by
  have hdefs : .allocated name id ∉ (Builder.empty.addDefinitions defs).1.events :=
    Builder.allocated_notMem_addDefinitions hflat (by simp [Builder.empty])
  have hparse : .allocated name id ∉ (parse options.maxNesting source).1.events := by
    rw [parse, (read_eq_iff.2 hsource).2]
    unfold Reading.build
    split
    · rename_i heq
      rwa [heq] at hdefs
    · rename_i heq
      rwa [heq] at hdefs
  unfold run
  split
  · rename_i heq
    rwa [heq] at hparse
  · rename_i b heq
    rw [heq] at hparse
    unfold Builder.finish
    split
    · exact hparse
    · simp only [Builder.log, List.mem_append, List.mem_singleton, not_or]
      exact ⟨hparse, by simp⟩

/-! ### Ids -/

/-- A name can be interned if all names there will ever be are few enough. -/
theorem exists_interned_of_subset {names all : List String} (hall : all.length ≤ 2 ^ 32)
    (hn : names.Nodup) (hsub : names ⊆ all) {name : String} (hname : name ∈ all) :
    ∃ id names', Interned names name id names' ∧ names' ⊆ all := by
  by_cases hmem : name ∈ names
  · have hlen := (hn.subperm hsub).length_le
    obtain ⟨id, hid⟩ := exists_interned_of_mem (hlen.trans hall) hmem
    exact ⟨id, names, hid, hsub⟩
  · have hsub' : name :: names ⊆ all := List.cons_subset.2 ⟨hname, hsub⟩
    have hlen := ((List.nodup_cons.2 ⟨hmem, hn⟩).subperm hsub').length_le
    rw [List.length_cons] at hlen
    obtain ⟨id, names', hid⟩ := exists_interned (show names.length < 2 ^ 32 by omega) name
    refine ⟨id, names', hid, ?_⟩
    rw [hid.names_eq, if_neg hmem]
    exact List.append_subset.2 ⟨hsub, List.cons_subset.2 ⟨hname, List.nil_subset _⟩⟩

/-- A flat expression can be elaborated within any names that contain its own, and nothing is
written. -/
theorem exists_elaborates_of_isFlat {all : List String} (hall : all.length ≤ 2 ^ 32)
    {level : Level} {e : Expr level} (he : e.IsFlat) (href : e.refNames ⊆ all) (base : String)
    {names : List String} (hn : names.Nodup) (hsub : names ⊆ all) :
    ∃ elements names', Elaborates base e names elements names' [] ∧ names' ⊆ all := by
  induction e generalizing names with
  | literal => exact ⟨_, _, .literal, hsub⟩
  | charClass => exact ⟨_, _, .charClass, hsub⟩
  | ref name =>
    obtain ⟨id, names', hid, hsub'⟩ :=
      exists_interned_of_subset hall hn hsub (href List.mem_cons_self)
    exact ⟨_, _, .ref hid, hsub'⟩
  | group | repeated => exact he.elim
  | nothing => exact ⟨_, _, .nothing, hsub⟩
  | only _ ih =>
    obtain ⟨elements, names', h, hsub'⟩ := ih he href hn hsub
    exact ⟨_, _, .only h, hsub'⟩
  | snoc front last ihfront ihlast =>
    obtain ⟨hfront, hlast⟩ := List.append_subset.1 href
    obtain ⟨before, mid, hf, hmid⟩ := ihfront he.1 hfront hn hsub
    obtain ⟨elements, names', hl, hnames'⟩ := ihlast he.2 hlast (hf.nodup hn) hmid
    exact ⟨_, _, .snoc hf hl, hnames'⟩
  | orElse earlier last ihearlier ihlast =>
    obtain ⟨hearlier, hlast⟩ := List.append_subset.1 href
    obtain ⟨before, mid, he', hmid⟩ := ihearlier he.1 hearlier hn hsub
    obtain ⟨elements, names', hl, hnames'⟩ := ihlast he.2 hlast (he'.nodup hn) hmid
    exact ⟨_, _, .orElse he' hl, hnames'⟩

/-- Flat definitions of different rules can be elaborated within any names that contain their own,
and only the bodies of the definitions are written. -/
theorem exists_elaboratesAll_of_isFlat {all : List String} (hall : all.length ≤ 2 ^ 32)
    {defs : List Definition} (hflat : ∀ d ∈ defs, d.body.IsFlat)
    (hnodup : (defs.map Definition.name).Nodup) (hname : ∀ d ∈ defs, d.name ∈ all)
    (href : ∀ d ∈ defs, d.body.refNames ⊆ all) :
    ∃ names writes, ElaboratesAll defs names writes ∧ names ⊆ all ∧
      ∀ w ∈ writes, ∃ d ∈ defs, names[w.1.toNat]? = some d.name := by
  induction defs using List.reverseRecOn with
  | nil => exact ⟨[], [], .nil, List.nil_subset _, by simp⟩
  | append_singleton defs d ih =>
    rw [List.forall_mem_append, List.forall_mem_singleton] at hflat hname href
    rw [List.map_append, List.nodup_append] at hnodup
    obtain ⟨names, writes, hdefs, hsub, hwrites⟩ := ih hflat.1 hnodup.1 hname.1 href.1
    obtain ⟨id, mid, hid, hmid⟩ := exists_interned_of_subset hall hdefs.nodup hsub hname.2
    obtain ⟨elements, names', hbody, hsub'⟩ := exists_elaborates_of_isFlat hall hflat.2 href.2
      d.name (hid.nodup hdefs.nodup) hmid
    -- an id that is written has the name of another definition
    have hnew : id ∉ writes.map Prod.fst := by
      intro hmem
      obtain ⟨w, hw, rfl⟩ := List.mem_map.1 hmem
      obtain ⟨d', hd', hname'⟩ := hwrites w hw
      have heq := (getElem?_eq_some_of_isPrefix hid.isPrefix hname').symm.trans hid.getElem?_eq
      refine hnodup.2.2 d'.name (List.mem_map_of_mem hd') d.name (by simp) ?_
      exact Option.some.inj heq
    refine ⟨names', _, .snoc hdefs hid hnew hbody, hsub', ?_⟩
    rw [List.forall_mem_append, List.nil_append, List.forall_mem_singleton]
    constructor
    · intro w hw
      obtain ⟨d', hd', hname'⟩ := hwrites w hw
      refine ⟨d', List.mem_append_left _ hd', ?_⟩
      exact getElem?_eq_some_of_isPrefix (hid.isPrefix.trans hbody.isPrefix) hname'
    · refine ⟨d, by simp, ?_⟩
      exact getElem?_eq_some_of_isPrefix hbody.isPrefix hid.getElem?_eq

/-! ### Names in place of ids -/

/-- An element, with the name of the rule in place of the id if it is a reference. -/
def Element.spelled (symbols : SymbolTable) (e : Element) : Element ⊕ Option String :=
  if e.kind = .ruleRef then .inr (symbols.name? e.value) else .inl e

/-- The elements of a body, with names in place of ids. -/
def Body.spelled (symbols : SymbolTable) (body : Body) : List (Element ⊕ Option String) :=
  body.map (Element.spelled symbols)

/-- The elements of a flat expression, with names in place of ids. -/
def Expr.spelled : {level : Level} → Expr level → List (Element ⊕ Option String)
  | _, literal cs => cs.map fun c => .inl (.char c)
  | _, charClass negated ms => (classElements negated ms).map .inl
  | _, ref name => [.inr (some name)]
  | _, group _ | _, repeated _ _ | _, nothing => []
  | _, snoc front last => front.spelled ++ last.spelled
  | _, only sequence => sequence.spelled
  | _, orElse earlier last => earlier.spelled ++ .inl .alt :: last.spelled

@[simp] theorem Body.spelled_append (symbols : SymbolTable) (body body' : Body) :
    spelled symbols (body ++ body') = spelled symbols body ++ spelled symbols body' :=
  List.map_append

theorem Body.spelled_classElements (symbols : SymbolTable) (negated : Bool) (ms : List Member) :
    spelled symbols (classElements negated ms) = (classElements negated ms).map .inl := by
  refine List.map_congr_left fun e he => ?_
  have hchar := isChar_of_mem_classElements he
  rw [Element.spelled, if_neg]
  intro hkind
  rw [hkind] at hchar
  cases hchar

/-- A flat expression is spelled as its elements are. -/
theorem Represents.spelled_eq {names : List String} {writes : List (RuleId × Body)} {level : Level}
    {e : Expr level} {elements : Body} (h : Represents names writes e elements) (he : e.IsFlat) :
    Body.spelled ⟨names⟩ elements = e.spelled := by
  induction h with
  | literal =>
    rw [Body.spelled, List.map_map]
    rfl
  | charClass => exact Body.spelled_classElements _ _ _
  | ref hid => exact congrArg (fun name => [Sum.inr name]) hid
  | group | repeated => exact he.elim
  | nothing => rfl
  | only _ ih => exact ih he
  | snoc _ _ ihfront ihlast =>
    rw [Body.spelled_append, ihfront he.1, ihlast he.2, Expr.spelled]
  | orElse _ _ ihearlier ihlast =>
    rw [Body.spelled_append, ihearlier he.1, Expr.spelled, ← ihlast he.2]
    rfl

/-- The names that a flat expression refers to can be read off its spelling. -/
theorem Expr.inr_mem_spelled_iff {level : Level} {e : Expr level} (he : e.IsFlat)
    {name? : Option String} : .inr name? ∈ e.spelled ↔ ∃ name ∈ e.refNames, name? = some name := by
  induction e with
  | literal | charClass | nothing => simp [spelled, refNames]
  | ref name => simp [spelled, refNames]
  | group | repeated => exact he.elim
  | only _ ih => exact ih he
  | snoc _ _ ihfront ihlast =>
    rw [spelled, refNames, List.mem_append, ihfront he.1, ihlast he.2]
    simp only [List.mem_append, or_and_right, exists_or]
  | orElse _ _ ihearlier ihlast =>
    rw [spelled, refNames, List.mem_append, List.mem_cons, ihearlier he.1, ihlast he.2]
    simp only [reduceCtorEq, false_or, List.mem_append, or_and_right, exists_or]

/-- If nothing but flat definitions is written, and they refer to each other only, the tables are
closed. -/
theorem ElaboratesAll.closed_of_isFlat {defs : List Definition} {names : List String}
    {writes : List (RuleId × Body)} (h : ElaboratesAll defs names writes)
    (hflat : ∀ d ∈ defs, d.body.IsFlat) (hground : ∀ d ∈ defs, d.body.Grounded defs)
    (hwrites : ∀ w ∈ writes, ∃ d ∈ defs, names[w.1.toNat]? = some d.name) : Closed writes := by
  intro w hw e he hkind
  obtain ⟨d, hd, hname⟩ := hwrites w hw
  obtain ⟨id, elements, hrep⟩ := h.exists_represents d hd
  obtain rfl : id = w.1 := eq_of_getElem?_eq_some h.nodup hrep.name hname
  have hbody : (w.1, elements ++ [.stop]) = w :=
    List.inj_on_of_nodup_map h.nodup_writes hrep.body hw rfl
  have hmem : e ∈ elements := by
    rw [← hbody, List.mem_append, List.mem_singleton] at he
    rcases he with he | rfl
    · exact he
    · cases hkind
  -- the name of the reference is one of those in the definition
  have hspelled : Element.spelled ⟨names⟩ e ∈ d.body.spelled := by
    rw [← hrep.represents.spelled_eq (hflat d hd)]
    exact List.mem_map_of_mem hmem
  rw [Element.spelled, if_pos hkind, Expr.inr_mem_spelled_iff (hflat d hd)] at hspelled
  obtain ⟨name, href, hvalue⟩ := hspelled
  obtain ⟨d', hd', rfl⟩ := hground d hd name href
  obtain ⟨id', elements', hrep'⟩ := h.exists_represents d' hd'
  obtain rfl : id' = e.value := eq_of_getElem?_eq_some h.nodup hrep'.name hvalue
  exact List.mem_map_of_mem (f := Prod.fst) hrep'.body

/-- If the names are different, the spelling determines the body. -/
theorem Body.spelled_inj {symbols : SymbolTable} (hn : symbols.names.Nodup) {body body' : Body}
    (hnamed : ∀ e ∈ body, e.kind = .ruleRef → e.value.toNat < symbols.size)
    (h : body.spelled symbols = body'.spelled symbols) : body = body' := by
  induction body generalizing body' with
  | nil => exact (List.map_eq_nil_iff.1 h.symm).symm
  | cons e body ih =>
    cases body' with
    | nil => cases h
    | cons e' body' =>
      obtain ⟨hvalue, hnamed⟩ := List.forall_mem_cons.1 hnamed
      obtain ⟨he, hbody⟩ := List.cons.inj h
      rw [ih hnamed hbody]
      congr 1
      unfold Element.spelled at he
      split at he
      · rename_i hkind
        split at he
        · rename_i hkind'
          have hid := (List.getElem?_inj (hvalue hkind) hn).1 (Sum.inr.inj he)
          obtain ⟨kind, value⟩ := e
          obtain ⟨kind', value'⟩ := e'
          simp only at hkind hkind' hid
          rw [hkind, hkind', UInt32.toNat_inj.1 hid]
        · cases he
      · split at he
        · cases he
        · exact Sum.inl.inj he

end EbnfTables
