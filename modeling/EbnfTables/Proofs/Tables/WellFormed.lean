import EbnfTables.Proofs.Source.Names
import EbnfTables.Proofs.Tables.Layout
import Mathlib.Data.List.Chain

/-!
# Compiled tables are complete and well formed

Elementary conditions on tables, which do not mention where the tables come from:

* `Element.Valid n e`: the word of an element is what its kind asks for, `n` being the number of
  rules;
* `IsStretch`: a row of references and runs;
* `Body.WellFormed n body` and `Grammar.WellFormed g`.

Main theorem: `compile_wellFormed`.  That no rule is left without a body is the completeness part:
a name gets its id when it is defined, when it is generated, or when it is referred to
(`ElaboratesAll.mentioned`), and the tables of a compiled grammar are closed.
-/

namespace EbnfTables

/-! ### Conditions on bodies -/

/-- The word of an element fits its kind. -/
def Element.Valid (n : ℕ) (e : Element) : Prop :=
  match e.kind with
  | .stop | .alt => e.value = 0
  | .ruleRef => e.value.toNat < n
  | .char | .charNot | .rangeUpper | .charAlt => e.value.toNat.isValidChar

/-- A character of the given kind, with or without the upper bound of a range behind it. -/
inductive IsMember (kind : ElementKind) : Body → Prop
  | single (value : UInt32) : IsMember kind [⟨kind, value⟩]
  | range (lower upper : UInt32) : IsMember kind [⟨kind, lower⟩, ⟨.rangeUpper, upper⟩]

/-- A run: a first member, and further members for the same place. -/
inductive IsRun : Body → Prop
  | intro {kind : ElementKind} {first : Body} {more : List Body}
      (hkind : kind = .char ∨ kind = .charNot) (hfirst : IsMember kind first)
      (hmore : ∀ m ∈ more, IsMember .charAlt m) : IsRun (first ++ more.flatten)

/-- A row of references and runs. -/
def IsStretch (s : Body) : Prop :=
  ∃ parts : List Body, s = parts.flatten ∧ ∀ part ∈ parts, (∃ id, part = [.ruleRef id]) ∨ IsRun part

/-- What is asked of a body in a grammar with `n` rules. -/
structure Body.WellFormed (n : ℕ) (body : Body) : Prop where
  two_le_length : 2 ≤ body.length
  stop : ∃ front, body = front ++ [.stop] ∧ ∀ e ∈ front, e.kind ≠ .stop
  valid : ∀ e ∈ body, e.Valid n
  stretch : ∀ s ∈ body.alternatives, IsStretch s
  /-- A continuation starts no alternative and follows no reference. -/
  continuation : (Element.alt :: body).IsChain fun d e => e.kind.isContinuation → d.kind.isChar

/-- What is asked of a grammar. -/
structure Grammar.WellFormed (g : Grammar) : Prop where
  size_eq : g.symbols.size = g.size
  one_le_size : 1 ≤ g.size
  size_le : g.size ≤ 2 ^ 32
  nodup : g.symbols.names.Nodup
  isWord : ∀ name ∈ g.symbols.names, IsWord name
  /-- Every id has a name and a body. -/
  exists_name : ∀ id : RuleId, id.toNat < g.size → ∃ name, g.symbols.name? id = some name
  exists_body : ∀ id : RuleId, id.toNat < g.size → ∃ body, g.rule? id = some body
  body : ∀ body ∈ g.rules.bodies, body.WellFormed g.size

/-! ### Layouts are well formed -/

theorem Member.isMember_elements (kind : ElementKind) (m : Member) :
    IsMember kind (m.elements kind) := by
  cases m with
  | single c => exact .single c.val
  | range lower upper => exact .range lower.val upper.val

theorem isRun_classElements (negated : Bool) (m : Member) (ms : List Member) :
    IsRun (classElements negated (m :: ms)) := by
  rw [classElements, List.flatMap_def]
  refine .intro ?_ (m.isMember_elements _) ?_
  · cases negated
    · exact .inl rfl
    · exact .inr rfl
  · intro part hpart
    obtain ⟨m', -, rfl⟩ := List.mem_map.1 hpart
    exact m'.isMember_elements .charAlt

theorem Row.isStretch_elements (row : Row) : IsStretch row.elements := by
  refine ⟨row.map Piece.elements, rfl, ?_⟩
  intro part hpart
  obtain ⟨p, -, rfl⟩ := List.mem_map.1 hpart
  cases p with
  | ref id => exact .inl ⟨id, rfl⟩
  | run negated m ms => exact .inr (isRun_classElements negated m ms)

/-- The elements can stand behind anything: a continuation among them follows a character among
them. -/
def Continues (es : Body) : Prop :=
  ∀ d : Element, (d :: es).IsChain fun d e => e.kind.isContinuation → d.kind.isChar

namespace Continues

theorem nil : Continues [] := fun d => List.isChain_singleton d

theorem singleton {e : Element} (h : e.kind.isContinuation = false) : Continues [e] := by
  intro d
  rw [List.isChain_cons_cons]
  exact ⟨fun he => by simp [h] at he, List.isChain_singleton e⟩

theorem append {es es' : Body} (h : Continues es) (h' : Continues es') : Continues (es ++ es') := by
  intro d
  rw [← List.cons_append, List.isChain_append]
  refine ⟨h d, (h' d).of_cons, ?_⟩
  intro x _ y hy
  cases es' with
  | nil => cases hy
  | cons e es' =>
    obtain rfl := Option.some.inj hy
    exact (List.isChain_cons_cons.1 (h' x)).1

theorem flatMap {α : Type} {f : α → Body} (as : List α) (h : ∀ a, Continues (f a)) :
    Continues (as.flatMap f) := by
  induction as with
  | nil => exact nil
  | cons a as ih => exact (h a).append ih

/-- Characters can follow anything if the first of them is no continuation. -/
theorem of_isChar {es : Body} (hchar : ∀ e ∈ es, e.kind.isChar) (hhead : es.EndsRun) :
    Continues es := by
  cases es with
  | nil => exact nil
  | cons e es =>
    intro d
    rw [List.isChain_cons_cons]
    refine ⟨fun he => by simp [hhead e rfl] at he, ?_⟩
    clear hhead
    induction es generalizing e with
    | nil => exact List.isChain_singleton e
    | cons e' es ih =>
      rw [List.isChain_cons_cons]
      refine ⟨fun _ => hchar e List.mem_cons_self, ih e' fun k hk => ?_⟩
      exact hchar k (List.mem_cons_of_mem e hk)

end Continues

theorem Piece.continues_elements (p : Piece) : Continues p.elements := by
  cases p with
  | ref id => exact .singleton rfl
  | run negated m ms =>
    have hhead := Row.endsRun_elements [.run negated m ms]
    rw [Row.elements_cons, Row.elements_nil, List.append_nil, elements] at hhead
    rw [elements]
    exact .of_isChar (fun e he => isChar_of_mem_classElements he) hhead

theorem Row.continues_elements (row : Row) : Continues row.elements :=
  .flatMap row Piece.continues_elements

theorem Layout.continues_body (l : Layout) : Continues l.body := by
  have hothers : Continues (l.others.flatMap fun row => .alt :: row.elements) :=
    .flatMap l.others fun row => Continues.append (.singleton rfl) row.continues_elements
  exact (l.first.continues_elements.append hothers).append (.singleton rfl)

theorem Member.exists_value_eq_of_mem_elements {kind : ElementKind} {m : Member} {e : Element}
    (he : e ∈ m.elements kind) : ∃ c : Char, e.value = c.val := by
  cases m with
  | single c =>
    obtain rfl := List.mem_singleton.1 he
    exact ⟨c, rfl⟩
  | range lower upper =>
    rcases List.mem_cons.1 he with rfl | he
    · exact ⟨lower, rfl⟩
    · obtain rfl := List.mem_singleton.1 he
      exact ⟨upper, rfl⟩

theorem exists_value_eq_of_mem_classElements {negated : Bool} {ms : List Member} {e : Element}
    (he : e ∈ classElements negated ms) : ∃ c : Char, e.value = c.val := by
  cases ms with
  | nil => cases he
  | cons m ms =>
    rw [classElements, List.mem_append, List.mem_flatMap] at he
    rcases he with he | ⟨m', -, he⟩ <;> exact Member.exists_value_eq_of_mem_elements he

theorem Element.valid_of_isChar {n : ℕ} {e : Element} (hkind : e.kind.isChar)
    (hvalue : ∃ c : Char, e.value = c.val) : e.Valid n := by
  obtain ⟨c, hc⟩ := hvalue
  have hvalid : e.value.toNat.isValidChar := hc ▸ c.valid
  unfold Valid
  cases hk : e.kind <;> simp_all [ElementKind.isChar]

theorem Row.valid_of_mem {n : ℕ} {row : Row} {e : Element} (he : e ∈ row.elements)
    (href : e.kind = .ruleRef → e.value.toNat < n) : e.Valid n := by
  obtain ⟨p, -, hp⟩ := List.mem_flatMap.1 he
  cases p with
  | ref id =>
    obtain rfl := List.mem_singleton.1 hp
    exact href rfl
  | run negated m ms =>
    rw [Piece.elements] at hp
    exact Element.valid_of_isChar (isChar_of_mem_classElements hp)
      (exists_value_eq_of_mem_classElements hp)

theorem Layout.valid_of_mem {n : ℕ} {l : Layout} {e : Element} (he : e ∈ l.body)
    (href : e.kind = .ruleRef → e.value.toNat < n) : e.Valid n := by
  rcases List.mem_append.1 he with he | he
  · rcases List.mem_append.1 he with he | he
    · exact Row.valid_of_mem he href
    · obtain ⟨row, -, he⟩ := List.mem_flatMap.1 he
      rcases List.mem_cons.1 he with rfl | he
      · rfl
      · exact Row.valid_of_mem he href
  · obtain rfl := List.mem_singleton.1 he
    rfl

/-- The body of a layout is well formed if it is not empty and its references are in range. -/
theorem Layout.wellFormed_body {n : ℕ} {l : Layout} (hlen : 2 ≤ l.body.length)
    (href : ∀ e ∈ l.body, e.kind = .ruleRef → e.value.toNat < n) : l.body.WellFormed n := by
  refine ⟨hlen, ⟨l.elements, rfl, fun e he => kind_ne_stop_of_mem he⟩,
    fun e he => valid_of_mem he (href e he), ?_, l.continues_body .alt⟩
  intro s hs
  rw [alternatives_body] at hs
  obtain ⟨row, -, rfl⟩ := List.mem_map.1 hs
  exact row.isStretch_elements

/-! ### Words -/

theorem isWordChar_of_isDigit {c : Char} (h : c.isDigit) : isWordChar c := by
  simp [isWordChar, Char.isAlphanum, h]

theorem IsWord.append {name : String} (h : IsWord name) {mark : String}
    (hmark : ∀ c ∈ mark.toList, isWordChar c) : IsWord (name ++ mark) := by
  constructor
  · rw [String.toList_append]
    exact List.append_ne_nil_of_left_ne_nil h.ne_nil _
  · intro c hc
    rw [String.toList_append, List.mem_append] at hc
    rcases hc with hc | hc
    · exact h.isWordChar_of_mem c hc
    · exact hmark c hc

theorem IsWord.marked {base : String} (h : IsWord base) (id n : ℕ) :
    IsWord (marked base ("_" ++ toString id) n) := by
  induction n with
  | zero => exact h
  | succ n ih =>
    rw [EbnfTables.marked]
    refine ih.append fun c hc => ?_
    rw [String.toList_append, Nat.toString_eq_repr, Nat.toList_repr, List.mem_append] at hc
    rcases hc with hc | hc
    · obtain rfl : c = '_' := by simpa using hc
      rfl
    · exact isWordChar_of_isDigit (Nat.isDigit_of_mem_toDigits (by decide) (by decide) hc)

theorem Interned.isWord {names names' : List String} {name : String} {id : RuleId}
    (h : Interned names name id names') (hname : IsWord name)
    (hnames : ∀ name ∈ names, IsWord name) : ∀ name ∈ names', IsWord name := by
  rw [h.names_eq]
  split
  · exact hnames
  · rw [List.forall_mem_append, List.forall_mem_singleton]
    exact ⟨hnames, hname⟩

theorem Generated.isWord {names names' : List String} {base : String} {id : RuleId}
    (h : Generated names base id names') (hbase : IsWord base)
    (hnames : ∀ name ∈ names, IsWord name) : ∀ name ∈ names', IsWord name := by
  obtain ⟨n, rfl, -⟩ := h.name
  rw [List.forall_mem_append, List.forall_mem_singleton]
  exact ⟨hnames, hbase.marked _ _⟩

/-! ### Completeness -/

/-- The id has a body, or there is a reference to it, in the elements or in a body. -/
def Mentioned (id : RuleId) (elements : Body) (writes : List (RuleId × Body)) : Prop :=
  id ∈ writes.map Prod.fst ∨ .ruleRef id ∈ elements ∨ ∃ w ∈ writes, .ruleRef id ∈ w.2

namespace Mentioned

variable {id k : RuleId} {elements elements' body : Body} {writes writes' : List (RuleId × Body)}

theorem mono (h : Mentioned id elements writes) (helements : elements ⊆ elements')
    (hwrites : writes ⊆ writes') : Mentioned id elements' writes' := by
  rcases h with h | h | ⟨w, hw, h⟩
  · exact .inl (List.map_subset _ hwrites h)
  · exact .inr (.inl (helements h))
  · exact .inr (.inr ⟨w, hwrites hw, h⟩)

/-- What the elements mention is mentioned once they are in a body. -/
theorem write (h : Mentioned id elements writes) (hsub : elements ⊆ body) :
    Mentioned id elements' (writes ++ [(k, body)]) := by
  rcases h with h | h | ⟨w, hw, h⟩
  · exact .inl (List.map_subset _ (List.subset_append_left _ _) h)
  · exact .inr (.inr ⟨(k, body), List.mem_append_right _ List.mem_cons_self, hsub h⟩)
  · exact .inr (.inr ⟨w, List.mem_append_left _ hw, h⟩)

end Mentioned

namespace Elaborates

variable {base : String} {level : Level} {e : Expr level} {names names' : List String}
  {elements : Body} {writes : List (RuleId × Body)}

/-- Every new id is mentioned. -/
theorem mentioned (h : Elaborates base e names elements names' writes) {id : RuleId}
    (hle : names.length ≤ id.toNat) (hlt : id.toNat < names'.length) :
    Mentioned id elements writes := by
  induction h with
  | literal | charClass | nothing => omega
  | @ref name k names names' hid =>
    have hnames' := hid.length_le
    by_cases hname : name ∈ names
    · rw [hid.names_eq, if_pos hname] at hlt
      omega
    · have hk := hid.toNat_eq_length hname
      obtain rfl : id = k := UInt32.toNat_inj.1 (by omega)
      exact .inr (.inl List.mem_cons_self)
  | @group body k names mid names' elements writes hid hbody ih =>
    have hmid := hid.length_eq
    rcases hle.eq_or_lt with heq | hnew
    · obtain rfl := hid.eq_of_toNat_eq_length heq.symm
      exact .inl (by simp)
    · exact (ih (by omega) hlt).write (List.subset_append_left _ _)
  | @repeated q operand k names mid names' elements writes hoperand hid ih =>
    rw [hid.length_eq] at hlt
    rcases (Nat.le_of_lt_succ hlt).eq_or_lt with heq | hold
    · obtain rfl := hid.eq_of_toNat_eq_length heq
      exact .inl (by simp)
    · refine (ih hle hold).write ?_
      cases q <;> simp [Quantifier.expansion]
  | only _ ih => exact ih hle hlt
  | @snoc _ _ _ mid _ _ _ _ _ _ _ ihfront ihlast
  | @orElse _ _ _ mid _ _ _ _ _ _ _ ihfront ihlast =>
    rcases Nat.lt_or_ge id.toNat mid.length with hmid | hmid
    · exact (ihfront hle hmid).mono (List.subset_append_left _ _) (List.subset_append_left _ _)
    · exact (ihlast hmid hlt).mono (by simp) (List.subset_append_right _ _)

/-- An expression has elements if it contributes. -/
theorem ne_nil_iff (h : Elaborates base e names elements names' writes) :
    elements ≠ [] ↔ e.contributes = true := by
  induction h with
  | literal => simp [Expr.contributes]
  | @charClass negated ms =>
    cases ms with
    | nil => simp [classElements, Expr.contributes]
    | cons m ms => simp [classElements, Expr.contributes, Member.elements_ne_nil]
  | ref | group | repeated => simp [Expr.contributes]
  | nothing => simp [Expr.contributes]
  | snoc _ _ ihfront ihlast =>
    rw [Expr.contributes, Bool.or_eq_true, ← ihfront, ← ihlast, ne_eq, List.append_eq_nil_iff]
    tauto
  | only _ ih => exact ih
  | orElse => simp [Expr.contributes]

/-- The bodies of generated rules have an element before their end. -/
theorem two_le_length (h : Elaborates base e names elements names' writes) (hfilled : e.Filled) :
    ∀ w ∈ writes, 2 ≤ w.2.length := by
  induction h with
  | literal | charClass | nothing | ref => simp
  | @group body _ _ _ _ elements _ _ hbody ih =>
    rw [List.forall_mem_append, List.forall_mem_singleton]
    have hne := List.length_pos_iff.2 (hbody.ne_nil_iff.2 hfilled.1)
    refine ⟨ih hfilled.2, ?_⟩
    rw [List.length_append, List.length_singleton]
    omega
  | @repeated q _ _ _ _ _ _ _ _ _ ih =>
    rw [List.forall_mem_append, List.forall_mem_singleton]
    refine ⟨ih hfilled, ?_⟩
    cases q <;> simp only [Quantifier.expansion, List.length_append, List.length_cons] <;> omega
  | snoc _ _ ihfront ihlast | orElse _ _ ihfront ihlast =>
    exact List.forall_mem_append.2 ⟨ihfront hfilled.1, ihlast hfilled.2⟩
  | only _ ih => exact ih hfilled

/-- All names are words if the written ones are. -/
theorem isWord (h : Elaborates base e names elements names' writes) (hbase : IsWord base)
    (href : ∀ name ∈ e.refNames, IsWord name) (hnames : ∀ name ∈ names, IsWord name) :
    ∀ name ∈ names', IsWord name := by
  induction h with
  | literal | charClass | nothing => exact hnames
  | ref hid => exact hid.isWord (href _ List.mem_cons_self) hnames
  | group hid _ ih => exact ih href (hid.isWord hbase hnames)
  | repeated _ hid ih => exact hid.isWord hbase (ih href hnames)
  | only _ ih => exact ih href hnames
  | snoc _ _ ihfront ihlast | orElse _ _ ihfront ihlast =>
    obtain ⟨hfront, hlast⟩ := List.forall_mem_append.1 href
    exact ihlast hlast (ihfront hfront hnames)

end Elaborates

namespace ElaboratesAll

variable {defs : List Definition} {names : List String} {writes : List (RuleId × Body)}

/-- Every id is mentioned in what is written. -/
theorem mentioned (h : ElaboratesAll defs names writes) {id : RuleId}
    (hlt : id.toNat < names.length) : Mentioned id [] writes := by
  induction h with
  | nil => simp at hlt
  | @snoc defs d k names mid names' elements writes writes' _ hid _ hbody ih =>
    rcases Nat.lt_or_ge id.toNat names.length with hold | hnew
    · exact (ih hold).mono (List.Subset.refl _) (List.subset_append_left _ _)
    · rcases Nat.lt_or_ge id.toNat mid.length with hmid | hmid
      · -- the only name that may be new here is the name of the definition
        have hk : k.toNat = names.length := by
          refine hid.toNat_eq_length fun hmem => ?_
          rw [hid.names_eq, if_pos hmem] at hmid
          omega
        have hlen := hid.length_le
        obtain rfl : id = k := UInt32.toNat_inj.1 (by omega)
        exact .inl (by simp)
      · have hbody' : Mentioned id [] (writes' ++ [(k, elements ++ [.stop])]) :=
          (hbody.mentioned hmid hlt).write (List.subset_append_left _ _)
        exact hbody'.mono (List.Subset.refl _) (List.subset_append_right _ _)

/-- If no reference lacks a body, every id has one. -/
theorem mem_writes_iff (h : ElaboratesAll defs names writes) (hclosed : Closed writes)
    {id : RuleId} : id ∈ writes.map Prod.fst ↔ id.toNat < names.length := by
  refine ⟨h.toNat_lt id, fun hlt => ?_⟩
  rcases h.mentioned hlt with hid | hid | ⟨w, hw, hid⟩
  · exact hid
  · cases hid
  · exact hclosed w hw _ hid rfl

theorem two_le_length (h : ElaboratesAll defs names writes) (hsound : ∀ d ∈ defs, d.IsSound) :
    ∀ w ∈ writes, 2 ≤ w.2.length := by
  induction h with
  | nil => simp
  | @snoc defs d _ _ _ _ elements _ _ _ _ _ hbody ih =>
    obtain ⟨hdefs, hd⟩ := List.forall_mem_append.1 hsound
    rw [List.forall_mem_singleton] at hd
    rw [List.forall_mem_append, List.forall_mem_append, List.forall_mem_singleton]
    have hne := List.length_pos_iff.2 (hbody.ne_nil_iff.2 hd.contributes)
    refine ⟨ih hdefs, hbody.two_le_length hd.filled, ?_⟩
    rw [List.length_append, List.length_singleton]
    omega

theorem name_mem (h : ElaboratesAll defs names writes) : ∀ d ∈ defs, d.name ∈ names := by
  intro d hd
  obtain ⟨id, elements, hrep⟩ := h.exists_represents d hd
  exact List.mem_of_getElem? hrep.name

theorem isWord (h : ElaboratesAll defs names writes) (hsound : ∀ d ∈ defs, d.IsSound) :
    ∀ name ∈ names, IsWord name := by
  induction h with
  | nil => simp
  | snoc _ hid _ hbody ih =>
    obtain ⟨hdefs, hd⟩ := List.forall_mem_append.1 hsound
    rw [List.forall_mem_singleton] at hd
    exact hbody.isWord hd.name hd.refNames (hid.isWord hd.name (ih hdefs))

end ElaboratesAll

namespace CompilesTo

variable {options : CompileOptions} {source : String} {defs : List Definition}
  {writes : List (RuleId × Body)} {g : Grammar}

theorem size_symbols_le (h : CompilesTo options source defs writes g)
    (hlen : source.length < 2 ^ 32) : g.symbols.size ≤ 2 ^ 32 := by
  have hnames := h.elaborates.length_le
  have hcount := h.sourceText.idCount_le
  rw [String.length_toList] at hcount
  rw [SymbolTable.size]
  omega

/-- Every id has a body. -/
theorem mem_writes_iff (h : CompilesTo options source defs writes g) {id : RuleId} :
    id ∈ writes.map Prod.fst ↔ id.toNat < g.symbols.size :=
  h.elaborates.mem_writes_iff h.closed

/-- As long as the ids suffice for the names, every name has a body. -/
theorem size_eq_of_size_le (h : CompilesTo options source defs writes g)
    (hsize : g.symbols.size ≤ 2 ^ 32) : g.symbols.size = g.size := by
  refine le_antisymm ?_ ((h.holds.size_le_iff _).2 h.elaborates.toNat_lt)
  by_contra hlt
  -- the first id behind the bodies has a name, so it has a body as well
  have hid := toNat_toUInt32_of_lt (n := g.size) (by omega)
  have hmem := h.mem_writes_iff.2 (show g.size.toUInt32.toNat < g.symbols.size by omega)
  have := (h.holds.size_le_iff g.size).1 le_rfl _ hmem
  omega

theorem size_eq (h : CompilesTo options source defs writes g) (hlen : source.length < 2 ^ 32) :
    g.symbols.size = g.size :=
  h.size_eq_of_size_le (h.size_symbols_le hlen)

theorem exists_body (h : CompilesTo options source defs writes g) {id : RuleId}
    (hlt : id.toNat < g.symbols.size) : ∃ body, (id, body) ∈ writes := by
  obtain ⟨w, hw, rfl⟩ := List.mem_map.1 (h.mem_writes_iff.2 hlt)
  exact ⟨w.2, hw⟩

theorem exists_mem_of_mem_bodies_of_size_le (h : CompilesTo options source defs writes g)
    (hsize : g.symbols.size ≤ 2 ^ 32) {body : Body} (hbody : body ∈ g.rules.bodies) :
    ∃ id, (id, body) ∈ writes := by
  obtain ⟨i, hi, rfl⟩ := List.getElem_of_mem hbody
  have hsize := h.size_eq_of_size_le hsize
  have hid : i.toUInt32.toNat = i := toNat_toUInt32_of_lt (hi.trans_le h.holds.size_le)
  have hlt : i.toUInt32.toNat < g.symbols.size := by
    rw [hid, hsize]
    exact hi
  obtain ⟨body, hw⟩ := h.exists_body hlt
  rw [h.holds.getElem_eq_slot hi, h.holds.slot_of_mem _ body hw]
  exact ⟨_, hw⟩

theorem exists_mem_of_mem_bodies (h : CompilesTo options source defs writes g)
    (hlen : source.length < 2 ^ 32) {body : Body} (hbody : body ∈ g.rules.bodies) :
    ∃ id, (id, body) ∈ writes :=
  h.exists_mem_of_mem_bodies_of_size_le (h.size_symbols_le hlen) hbody

theorem size_pos (h : CompilesTo options source defs writes g) : 0 < g.symbols.size := by
  obtain ⟨d, hd⟩ := List.exists_mem_of_ne_nil _ h.sourceText.ne_nil
  exact List.length_pos_of_mem (h.elaborates.name_mem d hd)

end CompilesTo

/-- **The tables of a compiled grammar are complete and well formed.** -/
theorem compile_wellFormed (source : String) (options : CompileOptions) (g : Grammar)
    (hlen : source.length < 2 ^ 32) (hok : compile source options = .ok g) : g.WellFormed := by
  obtain ⟨defs, writes, h⟩ := exists_compilesTo hlen hok
  have hsize := h.size_eq hlen
  have hsound := h.sourceText.isSound
  have hpos := h.size_pos
  have hle := h.size_symbols_le hlen
  refine ⟨hsize, by omega, by omega, h.elaborates.nodup, h.elaborates.isWord hsound, ?_, ?_, ?_⟩
  · intro id hid
    rw [← hsize] at hid
    exact ⟨g.symbols.names[id.toNat], List.getElem?_eq_getElem hid⟩
  · intro id hid
    rw [← hsize] at hid
    obtain ⟨body, hw⟩ := h.exists_body hid
    exact ⟨body, h.rule?_eq_some_iff.2 hw⟩
  · intro body hbody
    obtain ⟨id, hw⟩ := h.exists_mem_of_mem_bodies hlen hbody
    obtain ⟨l, rfl⟩ := h.elaborates.exists_layout (id, body) hw
    refine Layout.wellFormed_body (h.elaborates.two_le_length hsound _ hw) ?_
    intro e he hkind
    rw [← hsize]
    exact h.mem_writes_iff.1 (h.closed _ hw e he hkind)

/-- A grammar with a group, a repetition, a negated range and an empty alternative. -/
theorem wellFormed_group_and_range :
    ∃ g, compile "a ::= (\"x\" | b)*\nb ::= [^a-c]?" = .ok g ∧ g.WellFormed := by
  have hok : ∃ g, compile "a ::= (\"x\" | b)*\nb ::= [^a-c]?" = .ok g :=
    ⟨⟨⟨["a", "a_1", "b", "a_3", "b_4"]⟩, ⟨[
      [.ruleRef 3, .stop],
      [.char 'x', .alt, .ruleRef 2, .stop],
      [.ruleRef 4, .stop],
      [.ruleRef 1, .ruleRef 3, .alt, .stop],
      [⟨.charNot, 97⟩, ⟨.rangeUpper, 99⟩, .alt, .stop]]⟩⟩, by decide +kernel⟩
  obtain ⟨g, hg⟩ := hok
  exact ⟨g, hg, compile_wellFormed _ _ g (by decide +kernel) hg⟩

end EbnfTables
