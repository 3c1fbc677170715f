import EbnfTables.Proofs.Tables.Building

/-!
# The journal of a compilation

A compilation changes its tables in three ways only: it looks up a written name, which is added if
it is new, it adds a generated name, and it stores a body.  A `Journal` holds the tables together
with all the changes that led to them, each with the tables that it was made to.

* `Expr.record`, `Journal.addDefinitions` and `Reading.journal` do what the builder does and keep
  the journal.  Without the journal they are the builder (`Expr.map_tables_record`,
  `Journal.map_tables_addDefinitions`, `Reading.tables_journal`), for every text, also for one that
  is refused;
* a change is sound (`Entry.IsSound`) if an id that is given out is the number of the names before,
  and a body that is stored is not empty, and is stored in an empty slot under an id that was given
  out before;
* a sound change keeps a journal sound (`Journal.IsSound.note`).  What lies between the change that
  gives out an id and the change that stores its body leaves the slot as it is
  (`Expr.keepsSlots_build`).

Main result: `Reading.isSound_journal`.  If the ids suffice, the journal of a reading is sound.
-/

namespace EbnfTables

/-! ### Changes -/

/-- A change of the tables. -/
inductive Change
  /-- A written name is looked up, and added if it is new. -/
  | intern (name : String)
  /-- A name is generated. -/
  | fresh (base : String)
  /-- A body is stored. -/
  | define (id : RuleId) (body : Body)
  deriving DecidableEq

/-- Makes a change. -/
def Change.apply : Change → Builder → Builder
  | intern name, b => (b.intern name).2
  | fresh base, b => (b.fresh base).2
  | define id body, b => b.define id body

/-- A change, and the tables before it. -/
structure Entry where
  before : Builder
  change : Change
  deriving DecidableEq

namespace Entry

/-- The tables after the change. -/
def after (e : Entry) : Builder := e.change.apply e.before

/-- The id that is given out, if a name is added. -/
def newId? (e : Entry) : Option RuleId :=
  match e.change with
  | .intern name => if name ∈ e.before.symbols.names then none else some (e.before.intern name).1
  | .fresh base => some (e.before.fresh base).1
  | .define _ _ => none

/-- The body that is stored, with its id. -/
def write? (e : Entry) : Option (RuleId × Body) :=
  match e.change with
  | .intern _ | .fresh _ => none
  | .define id body => some (id, body)

/-- No id is given out twice, and no body is lost. -/
structure IsSound (e : Entry) : Prop where
  /-- An id that is given out is the number of names before, and its name is a new one. -/
  newId : ∀ id, e.newId? = some id → id.toNat = e.before.symbols.size ∧
    ∃ name ∉ e.before.symbols.names, e.after.symbols.names = e.before.symbols.names ++ [name]
  /-- Without a new id the names stay as they are. -/
  symbols : e.newId? = none → e.after.symbols = e.before.symbols
  /-- A body that is stored is not empty and meets an empty slot, whose id was given out. -/
  write : ∀ id body, e.write? = some (id, body) →
    e.before.rules.slot id = [] ∧ body ≠ [] ∧ id.toNat < e.before.symbols.size ∧
      e.after.rules = e.before.rules.define id body
  /-- Without a new body the bodies stay as they are. -/
  rules : e.write? = none → e.after.rules = e.before.rules

end Entry

/-! ### Journals -/

/-- Tables, and the changes that led to them. -/
structure Journal where
  tables : Builder
  entries : List Entry
  deriving DecidableEq

namespace Journal

/-- Nothing was changed. -/
def empty : Journal := ⟨.empty, []⟩

/-- Makes a change and notes it. -/
def note (j : Journal) (c : Change) : Journal := ⟨c.apply j.tables, j.entries ++ [⟨j.tables, c⟩]⟩

/-- The id of a written name. -/
def intern (j : Journal) (name : String) : RuleId × Journal :=
  ((j.tables.intern name).1, j.note (.intern name))

/-- The id of a rule that is generated inside the definition of `base`. -/
def fresh (j : Journal) (base : String) : RuleId × Journal :=
  ((j.tables.fresh base).1, j.note (.fresh base))

/-- Stores a body. -/
def define (j : Journal) (id : RuleId) (body : Body) : Journal := j.note (.define id body)

/-- Adds a note to the log, which changes no table. -/
def log (j : Journal) (e : Event) : Journal := { j with tables := j.tables.log e }

end Journal

/-- Adds an expression to the tables, as `Expr.build`. -/
def Expr.record (base : String) : {level : Level} → Expr level → Journal → Body × Journal
  | _, literal chars, j => (chars.map Element.char, j)
  | _, charClass negated members, j => (classElements negated members, j)
  | _, ref name, j =>
    let (id, j) := j.intern name
    ([.ruleRef id], j)
  | _, group body, j =>
    let (id, j) := j.fresh base
    let (elements, j) := body.record base j
    ([.ruleRef id], j.define id (elements ++ [.stop]))
  | _, repeated q operand, j =>
    let (elements, j) := operand.record base j
    let (id, j) := j.fresh base
    ([.ruleRef id], j.define id (q.expansion elements id))
  | _, nothing, j => ([], j)
  | _, snoc front last, j =>
    let (before, j) := front.record base j
    let (elements, j) := last.record base j
    (before ++ elements, j)
  | _, only sequence, j => sequence.record base j
  | _, orElse earlier last, j =>
    let (before, j) := earlier.record base j
    let (elements, j) := last.record base j
    (before ++ .alt :: elements, j)

namespace Journal

/-- Adds a definition, as `Builder.addDefinition`. -/
def addDefinition (j : Journal) (d : Definition) : Journal × Bool :=
  let (id, j) := j.intern d.name
  if j.tables.rules.isDefined id then (j, false)
  else
    let (body, j) := d.body.record d.name j
    ((j.define id (body ++ [.stop])).log (.compiledRule d.name id), true)

/-- Adds definitions, as `Builder.addDefinitions`. -/
def addDefinitions : List Definition → Journal → Journal × Option Definition
  | [], j => (j, none)
  | d :: ds, j =>
    match j.addDefinition d with
    | (j, false) => (j, some d)
    | (j, true) => addDefinitions ds j

/-- Adds the alternations that were begun, as `Builder.addFrames`. -/
def addFrames (base : String) (finished : Bool) : List Frame → RuleId → Journal → Journal
  | [], _, j => j
  | [f], id, j =>
    let (body, j) := f.body.record base j
    if finished then j.define id (body ++ [.stop]) else j
  | f :: g :: fs, _, j =>
    let (_, j) := f.body.record base j
    let (id, j) := j.fresh base
    addFrames base finished (g :: fs) id j

/-- Adds a definition that was begun, as `Builder.addOpenDefinition`. -/
def addOpenDefinition (j : Journal) (d : OpenDefinition) : Journal :=
  let (id, j) := j.intern d.name
  if j.tables.rules.isDefined id then j else addFrames d.name d.finished d.frames.reverse id j

end Journal

/-- The journal of what a text was taken apart into, up to the first thing that is wrong. -/
def Reading.journal (r : Reading) : Journal :=
  match Journal.empty.addDefinitions r.definitions with
  | (j, some _) => j
  | (j, none) =>
    match r.refusal with
    | some ⟨_, some d⟩ => j.addOpenDefinition d
    | none | some ⟨_, none⟩ => j

/-- The journal of a text. -/
def journal (limit : ℕ) (source : String) : Journal := (read limit source.toList).journal

/-! ### Without the journal -/

theorem Expr.map_tables_record {level : Level} (e : Expr level) (base : String) (j : Journal) :
    Prod.map id Journal.tables (e.record base j) = e.build base j.tables := by
  induction e generalizing j with
  | literal | charClass | nothing | ref => rfl
  | group body ih =>
    have hbody := ih (j.note (.fresh base))
    simp only [Journal.note, Change.apply] at hbody
    simp only [record, build, Journal.fresh, Journal.define, Journal.note, Change.apply, ← hbody]
    rfl
  | repeated q operand ih =>
    simp only [record, build, ← ih]
    rfl
  | only _ ih => exact ih j
  | snoc front last ihfront ihlast | orElse front last ihfront ihlast =>
    have hlast := ihlast (front.record base j).2
    simp only [record, build, ← ihfront, Prod.map_fst, Prod.map_snd, ← hlast]
    rfl

@[simp] theorem Expr.tables_record {level : Level} (e : Expr level) (base : String) (j : Journal) :
    (e.record base j).2.tables = (e.build base j.tables).2 :=
  congrArg Prod.snd (e.map_tables_record base j)

@[simp] theorem Expr.record_fst {level : Level} (e : Expr level) (base : String) (j : Journal) :
    (e.record base j).1 = (e.build base j.tables).1 :=
  congrArg Prod.fst (e.map_tables_record base j)

namespace Journal

theorem map_tables_addDefinition (j : Journal) (d : Definition) :
    Prod.map tables id (j.addDefinition d) = j.tables.addDefinition d := by
  unfold addDefinition Builder.addDefinition
  by_cases hdefined : (j.tables.intern d.name).2.rules.isDefined (j.tables.intern d.name).1
  · simp only [intern, note, Change.apply, hdefined, if_true]
    rfl
  · simp only [intern, note, Change.apply, hdefined, Bool.false_eq_true, if_false, Prod.map_apply,
      log, define, Expr.tables_record, Expr.record_fst]
    rfl

theorem map_tables_addDefinitions (ds : List Definition) (j : Journal) :
    Prod.map tables id (j.addDefinitions ds) = j.tables.addDefinitions ds := by
  induction ds generalizing j with
  | nil => rfl
  | cons d ds ih =>
    rw [addDefinitions, Builder.addDefinitions, ← map_tables_addDefinition]
    cases hd : j.addDefinition d with
    | mk j' added =>
      cases added with
      | false => rfl
      | true => exact ih j'

theorem tables_addFrames (base : String) (finished : Bool) (frames : List Frame) (id : RuleId)
    (j : Journal) :
    (addFrames base finished frames id j).tables =
      Builder.addFrames base finished frames id j.tables := by
  induction frames generalizing id j with
  | nil => rfl
  | cons f frames ih =>
    cases frames with
    | nil =>
      simp only [addFrames, Builder.addFrames, ← f.body.map_tables_record]
      cases finished <;> rfl
    | cons g frames =>
      simp only [addFrames, Builder.addFrames, ih, ← f.body.map_tables_record]
      rfl

theorem tables_addOpenDefinition (j : Journal) (d : OpenDefinition) :
    (j.addOpenDefinition d).tables = (j.tables.addOpenDefinition d).1 := by
  unfold addOpenDefinition Builder.addOpenDefinition
  by_cases hdefined : (j.tables.intern d.name).2.rules.isDefined (j.tables.intern d.name).1
  · simp only [intern, note, Change.apply, hdefined, if_true]
  · simp only [intern, note, Change.apply, hdefined, Bool.false_eq_true, if_false, tables_addFrames]

end Journal

/-- The journal of a reading leads to its tables. -/
theorem Reading.tables_journal (text : List Char) (r : Reading) :
    r.journal.tables = (r.build text).1 := by
  unfold journal build
  have hdefs := Journal.map_tables_addDefinitions r.definitions .empty
  simp only [Journal.empty] at hdefs ⊢
  rw [← hdefs]
  cases Journal.addDefinitions r.definitions ⟨.empty, []⟩ with
  | mk j duplicate =>
    cases duplicate with
    | some d => rfl
    | none =>
      simp only [Prod.map_apply, id]
      cases r.refusal with
      | none => rfl
      | some refusal =>
        obtain ⟨fault, begun⟩ := refusal
        cases begun with
        | none => rfl
        | some d =>
          simp only [j.tables_addOpenDefinition d]
          split <;> rename_i heq <;> simp only [heq]

/-! ### Sound changes -/

namespace Entry

variable {b : Builder}

theorem isSound_intern {name : String} (hsize : (b.intern name).2.symbols.size ≤ 2 ^ 32) :
    IsSound ⟨b, .intern name⟩ := by
  have hwrite : ∀ id body, (Entry.mk b (.intern name)).write? ≠ some (id, body) := nofun
  cases hid : b.symbols.id? name with
  | some id =>
    have hmem : name ∈ b.symbols.names := by
      by_contra hnot
      rw [SymbolTable.id?_eq_none_iff.2 hnot] at hid
      cases hid
    have hafter : (b.intern name).2 = b := by
      rw [Builder.intern, SymbolTable.intern_of_mem hid]
    exact ⟨by simp [newId?, hmem], fun _ => congrArg Builder.symbols hafter,
      fun id body h => absurd h (hwrite id body), fun _ => rfl⟩
  | none =>
    have hmem := SymbolTable.id?_eq_none_iff.1 hid
    have hintern := SymbolTable.intern_of_not_mem hid
    have hlt : b.symbols.size < 2 ^ 32 := by
      rw [Builder.intern, hintern, SymbolTable.size_push] at hsize
      exact hsize
    refine ⟨fun id hnew => ⟨?_, name, hmem, ?_⟩, by simp [newId?, hmem],
      fun id body h => absurd h (hwrite id body), fun _ => rfl⟩
    · obtain rfl : b.symbols.nextId = id := by
        simpa [newId?, hmem, Builder.intern, hintern] using hnew
      exact SymbolTable.toNat_nextId hlt
    · show (b.symbols.intern name).2.names = _
      rw [hintern]
      rfl

theorem isSound_fresh {base : String} (hsize : b.symbols.size < 2 ^ 32) :
    IsSound ⟨b, .fresh base⟩ := by
  refine ⟨fun id hnew => ⟨?_, b.symbols.freshName base, ?_, rfl⟩, nofun, nofun, fun _ => rfl⟩
  · obtain rfl : b.symbols.nextId = id := Option.some.inj hnew
    exact SymbolTable.toNat_nextId hsize
  · exact SymbolTable.freshName_notMem hsize base

theorem isSound_define {id : RuleId} {body : Body} (hslot : b.rules.slot id = [])
    (hbody : body ≠ []) (hid : id.toNat < b.symbols.size) : IsSound ⟨b, .define id body⟩ := by
  refine ⟨nofun, fun _ => rfl, fun k body' hwrite => ?_, nofun⟩
  obtain ⟨rfl, rfl⟩ := Prod.mk.inj (Option.some.inj hwrite)
  exact ⟨hslot, hbody, hid, rfl⟩

end Entry

/-! ### Sound journals -/

namespace Journal

/-- The ids that were given out, in this order. -/
def newIds (j : Journal) : List RuleId := j.entries.filterMap Entry.newId?

/-- The bodies that were stored, in this order. -/
def writes (j : Journal) : List (RuleId × Body) := j.entries.filterMap Entry.write?

/-- The names before every change, and the names at the end. -/
def nameHistory (j : Journal) : List (List String) :=
  j.entries.map (fun e => e.before.symbols.names) ++ [j.tables.symbols.names]

theorem newIds_note (j : Journal) (c : Change) :
    (j.note c).newIds = j.newIds ++ (Entry.newId? ⟨j.tables, c⟩).toList := by
  simp only [newIds, note, List.filterMap_append]
  cases hid : Entry.newId? ⟨j.tables, c⟩ <;> simp [hid]

theorem writes_note (j : Journal) (c : Change) :
    (j.note c).writes = j.writes ++ (Entry.write? ⟨j.tables, c⟩).toList := by
  simp only [writes, note, List.filterMap_append]
  cases hwrite : Entry.write? ⟨j.tables, c⟩ <;> simp [hwrite]

theorem nameHistory_note (j : Journal) (c : Change) :
    (j.note c).nameHistory = j.nameHistory ++ [(j.note c).tables.symbols.names] := by
  simp [nameHistory, note]

/-- All changes were sound, and the tables are what they lead to. -/
structure IsSound (j : Journal) : Prop where
  entries : ∀ e ∈ j.entries, e.IsSound
  /-- Names are only appended. -/
  isPrefix : j.nameHistory.Pairwise (· <+: ·)
  nodup : j.tables.symbols.names.Nodup
  /-- The ids were given out one after the other. -/
  newIds : j.newIds.map UInt32.toNat = List.range j.tables.symbols.size
  /-- What was stored is there, and nothing else. -/
  holds : j.tables.rules.Holds j.writes
  /-- No id has two bodies. -/
  nodup_writes : (j.writes.map Prod.fst).Nodup
  writes : ∀ w ∈ j.writes, w.2 ≠ [] ∧ w.1.toNat < j.tables.symbols.size

namespace IsSound

variable {j : Journal}

theorem empty : Journal.empty.IsSound :=
  ⟨nofun, List.pairwise_singleton _ _, List.nodup_nil, rfl, RuleTable.holds_empty, List.nodup_nil,
    nofun⟩

theorem body_ne_nil (h : j.IsSound) : ∀ w ∈ j.writes, w.2 ≠ [] := fun w hw => (h.writes w hw).1

/-- An id that was not given out has no body. -/
theorem slot_eq_nil (h : j.IsSound) {id : RuleId} (hid : j.tables.symbols.size ≤ id.toNat) :
    j.tables.rules.slot id = [] := by
  refine h.holds.slot_of_notMem id fun hmem => ?_
  obtain ⟨w, hw, rfl⟩ := List.mem_map.1 hmem
  exact absurd (h.writes w hw).2 (by omega)

/-- The log does not matter. -/
theorem log (h : j.IsSound) (e : Event) : (j.log e).IsSound :=
  ⟨h.entries, h.isPrefix, h.nodup, h.newIds, h.holds, h.nodup_writes, h.writes⟩

/-- Names of earlier tables are the first of the names. -/
theorem isPrefix_names (h : j.IsSound) :
    ∀ names ∈ j.nameHistory, names <+: j.tables.symbols.names := by
  obtain ⟨-, -, hlast⟩ := List.pairwise_append.1 h.isPrefix
  refine List.forall_mem_append.2 ⟨fun names hmem => hlast names hmem _ List.mem_cons_self, ?_⟩
  exact List.forall_mem_singleton.2 List.prefix_rfl

/-- Under an id whose slot is empty nothing was stored. -/
theorem notMem_writes (h : j.IsSound) {id : RuleId} (hslot : j.tables.rules.slot id = []) :
    id ∉ j.writes.map Prod.fst := by
  intro hmem
  obtain ⟨w, hw, rfl⟩ := List.mem_map.1 hmem
  exact h.body_ne_nil w hw ((h.holds.slot_of_mem w.1 w.2 hw).symm.trans hslot)

/-- What a sound change does to the names. -/
theorem symbols_note (h : j.IsSound) {c : Change} (hc : Entry.IsSound ⟨j.tables, c⟩) :
    j.tables.symbols.names <+: (j.note c).tables.symbols.names ∧
      (j.note c).tables.symbols.names.Nodup ∧
      (j.note c).newIds.map UInt32.toNat = List.range (j.note c).tables.symbols.size := by
  cases hid : Entry.newId? ⟨j.tables, c⟩ with
  | none =>
    have hsame : (j.note c).tables.symbols = j.tables.symbols := hc.symbols hid
    rw [hsame, newIds_note, hid, Option.toList_none, List.append_nil]
    exact ⟨List.prefix_rfl, h.nodup, h.newIds⟩
  | some id =>
    obtain ⟨hplace, name, hname, happend⟩ := hc.newId id hid
    have happend : (j.note c).tables.symbols.names = j.tables.symbols.names ++ [name] := happend
    rw [SymbolTable.size, happend, newIds_note, hid, List.map_append, h.newIds]
    refine ⟨List.prefix_append _ _, ?_, ?_⟩
    · rw [← List.concat_eq_append, List.nodup_concat]
      exact ⟨hname, h.nodup⟩
    · simp [hplace, List.range_succ, SymbolTable.size]

/-- What a sound change does to the bodies. -/
theorem rules_note (h : j.IsSound) {c : Change} (hc : Entry.IsSound ⟨j.tables, c⟩) :
    (j.note c).tables.rules.Holds (j.note c).writes ∧
      ((j.note c).writes.map Prod.fst).Nodup ∧
      ∀ w ∈ (j.note c).writes, w.2 ≠ [] ∧ w.1.toNat < j.tables.symbols.size := by
  cases hwrite : Entry.write? ⟨j.tables, c⟩ with
  | none =>
    have hsame : (j.note c).tables.rules = j.tables.rules := hc.rules hwrite
    rw [hsame, writes_note, hwrite, Option.toList_none, List.append_nil]
    exact ⟨h.holds, h.nodup_writes, h.writes⟩
  | some w =>
    obtain ⟨hslot, hbody, hid, hdefine⟩ := hc.write w.1 w.2 hwrite
    have hdefine : (j.note c).tables.rules = j.tables.rules.define w.1 w.2 := hdefine
    have hnew := h.notMem_writes hslot
    rw [hdefine, writes_note, hwrite, Option.toList_some]
    refine ⟨h.holds.define hnew, ?_, List.forall_mem_append.2 ⟨h.writes, ?_⟩⟩
    · exact nodup_map_fst_concat h.nodup_writes hnew w.2
    · exact List.forall_mem_singleton.2 ⟨hbody, hid⟩

/-- **A sound change keeps a journal sound.** -/
theorem note (h : j.IsSound) {c : Change} (hc : Entry.IsSound ⟨j.tables, c⟩) :
    (j.note c).IsSound := by
  obtain ⟨hnames, hnodup, hnewIds⟩ := h.symbols_note hc
  obtain ⟨hholds, hnodupWrites, hwrites⟩ := h.rules_note hc
  refine ⟨List.forall_mem_append.2 ⟨h.entries, List.forall_mem_singleton.2 hc⟩, ?_, hnodup,
    hnewIds, hholds, hnodupWrites,
    fun w hw => ⟨(hwrites w hw).1, (hwrites w hw).2.trans_le hnames.length_le⟩⟩
  rw [nameHistory_note, List.pairwise_append]
  refine ⟨h.isPrefix, List.pairwise_singleton _ _, fun names hmem => ?_⟩
  exact List.forall_mem_singleton.2 ((h.isPrefix_names names hmem).trans hnames)

theorem intern (h : j.IsSound) (name : String)
    (hsize : (j.tables.intern name).2.symbols.size ≤ 2 ^ 32) : (j.intern name).2.IsSound :=
  h.note (Entry.isSound_intern hsize)

theorem fresh (h : j.IsSound) {base : String} (hsize : j.tables.symbols.size < 2 ^ 32) :
    (j.fresh base).2.IsSound :=
  h.note (Entry.isSound_fresh hsize)

theorem define (h : j.IsSound) {id : RuleId} {body : Body}
    (hslot : j.tables.rules.slot id = []) (hbody : body ≠ [])
    (hid : id.toNat < j.tables.symbols.size) : (j.define id body).IsSound :=
  h.note (Entry.isSound_define hslot hbody hid)

end IsSound

end Journal

/-! ### Slots that wait for their body -/

theorem RuleTable.slot_eq_nil_of_isDefined {t : RuleTable} {id : RuleId}
    (h : ¬ t.isDefined id = true) : t.slot id = [] := by
  simpa [isDefined] using h

/-- The slots of the ids that were given out before stay as they are. -/
def Builder.KeepsSlots (b b' : Builder) : Prop :=
  ∀ id : RuleId, id.toNat < b.symbols.size → b'.rules.slot id = b.rules.slot id

namespace Builder.KeepsSlots

variable {b b' b'' : Builder}

theorem refl (b : Builder) : b.KeepsSlots b := fun _ _ => rfl

theorem intern (b : Builder) (name : String) : b.KeepsSlots (b.intern name).2 := fun _ _ => rfl

theorem fresh (b : Builder) (base : String) : b.KeepsSlots (b.fresh base).2 := fun _ _ => rfl

theorem trans (h : b.KeepsSlots b') (h' : b'.KeepsSlots b'')
    (hsize : b.symbols.size ≤ b'.symbols.size) : b.KeepsSlots b'' :=
  fun id hid => (h' id (hid.trans_le hsize)).trans (h id hid)

/-- A body is stored under an id that was given out later. -/
theorem define (h : b.KeepsSlots b') {id : RuleId} (hid : b.symbols.size ≤ id.toNat)
    (body : Body) : b.KeepsSlots (b'.define id body) := by
  intro k hk
  have hne : id ≠ k := by
    rintro rfl
    omega
  exact (RuleTable.slot_define_of_ne _ _ hne).trans (h k hk)

end Builder.KeepsSlots

open Builder (KeepsSlots)

/-- An expression leaves the slots of the ids that were given out before as they are. -/
theorem Expr.keepsSlots_build {level : Level} (e : Expr level) (base : String) (b : Builder)
    (hsize : (e.build base b).2.symbols.size ≤ 2 ^ 32) : b.KeepsSlots (e.build base b).2 := by
  induction e generalizing b with
  | literal | charClass | nothing => exact .refl b
  | ref name => exact .intern b name
  | group body ih =>
    have hfresh : (b.fresh base).2.symbols.size = b.symbols.size + 1 := b.symbols.size_fresh base
    have hbody := body.le_size_build base (b.fresh base).2
    have hsize : (body.build base (b.fresh base).2).2.symbols.size ≤ 2 ^ 32 := hsize
    have hid : b.symbols.nextId.toNat = b.symbols.size := SymbolTable.toNat_nextId (by omega)
    have hkeeps := (KeepsSlots.fresh b base).trans (ih _ hsize) (by omega)
    exact hkeeps.define hid.ge _
  | repeated q operand ih =>
    have hoperand := operand.le_size_build base b
    have hfresh := (operand.build base b).2.symbols.size_fresh base
    have hsize : ((operand.build base b).2.symbols.fresh base).2.size ≤ 2 ^ 32 := hsize
    have hid : (operand.build base b).2.symbols.nextId.toNat =
        (operand.build base b).2.symbols.size := SymbolTable.toNat_nextId (by omega)
    have hkeeps := (ih b (by omega)).trans (.fresh _ base) hoperand
    exact hkeeps.define (hoperand.trans hid.ge) _
  | only _ ih => exact ih b hsize
  | snoc front last ihfront ihlast | orElse front last ihfront ihlast =>
    have hfront := front.le_size_build base b
    have hlast := last.le_size_build base (front.build base b).2
    exact (ihfront b (hlast.trans hsize)).trans (ihlast _ hsize) hfront

/-! ### Sound readings -/

/-- The id of a name that is looked up was given out, then or before. -/
theorem SymbolTable.toNat_intern_lt {t : SymbolTable} {name : String}
    (hsize : (t.intern name).2.size ≤ 2 ^ 32) :
    (t.intern name).1.toNat < (t.intern name).2.size :=
  (interned_intern hsize).toNat_lt

/-- The slot that waits for the body of an expression is still empty when the body is built. -/
theorem Journal.IsSound.define_record {level : Level} {e : Expr level} {base : String} {j : Journal}
    (h : (e.record base j).2.IsSound)
    (hsize : (e.build base j.tables).2.symbols.size ≤ 2 ^ 32) {id : RuleId}
    (hslot : j.tables.rules.slot id = []) (hid : id.toNat < j.tables.symbols.size) {body : Body}
    (hbody : body ≠ []) : ((e.record base j).2.define id body).IsSound := by
  refine h.define ?_ hbody ?_
  · rw [e.tables_record]
    exact (e.keepsSlots_build base j.tables hsize id hid).trans hslot
  · rw [e.tables_record]
    exact hid.trans_le (e.le_size_build base j.tables)

theorem Expr.isSound_record {level : Level} (e : Expr level) (base : String) {j : Journal}
    (h : j.IsSound) (hsize : (e.build base j.tables).2.symbols.size ≤ 2 ^ 32) :
    (e.record base j).2.IsSound := by
  induction e generalizing j with
  | literal | charClass | nothing => exact h
  | ref name => exact h.intern name hsize
  | group body ih =>
    have hfresh : (j.tables.fresh base).2.symbols.size = j.tables.symbols.size + 1 :=
      j.tables.symbols.size_fresh base
    have hbody := body.le_size_build base (j.tables.fresh base).2
    have hsize : (body.build base (j.tables.fresh base).2).2.symbols.size ≤ 2 ^ 32 := hsize
    have hid : (j.tables.fresh base).1.toNat = j.tables.symbols.size :=
      SymbolTable.toNat_nextId (by omega)
    have hrecord := ih (j := (j.fresh base).2) (h.fresh (by omega)) hsize
    exact hrecord.define_record hsize (h.slot_eq_nil hid.ge) (lt_of_lt_of_eq (by omega) hfresh.symm)
      (List.concat_ne_nil _ _)
  | repeated q operand ih =>
    have hfresh := (operand.build base j.tables).2.symbols.size_fresh base
    have hsize : ((operand.build base j.tables).2.symbols.fresh base).2.size ≤ 2 ^ 32 := hsize
    have htables := operand.tables_record base j
    have hrecord := ih h (by omega)
    rw [← htables] at hfresh hsize
    have hid : ((operand.record base j).2.tables.fresh base).1.toNat = _ :=
      SymbolTable.toNat_nextId (by omega)
    -- nothing is built between the id of a repetition and its body
    exact (hrecord.fresh (by omega)).define (hrecord.slot_eq_nil hid.ge)
      (q.expansion_ne_nil _ _) (lt_of_lt_of_eq (by omega) hfresh.symm)
  | only _ ih => exact ih h hsize
  | snoc front last ihfront ihlast | orElse front last ihfront ihlast =>
    have hlast := last.le_size_build base (front.build base j.tables).2
    have htables := front.tables_record base j
    exact ihlast (ihfront h (hlast.trans hsize)) (htables ▸ hsize)

namespace Journal.IsSound

variable {j : Journal}

theorem addDefinition (h : j.IsSound) (d : Definition)
    (hroom : j.tables.symbols.size + (d.body.idCount + 1) ≤ 2 ^ 32) :
    (j.addDefinition d).1.IsSound := by
  have hsize : (j.tables.intern d.name).2.symbols.size ≤ j.tables.symbols.size + 1 :=
    j.tables.symbols.size_intern_le d.name
  have hbuild := d.body.size_build_le d.name (j.tables.intern d.name).2
  have hintern := h.intern d.name (by omega)
  unfold Journal.addDefinition
  by_cases hdefined : (j.intern d.name).2.tables.rules.isDefined (j.intern d.name).1
  · simpa only [hdefined, if_true] using hintern
  · simp only [hdefined, Bool.false_eq_true, if_false]
    have hrecord := d.body.isSound_record d.name hintern (hbuild.trans (by omega))
    exact (hrecord.define_record (hbuild.trans (by omega))
      (RuleTable.slot_eq_nil_of_isDefined hdefined)
      (SymbolTable.toNat_intern_lt (hsize.trans (by omega))) (by simp)).log _

theorem addDefinitions (h : j.IsSound) (ds : List Definition)
    (hroom : j.tables.symbols.size + idCount ds ≤ 2 ^ 32) : (j.addDefinitions ds).1.IsSound := by
  induction ds generalizing j with
  | nil => exact h
  | cons d ds ih =>
    rw [idCount_cons] at hroom
    have hd := h.addDefinition d (by omega)
    have hsize := j.tables.size_addDefinition_le d
    rw [← j.map_tables_addDefinition d] at hsize
    rw [Journal.addDefinitions]
    cases hadd : j.addDefinition d with
    | mk j' added =>
      rw [hadd] at hd hsize
      cases added with
      | false => exact hd
      | true =>
        have hsize : j'.tables.symbols.size ≤ _ := hsize
        exact ih hd (by omega)

theorem addFrames (base : String) (finished : Bool) {frames : List Frame} {id : RuleId}
    (h : j.IsSound) (hslot : j.tables.rules.slot id = []) (hid : id.toNat < j.tables.symbols.size)
    (hroom : j.tables.symbols.size + openIdCount frames ≤ 2 ^ 32) :
    (addFrames base finished frames id j).IsSound := by
  induction frames generalizing id j with
  | nil => exact h
  | cons f frames ih =>
    have hbuild := f.body.size_build_le base j.tables
    rw [openIdCount, List.map_cons, List.sum_cons, List.length_cons] at hroom
    have hsize : (f.body.build base j.tables).2.symbols.size ≤ 2 ^ 32 := by omega
    have hf := f.body.isSound_record base h hsize
    cases frames with
    | nil =>
      simp only [Journal.addFrames]
      split
      · exact hf.define_record hsize hslot hid (by simp)
      · exact hf
    | cons g frames =>
      have htables := f.body.tables_record base j
      have hfresh := (f.body.record base j).2.tables.symbols.size_fresh base
      rw [← htables] at hbuild hsize
      rw [List.length_cons] at hroom
      have hnext : ((f.body.record base j).2.tables.fresh base).1.toNat = _ :=
        SymbolTable.toNat_nextId (by omega)
      refine ih (hf.fresh (by omega)) (hf.slot_eq_nil hnext.ge)
        (lt_of_lt_of_eq (by omega) hfresh.symm) ?_
      show (((f.body.record base j).2.tables.symbols.fresh base).2.size + _) ≤ _
      rw [hfresh, openIdCount, List.length_cons]
      omega

theorem addOpenDefinition (h : j.IsSound) {d : OpenDefinition}
    (hroom : j.tables.symbols.size + d.idCount ≤ 2 ^ 32) : (j.addOpenDefinition d).IsSound := by
  rw [OpenDefinition.idCount] at hroom
  have hsize : (j.tables.intern d.name).2.symbols.size ≤ j.tables.symbols.size + 1 :=
    j.tables.symbols.size_intern_le d.name
  have hintern := h.intern d.name (by omega)
  unfold Journal.addOpenDefinition
  by_cases hdefined : (j.intern d.name).2.tables.rules.isDefined (j.intern d.name).1
  · simpa only [hdefined, if_true] using hintern
  · simp only [hdefined, Bool.false_eq_true, if_false]
    refine hintern.addFrames d.name d.finished (RuleTable.slot_eq_nil_of_isDefined hdefined)
      (SymbolTable.toNat_intern_lt (hsize.trans (by omega))) ?_
    rw [openIdCount_reverse]
    exact (Nat.add_le_add_right hsize _).trans (by omega)

end Journal.IsSound

/-- **If the ids suffice, the journal of a reading is sound**, also if the text is refused. -/
theorem Reading.isSound_journal {r : Reading} (hroom : r.idCount ≤ 2 ^ 32) :
    r.journal.IsSound := by
  rw [Reading.idCount] at hroom
  have hempty : Journal.empty.tables.symbols.size = 0 := rfl
  have hdefs := Journal.IsSound.empty.addDefinitions r.definitions (by omega)
  have hsize : (Journal.empty.tables.addDefinitions r.definitions).1.symbols.size ≤ _ :=
    Journal.empty.tables.size_addDefinitions_le r.definitions
  rw [← Journal.map_tables_addDefinitions] at hsize
  unfold journal
  cases hadd : Journal.empty.addDefinitions r.definitions with
  | mk j duplicate =>
    rw [hadd] at hdefs hsize
    have hsize : j.tables.symbols.size ≤ _ := hsize
    cases duplicate with
    | some d => exact hdefs
    | none =>
      dsimp only
      split
      · rename_i fault d hrefusal
        simp only [hrefusal, Refusal.idCount, Option.map_some, Option.getD_some] at hroom
        exact Journal.IsSound.addOpenDefinition hdefs
          ((Nat.add_le_add_right hsize _).trans (by omega))
      · exact hdefs
      · exact hdefs

/-- The ids suffice for a text that is short enough. -/
theorem idCount_read_lt (limit : ℕ) {source : String} (hlen : source.length < 2 ^ 32) :
    (read limit source.toList).idCount < 2 ^ 32 := by
  rw [← String.length_toList] at hlen
  exact (read_idCount_le limit source.toList).trans_lt hlen

theorem isSound_journal (limit : ℕ) {source : String} (hlen : source.length < 2 ^ 32) :
    (journal limit source).IsSound :=
  Reading.isSound_journal (idCount_read_lt limit hlen).le

end EbnfTables
