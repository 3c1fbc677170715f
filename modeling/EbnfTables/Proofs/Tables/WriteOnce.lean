import EbnfTables.Proofs.Tables.Journal
import EbnfTables.Proofs.Tables.Persistence
import EbnfTables.Proofs.Tables.References

/-!
# Every body is written once

What the journal of a compilation says about the bodies, whether the compilation succeeds or not.

* A reading comes to a definition behind others (`Reading.ComesTo`), and leaves room for its id
  (`Reading.ComesTo.idCount_lt`), so the ids suffice (`idCount_lt_of_comesTo`);
* a definition is refused if and only if a body was stored under its name
  (`Journal.IsSound.refuses_iff`), which was done for an earlier definition or for a generated rule
  (`Journal.hasBody_iff`).

Main theorem: `bodies_written_once`.
-/

namespace EbnfTables

/-- The reading comes to a definition of `name` at `site`, behind the definitions `front`. -/
def Reading.ComesTo (r : Reading) (front : List Definition) (name : String) (site : List Char) :
    Prop :=
  ∃ more : Reading, r = ⟨front ++ more.definitions, more.refusal⟩ ∧ more.Begins name site

/-- A definition that a reading comes to may need an id behind those of the others. -/
theorem Reading.ComesTo.idCount_lt {r : Reading} {front : List Definition} {name : String}
    {site : List Char} (h : r.ComesTo front name site) : EbnfTables.idCount front < r.idCount := by
  obtain ⟨more, rfl, hbegins⟩ := h
  cases hbegins with
  | definition =>
    simp only [Reading.idCount, EbnfTables.idCount, List.map_append, List.sum_append, List.map_cons,
      List.sum_cons]
    omega
  | openDefinition =>
    simp only [Reading.idCount, Refusal.idCount, OpenDefinition.idCount, List.append_nil,
      Option.map_some, Option.getD_some]
    omega

theorem idCount_lt_of_comesTo {limit : ℕ} {source : String} (hlen : source.length < 2 ^ 32)
    {front : List Definition} {name : String} {site : List Char}
    (h : (read limit source.toList).ComesTo front name site) : idCount front < 2 ^ 32 :=
  h.idCount_lt.trans (idCount_read_lt limit hlen)

namespace Journal

/-- A body was stored under the id of `name`. -/
def HasBody (j : Journal) (name : String) : Prop :=
  ∃ w ∈ j.writes, j.tables.symbols.name? w.1 = some name

theorem addDefinitions_eq_none_iff {front : List Definition} {b : Builder} :
    Builder.empty.addDefinitions front = (b, none) ↔
      ∃ j, empty.addDefinitions front = (j, none) ∧ j.tables = b := by
  rw [← show empty.tables = Builder.empty from rfl, ← map_tables_addDefinitions]
  cases empty.addDefinitions front with
  | mk j duplicate => simp [and_comm]

/-- Definitions for which the ids suffice have a sound journal, and leave room for one more. -/
theorem isSound_of_addDefinitions {front : List Definition} {j : Journal}
    (h : empty.addDefinitions front = (j, none)) (hroom : EbnfTables.idCount front < 2 ^ 32) :
    j.IsSound ∧ j.tables.symbols.size < 2 ^ 32 := by
  have hempty : empty.tables.symbols.size = 0 := rfl
  have hsound := IsSound.empty.addDefinitions front (by omega)
  have hsize := empty.tables.size_addDefinitions_le front
  rw [← map_tables_addDefinitions, h] at hsize
  rw [h] at hsound
  exact ⟨hsound, hsize.trans_lt (by omega)⟩

/-- **A definition is refused if and only if a body was stored under its name.** -/
theorem IsSound.refuses_iff {j : Journal} (h : j.IsSound) (hsize : j.tables.symbols.size < 2 ^ 32)
    (name : String) : j.tables.refuses name = true ↔ j.HasBody name := by
  have hdefined (id : RuleId) : j.tables.rules.isDefined id = true ↔ id ∈ j.writes.map Prod.fst :=
    h.holds.isDefined_iff h.body_ne_nil
  show j.tables.rules.isDefined (j.tables.symbols.intern name).1 = true ↔ _
  rw [hdefined]
  cases hid : j.tables.symbols.id? name with
  | some id =>
    have hname := (SymbolTable.id?_eq_some_iff h.nodup hsize.le).1 hid
    rw [SymbolTable.intern_of_mem hid, List.mem_map]
    constructor
    · rintro ⟨w, hw, rfl⟩
      exact ⟨w, hw, hname⟩
    · rintro ⟨w, hw, hwname⟩
      exact ⟨w, hw, eq_of_getElem?_eq_some h.nodup hwname hname⟩
  | none =>
    -- a new name receives an id that was not given out, so nothing was stored under it
    have hnot := SymbolTable.id?_eq_none_iff.1 hid
    rw [SymbolTable.intern_of_not_mem hid, List.mem_map]
    constructor
    · rintro ⟨w, hw, heq⟩
      have hlt := (h.writes w hw).2
      rw [heq, SymbolTable.toNat_nextId hsize] at hlt
      exact absurd hlt (lt_irrefl _)
    · rintro ⟨w, -, hwname⟩
      exact absurd (List.mem_of_getElem? hwname) hnot

/-- **A body was stored under a name if and only if the name is that of a definition or of a
generated rule.** -/
theorem hasBody_iff {front : List Definition} {j : Journal}
    (h : empty.addDefinitions front = (j, none)) (hroom : EbnfTables.idCount front < 2 ^ 32)
    (name : String) :
    j.HasBody name ↔
      (∃ d ∈ front, d.name = name) ∨ ∃ id, .allocated name id ∈ j.tables.events := by
  obtain ⟨hsound, hsize⟩ := isSound_of_addDefinitions h hroom
  have hadd := addDefinitions_eq_none_iff.2 ⟨j, h, rfl⟩
  obtain ⟨writes, hall, hholds⟩ := exists_elaboratesAll hadd hsize.le
  have hwrites (id : RuleId) : id ∈ j.writes.map Prod.fst ↔ id ∈ writes.map Prod.fst := by
    rw [← hsound.holds.isDefined_iff hsound.body_ne_nil, hholds.isDefined_iff hall.body_ne_nil]
  have hevents (id : RuleId) : .allocated name id ∈ j.tables.events ↔ id ∈ writes.map Prod.fst ∧
      j.tables.symbols.names[id.toNat]? = some name ∧ ∀ d ∈ front, d.name ≠ name := by
    rw [← hall.mem_events_iff, hadd]
  constructor
  · rintro ⟨w, hw, hname⟩
    by_cases hdef : ∃ d ∈ front, d.name = name
    · exact .inl hdef
    · refine .inr ⟨w.1, (hevents w.1).2 ⟨?_, hname, fun d hd heq => hdef ⟨d, hd, heq⟩⟩⟩
      exact (hwrites w.1).1 (List.mem_map_of_mem hw)
  · have hasBody {id : RuleId} (hid : id ∈ writes.map Prod.fst)
        (hname : j.tables.symbols.names[id.toNat]? = some name) : j.HasBody name := by
      obtain ⟨w, hw, rfl⟩ := List.mem_map.1 ((hwrites id).2 hid)
      exact ⟨w, hw, hname⟩
    rintro (⟨d, hd, rfl⟩ | ⟨id, hid⟩)
    · obtain ⟨id, elements, hrep⟩ := hall.exists_represents d hd
      exact hasBody (List.mem_map_of_mem (f := Prod.fst) hrep.body) hrep.name
    · obtain ⟨hid, hname, -⟩ := (hevents id).1 hid
      exact hasBody hid hname

end Journal

/-- A text is refused for a definition that comes too late if and only if the reading comes to one
whose name was given a body. -/
theorem compile_eq_duplicateRule_iff {source : String} {options : CompileOptions}
    (hlen : source.length < 2 ^ 32) {name : String} {p : Position} :
    compile source options = .error (.duplicateRule name p) ↔
      ∃ front site j, (read options.maxNesting source.toList).ComesTo front name site ∧
        Journal.empty.addDefinitions front = (j, none) ∧ p = .ofRest source.toList site ∧
        j.HasBody name := by
  constructor
  · intro h
    obtain ⟨front, b, site, more, heq, hadd, hrefuses, hbegins, rfl⟩ :=
      Reading.exists_of_build_eq_duplicateRule (parse_eq_of_compile_eq_error h nofun)
    obtain ⟨j, hj, rfl⟩ := Journal.addDefinitions_eq_none_iff.1 hadd
    have hcomes : (read options.maxNesting source.toList).ComesTo front name site :=
      ⟨more, heq, hbegins⟩
    have hroom := idCount_lt_of_comesTo hlen hcomes
    obtain ⟨hsound, hsize⟩ := Journal.isSound_of_addDefinitions hj hroom
    exact ⟨front, site, j, hcomes, hj, rfl, (hsound.refuses_iff hsize name).1 hrefuses⟩
  · rintro ⟨front, site, j, hcomes, hj, rfl, hbody⟩
    have hroom := idCount_lt_of_comesTo hlen hcomes
    obtain ⟨hsound, hsize⟩ := Journal.isSound_of_addDefinitions hj hroom
    obtain ⟨more, heq, hbegins⟩ := hcomes
    have hadd := Journal.addDefinitions_eq_none_iff.2 ⟨j, hj, rfl⟩
    refine compile_of_parse_eq_error ?_
    rw [parse, heq]
    exact Reading.build_of_begins hbegins hadd ((hsound.refuses_iff hsize name).2 hbody) _

/-- **Every body is written once.**  The journal of a compilation, whether it succeeds or not, leads
to its tables, and what it says to be stored is what the rule table holds.  Each body that is stored
is not empty and meets an empty slot, under an id that has a name; no id has two bodies; and the
names are only appended.  So a definition is refused for coming too late if
and only if its name was given a body before, by a definition before it or as the name of a
generated rule. -/
theorem bodies_written_once (source : String) (options : CompileOptions)
    (hlen : source.length < 2 ^ 32) :
    (journal options.maxNesting source).tables = (parse options.maxNesting source).1 ∧
    (parse options.maxNesting source).1.rules.Holds (journal options.maxNesting source).writes ∧
    (∀ e ∈ (journal options.maxNesting source).entries, ∀ id body, e.change = .define id body →
      e.before.rules.slot id = [] ∧ body ≠ [] ∧ id.toNat < e.before.symbols.size) ∧
    ((journal options.maxNesting source).writes.map Prod.fst).Nodup ∧
    (journal options.maxNesting source).nameHistory.Pairwise (· <+: ·) ∧
    (∀ name p, compile source options = .error (.duplicateRule name p) ↔
      ∃ front site j, (read options.maxNesting source.toList).ComesTo front name site ∧
        Journal.empty.addDefinitions front = (j, none) ∧ p = .ofRest source.toList site ∧
        j.HasBody name) ∧
    ∀ front name site j, (read options.maxNesting source.toList).ComesTo front name site →
      Journal.empty.addDefinitions front = (j, none) →
      (j.HasBody name ↔
        (∃ d ∈ front, d.name = name) ∨ ∃ id, .allocated name id ∈ j.tables.events) := by
  have hsound := isSound_journal options.maxNesting hlen
  have htables : (journal options.maxNesting source).tables =
      (parse options.maxNesting source).1 := Reading.tables_journal _ _
  refine ⟨htables, htables ▸ hsound.holds, fun e he id body hchange => ?_, hsound.nodup_writes,
    hsound.isPrefix, fun name p => compile_eq_duplicateRule_iff hlen,
    fun front name site j hcomes hj => ?_⟩
  · have hwrite : e.write? = some (id, body) := by rw [Entry.write?, hchange]
    obtain ⟨hslot, hbody, hid, -⟩ := (hsound.entries e he).write id body hwrite
    exact ⟨hslot, hbody, hid⟩
  · have hroom := idCount_lt_of_comesTo hlen hcomes
    exact Journal.hasBody_iff hj hroom name

/-- A group with a quantifier, a reference ahead, and a definition with the name of the group. -/
theorem bodies_written_once_generated_name :
    compile "a ::= (\"x\" | b)*\na_1 ::= \"y\"" = .error (.duplicateRule "a_1" ⟨17, 2, 1⟩) ∧
    ((journal 64 "a ::= (\"x\" | b)*\na_1 ::= \"y\"").writes.map Prod.fst).Nodup ∧
    (journal 64 "a ::= (\"x\" | b)*\na_1 ::= \"y\"").writes.map Prod.fst = [1, 3, 0] ∧
    ∃ front j, Journal.empty.addDefinitions front = (j, none) ∧ j.HasBody "a_1" ∧
      ((∃ d ∈ front, d.name = "a_1") ∨ ∃ id, .allocated "a_1" id ∈ j.tables.events) := by
  have herror : compile "a ::= (\"x\" | b)*\na_1 ::= \"y\"" =
      .error (.duplicateRule "a_1" ⟨17, 2, 1⟩) := by decide +kernel
  obtain ⟨-, -, -, hnodup, -, hduplicate, hbody⟩ :=
    bodies_written_once "a ::= (\"x\" | b)*\na_1 ::= \"y\"" {} (by decide +kernel)
  obtain ⟨front, site, j, hcomes, hj, -, hj'⟩ := (hduplicate _ _).1 herror
  exact ⟨herror, hnodup, by decide +kernel, front, j, hj, hj', (hbody _ _ _ _ hcomes hj).1 hj'⟩

end EbnfTables
