import EbnfTables.Proofs.Tables.Naming
import EbnfTables.Proofs.Text.Order

/-!
# Tables of symbols

What holds of every table that is filled by calls of `intern` and `fresh`, in any order and with any
names.

* `Call` is one of these calls and `run` a row of them.  Where there is room for another id, every
  call interns a name (`Call.apply_eq_intern`), so what interning keeps holds after a run
  (`run_induction`);
* interning does to the entries what a map does that stores the ids (`internEntry_entries`);
* names without repetition are numbered (`isNumbering`): ids and names determine each other, and
  there is one order in which the names increase;
* a generated name is what an unbounded search finds (`findsFree_marked`).

Main theorems: `isNumbering_run` and `fresh_eq_least`.
-/

namespace EbnfTables.SymbolTable

variable {t t' : SymbolTable}

/-! ### Calls -/

/-- A call that may add a name. -/
inductive Call
  | intern (name : String)
  | fresh (base : String)

namespace Call

/-- The id that is answered, and the table after the call. -/
def apply : Call → SymbolTable → RuleId × SymbolTable
  | .intern name, t => t.intern name
  | .fresh base, t => t.fresh base

/-- The name whose id is answered. -/
def name : Call → SymbolTable → String
  | .intern name, _ => name
  | .fresh base, t => t.freshName base

theorem apply_eq_intern (call : Call) (hsize : t.size < 2 ^ 32) :
    call.apply t = t.intern (call.name t) := by
  cases call with
  | intern name => rfl
  | fresh base => exact fresh_eq_intern hsize base

theorem le_size_apply (call : Call) (t : SymbolTable) : t.size ≤ (call.apply t).2.size := by
  cases call with
  | intern name => exact t.le_size_intern name
  | fresh base =>
    show t.size ≤ (t.fresh base).2.size
    rw [size_fresh]
    exact Nat.le_succ _

end Call

/-- The table after a row of calls. -/
def run (t : SymbolTable) (calls : List Call) : SymbolTable :=
  calls.foldl (fun t call => (call.apply t).2) t

theorem run_cons (t : SymbolTable) (call : Call) (calls : List Call) :
    t.run (call :: calls) = (call.apply t).2.run calls := rfl

theorem run_append (t : SymbolTable) (calls later : List Call) :
    t.run (calls ++ later) = (t.run calls).run later :=
  List.foldl_append

theorem le_size_run (t : SymbolTable) (calls : List Call) : t.size ≤ (t.run calls).size := by
  induction calls generalizing t with
  | nil => exact le_rfl
  | cons call calls ih => exact (call.le_size_apply t).trans (ih _)

/-- What interning keeps holds after any calls, as long as there are ids for them. -/
theorem run_induction {P : List String → Prop}
    (hintern : ∀ {names name id names'}, Interned names name id names' → P names → P names')
    (h : P t.names) {calls : List Call} (hsize : (t.run calls).size < 2 ^ 32) :
    P (t.run calls).names := by
  induction calls generalizing t with
  | nil => exact h
  | cons call calls ih =>
    have hroom : t.size < 2 ^ 32 := (t.le_size_run _).trans_lt hsize
    rw [run_cons] at hsize ⊢
    apply ih _ hsize
    rw [call.apply_eq_intern hroom]
    exact hintern (interned_intern ((t.size_intern_le _).trans hroom)) h

/-! ### Entries -/

/-- What interning does in a map that stores the ids: a name is looked up, and a new one is put
behind all others with the number of entries as its id. -/
def internEntry (entries : List (String × RuleId)) (name : String) :
    RuleId × List (String × RuleId) :=
  match entries.lookup name with
  | some id => (id, entries)
  | none => (entries.length.toUInt32, entries ++ [(name, entries.length.toUInt32)])

@[simp] theorem length_entries (t : SymbolTable) : t.entries.length = t.size := by
  simp [entries, size]

@[simp] theorem map_fst_entries (t : SymbolTable) : t.entries.map Prod.fst = t.names := by
  simp [entries, Function.comp_def]

theorem entries_inj : t.entries = t'.entries ↔ t = t' := by
  constructor
  · intro h
    have hnames := congrArg (List.map Prod.fst) h
    rw [map_fst_entries, map_fst_entries] at hnames
    exact congrArg SymbolTable.mk hnames
  · rintro rfl
    rfl

theorem entries_push (t : SymbolTable) (name : String) :
    (t.push name).entries = t.entries ++ [(name, t.nextId)] := by
  simp [entries, push, List.zipIdx_append, nextId, size]

theorem lookup_map_zipIdx (names : List String) (k : ℕ) (name : String) :
    ((names.zipIdx k).map fun place => (place.1, place.2.toUInt32)).lookup name =
      (names.idxOf? name).map fun i => (i + k).toUInt32 := by
  induction names generalizing k with
  | nil => rfl
  | cons first names ih =>
    rw [List.zipIdx_cons, List.map_cons, List.lookup_cons, ih, List.idxOf?_cons]
    by_cases hfirst : first = name
    · subst hfirst
      simp
    · rw [beq_eq_false_iff_ne.2 (Ne.symm hfirst), beq_eq_false_iff_ne.2 hfirst]
      cases names.idxOf? name with
      | none => rfl
      | some i =>
        show some (i + (k + 1)).toUInt32 = some (i + 1 + k).toUInt32
        rw [Nat.add_right_comm i 1 k, Nat.add_assoc]

/-- The id stored with a name is the one that is found by its place. -/
theorem lookup_entries (t : SymbolTable) (name : String) : t.entries.lookup name = t.id? name :=
  lookup_map_zipIdx t.names 0 name

theorem internEntry_entries (t : SymbolTable) (name : String) :
    internEntry t.entries name = ((t.intern name).1, (t.intern name).2.entries) := by
  unfold internEntry intern
  rw [lookup_entries, length_entries]
  cases t.id? name with
  | some id => rfl
  | none =>
    show _ = (t.nextId, (t.push name).entries)
    rw [entries_push]
    rfl

/-- A name keeps its id in a table that has more names. -/
theorem id?_of_isPrefix (h : t.names <+: t'.names) {name : String} {id : RuleId}
    (hid : t.id? name = some id) : t'.id? name = some id := by
  obtain ⟨more, hmore⟩ := h
  have hentries : t'.entries = t.entries ++
      (more.zipIdx t.size).map fun place => (place.1, place.2.toUInt32) := by
    rw [entries, ← hmore, List.zipIdx_append, List.map_append, Nat.zero_add]
    rfl
  rw [← lookup_entries, hentries, List.lookup_append, lookup_entries, hid, Option.some_or]

/-! ### Runs -/

theorem isPrefix_run {calls : List Call} (hsize : (t.run calls).size < 2 ^ 32) :
    t.names <+: (t.run calls).names := by
  apply run_induction (P := fun names => t.names <+: names) _ List.prefix_rfl hsize
  intro names name id names' hname h
  exact h.trans hname.isPrefix

theorem nodup_run {calls : List Call} (hn : t.names.Nodup) (hsize : (t.run calls).size < 2 ^ 32) :
    (t.run calls).names.Nodup :=
  run_induction Interned.nodup hn hsize

theorem id?_intern (hsize : t.size < 2 ^ 32) (name : String) :
    (t.intern name).2.id? name = some (t.intern name).1 := by
  have h : Interned t.names name (t.intern name).1 (t.intern name).2.names :=
    interned_intern ((t.size_intern_le name).trans hsize)
  exact id?_eq_some_of_toNat_eq h.mem h.toNat_id

/-- The name that a call asked for keeps the id that was answered. -/
theorem id?_run_cons {call : Call} {later : List Call}
    (hsize : (t.run (call :: later)).size < 2 ^ 32) :
    (t.run (call :: later)).id? (call.name t) = some (t.intern (call.name t)).1 := by
  have hroom := (t.le_size_run (call :: later)).trans_lt hsize
  rw [run_cons, call.apply_eq_intern hroom] at hsize ⊢
  exact id?_of_isPrefix (isPrefix_run hsize) (id?_intern hroom _)

/-! ### Numbering -/

theorem sorted_perm (t : SymbolTable) : t.sorted.Perm t.entries := List.mergeSort_perm _ _

/-- The names of a table without repetition are sorted strictly. -/
theorem pairwise_sorted (hn : t.names.Nodup) : t.sorted.Pairwise fun a b => a.1 < b.1 := by
  have hle : t.sorted.Pairwise fun a b => Text.precedes a.1 b.1 = true := by
    refine List.pairwise_mergeSort (fun a b c hab hbc => ?_) (fun a b => ?_) t.entries
    · rw [Text.precedes_iff] at hab hbc ⊢
      exact hab.trans hbc
    · rw [Bool.or_eq_true, Text.precedes_iff, Text.precedes_iff]
      exact le_total _ _
  have hne : t.sorted.Pairwise fun a b => a.1 ≠ b.1 := by
    rw [← List.pairwise_map, ← List.Nodup]
    rw [← t.map_fst_entries] at hn
    exact (t.sorted_perm.map Prod.fst).nodup_iff.2 hn
  exact (hle.and hne).imp fun h => lt_of_le_of_ne (Text.precedes_iff.1 h.1) h.2

/-- There is one order of the entries in which the names increase. -/
theorem sorted_eq_of_perm {l : List (String × RuleId)} (hn : t.names.Nodup)
    (hl : l.Pairwise fun a b => a.1 < b.1) (hperm : l.Perm t.entries) : t.sorted = l :=
  List.Perm.eq_of_pairwise (fun _ _ _ _ hab hba => absurd hba hab.asymm) (pairwise_sorted hn) hl
    (t.sorted_perm.trans hperm.symm)

/-- The names of `t` are numbered from 0: ids and names determine each other, the entries stand in
the order of the ids, and the sorted entries in the order of the bytes of the names. -/
structure IsNumbering (t : SymbolTable) : Prop where
  ids_eq : t.entries.map (fun entry => entry.2.toNat) = List.range t.size
  mem_entries_iff : ∀ name id, (name, id) ∈ t.entries ↔ t.id? name = some id
  lookup_eq : ∀ name, t.entries.lookup name = t.id? name
  name?_id? : ∀ name ∈ t.names, (t.id? name).bind t.name? = some name
  id?_name? : ∀ id : RuleId, id.toNat < t.size → (t.name? id).bind t.id? = some id
  sorted_perm : t.sorted.Perm t.entries
  sorted_lt : t.sorted.Pairwise fun a b => Text.bytes a.1 < Text.bytes b.1

theorem map_toNat_entries (hsize : t.size ≤ 2 ^ 32) :
    t.entries.map (fun entry => entry.2.toNat) = List.range t.size := by
  calc t.entries.map (fun entry => entry.2.toNat)
      = t.names.zipIdx.map (fun place => place.2.toUInt32.toNat) := by simp [entries]
    _ = t.names.zipIdx.map Prod.snd := by
        refine List.map_congr_left fun place hplace => ?_
        have hlt : place.2 < t.size := List.snd_lt_of_mem_zipIdx hplace
        exact toNat_toUInt32_of_lt (hlt.trans_le hsize)
    _ = List.range t.size := by
        rw [List.zipIdx_map_snd, List.range_eq_range']
        rfl

/-- Names without repetition are numbered, as long as there are ids for them. -/
theorem isNumbering (hn : t.names.Nodup) (hsize : t.size ≤ 2 ^ 32) : t.IsNumbering where
  ids_eq := map_toNat_entries hsize
  mem_entries_iff _ _ := mem_entries_iff_id? hn hsize
  lookup_eq := t.lookup_entries
  name?_id? name hmem := by
    obtain ⟨id, h⟩ := exists_interned_of_mem hsize hmem
    rw [id?_eq_some_of_toNat_eq hmem h.toNat_id, Option.bind_some]
    exact h.getElem?_eq
  id?_name? id hlt := by
    have hname : t.name? id = some t.names[id.toNat] := List.getElem?_eq_getElem hlt
    rw [hname, Option.bind_some]
    exact (id?_eq_some_iff hn hsize).2 hname
  sorted_perm := t.sorted_perm
  sorted_lt := (pairwise_sorted hn).imp Text.bytes_lt_iff.2

/-- **The names that calls leave are numbered in the order in which they were first seen.**  Every
call does what it would do to a map that stores the ids, and the name that it asked for has the id
that it answered from then on.  Two tables agree if and only if their entries are the same. -/
theorem isNumbering_run (calls : List Call) (hsize : (empty.run calls).size < 2 ^ 32) :
    (empty.run calls).IsNumbering ∧
    (∀ before call later, calls = before ++ call :: later →
      internEntry (empty.run before).entries (call.name (empty.run before)) =
        ((call.apply (empty.run before)).1, (call.apply (empty.run before)).2.entries) ∧
      (empty.run calls).id? (call.name (empty.run before)) =
        some (call.apply (empty.run before)).1) ∧
    (∀ before later, calls = before ++ later → ∀ name id,
      (empty.run before).id? name = some id → (empty.run calls).id? name = some id) ∧
    ∀ calls', (empty.run calls').size < 2 ^ 32 →
      ((empty.run calls).agrees (empty.run calls') = true ↔
        (empty.run calls).entries = (empty.run calls').entries) := by
  have hnodup {calls : List Call} (hsize : (empty.run calls).size < 2 ^ 32) :
      (empty.run calls).names.Nodup := nodup_run List.nodup_nil hsize
  refine ⟨isNumbering (hnodup hsize) hsize.le, ?_, ?_, ?_⟩
  · rintro before call later rfl
    rw [run_append] at hsize ⊢
    have hroom := ((empty.run before).le_size_run (call :: later)).trans_lt hsize
    rw [internEntry_entries, call.apply_eq_intern hroom]
    exact ⟨rfl, id?_run_cons hsize⟩
  · rintro before later rfl name id hid
    rw [run_append] at hsize ⊢
    exact id?_of_isPrefix (isPrefix_run hsize) hid
  · intro calls' hsize'
    rw [agrees_iff (hnodup hsize') hsize'.le]
    exact entries_inj.symm

/-- The name that is generated first was written, and one name is asked for twice.  The same names
in another order are another table. -/
theorem isNumbering_run_written_twice :
    (empty.run [.intern "root", .intern "root_2", .fresh "root", .intern "a",
      .intern "root"]).entries = [("root", 0), ("root_2", 1), ("root_2_2", 2), ("a", 3)] ∧
    (empty.run [.intern "root", .intern "root_2", .fresh "root", .intern "a",
      .intern "root"]).IsNumbering ∧
    (empty.run [.intern "root", .intern "root_2", .fresh "root", .intern "a",
      .intern "root"]).agrees
        (empty.run [.intern "root_2", .intern "root", .fresh "root", .intern "a"]) = false := by
  obtain ⟨hnumbering, -, -, hagrees⟩ := isNumbering_run
    [.intern "root", .intern "root_2", .fresh "root", .intern "a", .intern "root"]
    (by decide +kernel)
  refine ⟨by decide +kernel, hnumbering, ?_⟩
  rw [← Bool.not_eq_true, hagrees _ (by decide +kernel)]
  decide +kernel

/-! ### Generated names -/

/-- The search for a name that is not taken: as long as it is, `mark` is put behind it. -/
inductive FindsFree (taken : List String) (mark : String) : String → String → Prop
  | free {name : String} (hfree : name ∉ taken) : FindsFree taken mark name name
  | next {name found : String} (htaken : name ∈ taken)
      (hfound : FindsFree taken mark (name ++ mark) found) : FindsFree taken mark name found

theorem findsFree_marked {taken : List String} {base mark : String} {n : ℕ}
    (hfree : marked base mark n ∉ taken) (hleast : ∀ m < n, marked base mark m ∈ taken) :
    FindsFree taken mark base (marked base mark n) := by
  induction n generalizing base with
  | zero => exact .free hfree
  | succ n ih =>
    refine .next (hleast 0 n.succ_pos) ?_
    rw [← marked_append] at hfree ⊢
    refine ih hfree fun m hm => ?_
    rw [marked_append]
    exact hleast (m + 1) (Nat.succ_lt_succ hm)

theorem id?_push_of_ne {name other : String} (hne : other ≠ name) :
    (t.push name).id? other = t.id? other := by
  rw [← lookup_entries, ← lookup_entries, entries_push, List.lookup_append, List.lookup_cons,
    beq_eq_false_iff_ne.2 hne]
  exact Option.or_none

/-- **A generated name is always found, and it is new.**  It is `base` with `_id` behind it as often
as it takes to be new, and no oftener, where the id is the number of names.  It stands behind all
earlier entries, which stay as they are. -/
theorem fresh_eq_least (t : SymbolTable) (base : String) (hsize : t.size < 2 ^ 32) :
    ∃ (name : String) (k : ℕ),
      (name = marked base ("_" ++ toString t.size) k ∧ 1 ≤ k ∧ k ≤ t.size + 1 ∧ name ∉ t.names ∧
        ∀ j, 1 ≤ j → j < k → marked base ("_" ++ toString t.size) j ∈ t.names) ∧
      FindsFree t.names ("_" ++ toString t.size) (base ++ ("_" ++ toString t.size)) name ∧
      t.fresh base = t.intern name ∧
      (t.fresh base).1.toNat = t.size ∧
      (t.fresh base).2.entries = t.entries ++ [(name, (t.fresh base).1)] ∧
      (t.fresh base).2.id? name = some (t.fresh base).1 ∧
      ∀ other, other ≠ name → (t.fresh base).2.id? other = t.id? other := by
  obtain ⟨id, names', h⟩ := exists_generated hsize base
  obtain ⟨n, rfl, hfree, hleast⟩ := h.name
  have hfresh := h.fresh_eq
  have hid : id = t.nextId := congrArg Prod.fst hfresh.symm
  rw [show id.toNat = t.size from h.toNat_id] at hfree hleast hfresh
  have hmark := length_mark_ne_zero t.size
  generalize "_" ++ toString t.size = mark at hfree hleast hfresh hmark
  have hintern : t.fresh base = t.intern (marked base mark (n + 1)) := by
    rw [hfresh, intern_of_not_mem (id?_eq_none_iff.2 hfree), hid, push]
  refine ⟨marked base mark (n + 1), n + 1, ⟨rfl, n.succ_pos, ?_, hfree, ?_⟩, ?_, hintern,
    toNat_nextId hsize, ?_, ?_, ?_⟩
  · exact Nat.succ_le_succ (le_length_of_marked_mem hmark hleast)
  · intro j hj hlt
    obtain ⟨m, rfl⟩ := Nat.exists_eq_add_of_le' hj
    exact hleast m (Nat.lt_of_succ_lt_succ hlt)
  · rw [← marked_append] at hfree ⊢
    refine findsFree_marked hfree fun m hm => ?_
    rw [marked_append]
    exact hleast m hm
  · rw [hfresh, hid]
    exact t.entries_push _
  · rw [hintern]
    exact id?_intern hsize _
  · intro other hne
    rw [hfresh]
    exact id?_push_of_ne hne

/-- The first two names that are tried were written. -/
theorem fresh_eq_least_third :
    (SymbolTable.mk ["root", "root_3", "root_3_3"]).fresh "root" =
      (3, ⟨["root", "root_3", "root_3_3", "root_3_3_3"]⟩) ∧
    FindsFree ["root", "root_3", "root_3_3"] "_3" "root_3" "root_3_3_3" ∧
    ∃ k ≤ 4, "root_3_3_3" = marked "root" "_3" k ∧
      ∀ j, 1 ≤ j → j < k → marked "root" "_3" j ∈ ["root", "root_3", "root_3_3"] := by
  have hfresh : (SymbolTable.mk ["root", "root_3", "root_3_3"]).fresh "root" =
      (3, ⟨["root", "root_3", "root_3_3", "root_3_3_3"]⟩) := by decide +kernel
  obtain ⟨name, k, ⟨hname, -, hk, -, hleast⟩, hfinds, -, -, hentries, -⟩ :=
    fresh_eq_least ⟨["root", "root_3", "root_3_3"]⟩ "root" (by decide)
  obtain rfl : "root_3_3_3" = name := by
    rw [hfresh] at hentries
    exact Option.some.inj (congrArg (fun entries => (entries.map Prod.fst)[3]?) hentries)
  exact ⟨hfresh, hfinds, k, hk, hname, hleast⟩

end EbnfTables.SymbolTable
