import EbnfTables.SymbolTable
import Mathlib.Data.List.Nodup
import Mathlib.Data.List.Infix
import Mathlib.Data.Finset.Card
import Mathlib.Tactic.Ring

/-!
# How names get their ids

The two ways in which a table of names grows, on the bare list of names.

* `Interned names name id names'`: a name that is written is added if it is new, and its id is its
  place;
* `Generated names base id names'`: a generated name is always new.  It is `base` with the mark
  `_id` behind it, once or as often as it takes to be new, and no oftener.

Both determine the id and the names that result, and the symbol table does the same
(`Interned.intern_eq`, `Generated.fresh_eq`).  As long as there is room for another id, a name can
always be interned and generated (`exists_interned`, `exists_generated`), and a generated name is
added as a written name would be (`SymbolTable.fresh_eq_intern`).
-/

namespace EbnfTables

/-- The written name `name` has the id `id` in `names'`, which are `names` and perhaps itself. -/
structure Interned (names : List String) (name : String) (id : RuleId) (names' : List String) :
    Prop where
  names_eq : names' = if name ∈ names then names else names ++ [name]
  toNat_id : id.toNat = names'.idxOf name

/-- `base` with `mark` behind it `n` times. -/
def marked (base mark : String) : ℕ → String
  | 0 => base
  | n + 1 => marked base mark n ++ mark

/-- `names'` are `names` and one generated name, whose id is `id`. -/
structure Generated (names : List String) (base : String) (id : RuleId) (names' : List String) :
    Prop where
  toNat_id : id.toNat = names.length
  name : ∃ n, names' = names ++ [marked base ("_" ++ toString id.toNat) (n + 1)] ∧
    marked base ("_" ++ toString id.toNat) (n + 1) ∉ names ∧
    ∀ m < n, marked base ("_" ++ toString id.toNat) (m + 1) ∈ names

/-! ### Written names -/

namespace Interned

variable {names names' : List String} {name : String} {id : RuleId}

theorem mem (h : Interned names name id names') : name ∈ names' := by
  rw [h.names_eq]
  split <;> simp_all

theorem getElem?_eq (h : Interned names name id names') : names'[id.toNat]? = some name := by
  have hlt := List.idxOf_lt_length_iff.2 h.mem
  rw [h.toNat_id, List.getElem?_eq_getElem hlt, List.getElem_idxOf hlt]

theorem toNat_lt (h : Interned names name id names') : id.toNat < names'.length := by
  rw [h.toNat_id]
  exact List.idxOf_lt_length_iff.2 h.mem

theorem isPrefix (h : Interned names name id names') : names <+: names' := by
  rw [h.names_eq]
  split
  · exact List.prefix_rfl
  · exact List.prefix_append _ _

theorem length_le (h : Interned names name id names') : names'.length ≤ names.length + 1 := by
  rw [h.names_eq]
  split <;> simp

theorem nodup (h : Interned names name id names') (hn : names.Nodup) : names'.Nodup := by
  rw [h.names_eq]
  split
  · exact hn
  · rename_i hname
    exact List.nodup_append.2 ⟨hn, List.nodup_singleton _, by grind⟩

/-- A written name that is new takes the next id. -/
theorem toNat_eq_length (h : Interned names name id names') (hname : name ∉ names) :
    id.toNat = names.length := by
  rw [h.toNat_id, h.names_eq, if_neg hname, List.idxOf_append_of_notMem hname]
  simp

end Interned

theorem toNat_toUInt32_of_lt {n : ℕ} (h : n < 2 ^ 32) : n.toUInt32.toNat = n := by
  rw [UInt32.toNat_ofNat']
  exact Nat.mod_eq_of_lt h

/-- No two ids have the same name. -/
theorem eq_of_getElem?_eq_some {names : List String} (hn : names.Nodup) {id id' : RuleId}
    {name : String} (hid : names[id.toNat]? = some name) (hid' : names[id'.toNat]? = some name) :
    id = id' := by
  have hlt := (List.getElem?_eq_some_iff.1 hid).1
  exact UInt32.toNat_inj.1 ((List.getElem?_inj hlt hn).1 (hid.trans hid'.symm))

namespace SymbolTable

variable {t : SymbolTable} {name base : String} {id : RuleId} {names' : List String}

theorem id?_eq_some_of_toNat_eq (hmem : name ∈ t.names) (hid : id.toNat = t.names.idxOf name) :
    t.id? name = some id := by
  have hidx : t.names.idxOf? name = some (t.names.idxOf name) := by
    have hget := List.idxOf_eq_getD_idxOf? name t.names
    obtain ⟨i, hi⟩ := Option.isSome_iff_exists.1 (List.isSome_idxOf?.2 hmem)
    rw [hi, Option.getD_some] at hget
    rw [hi, hget]
  rw [id?, hidx, ← hid, Option.map_some]
  simp

theorem id?_eq_none_iff : t.id? name = none ↔ name ∉ t.names := by
  rw [id?, Option.map_eq_none_iff, List.idxOf?_eq_none_iff]

/-- In a table with few enough names, all of them different, names and ids determine each other. -/
theorem id?_eq_some_iff (hn : t.names.Nodup) (hlen : t.size ≤ 2 ^ 32) :
    t.id? name = some id ↔ t.name? id = some name := by
  constructor
  · intro h
    by_cases hmem : name ∈ t.names
    · have hlt := List.idxOf_lt_length_iff.2 hmem
      have hid := t.id?_eq_some_of_toNat_eq hmem
        (toNat_toUInt32_of_lt (hlt.trans_le hlen))
      rw [h, Option.some.injEq] at hid
      rw [name?, hid, toNat_toUInt32_of_lt (hlt.trans_le hlen), List.getElem?_eq_getElem hlt,
        List.getElem_idxOf hlt]
    · rw [id?_eq_none_iff.2 hmem] at h
      cases h
  · intro h
    obtain ⟨hlt, hget⟩ := List.getElem?_eq_some_iff.1 h
    refine id?_eq_some_of_toNat_eq (hget ▸ List.getElem_mem hlt) ?_
    rw [← hget]
    exact (hn.idxOf_getElem _ hlt).symm

theorem mem_entries_iff :
    (name, id) ∈ t.entries ↔ ∃ i : ℕ, t.names[i]? = some name ∧ id = i.toUInt32 := by
  simp only [entries, List.mem_map, Prod.mk.injEq, Prod.exists]
  constructor
  · rintro ⟨name', i, hmem, rfl, rfl⟩
    exact ⟨i, List.mk_mem_zipIdx_iff_getElem?.1 hmem, rfl⟩
  · rintro ⟨i, hi, rfl⟩
    exact ⟨name, i, List.mk_mem_zipIdx_iff_getElem?.2 hi, rfl, rfl⟩

/-- The entries of a table with few enough names, all of them different, are its ids. -/
theorem mem_entries_iff_id? (hn : t.names.Nodup) (hlen : t.size ≤ 2 ^ 32) :
    (name, id) ∈ t.entries ↔ t.id? name = some id := by
  rw [mem_entries_iff, id?_eq_some_iff hn hlen, name?]
  constructor
  · rintro ⟨i, hi, rfl⟩
    have hlt := (List.getElem?_eq_some_iff.1 hi).1
    rwa [toNat_toUInt32_of_lt (hlt.trans_le hlen)]
  · intro hid
    exact ⟨id.toNat, hid, by simp⟩

/-- Tables with few enough names, all of them different, agree only if they are equal. -/
theorem agrees_iff {s : SymbolTable} (hn : t.names.Nodup) (hlen : t.size ≤ 2 ^ 32) :
    s.agrees t = true ↔ s = t := by
  have hentries : s.agrees t = true ↔
      s.size = t.size ∧ ∀ name id, (name, id) ∈ s.entries → t.id? name = some id := by
    simp only [agrees, Bool.and_eq_true, beq_iff_eq, List.all_eq_true, Prod.forall]
  rw [hentries]
  constructor
  · rintro ⟨hsize, hall⟩
    obtain ⟨names⟩ := s
    obtain ⟨names'⟩ := t
    congr 1
    refine List.ext_getElem hsize fun i hi hi' => ?_
    have hid := hall _ _ (mem_entries_iff.2 ⟨i, List.getElem?_eq_getElem hi, rfl⟩)
    rw [id?_eq_some_iff hn hlen, name?, toNat_toUInt32_of_lt (hi'.trans_le hlen)] at hid
    exact (List.getElem?_eq_some_iff.1 hid).2.symm
  · rintro rfl
    exact ⟨rfl, fun name id hmem => (mem_entries_iff_id? hn hlen).1 hmem⟩

end SymbolTable

theorem Interned.intern_eq {t : SymbolTable} {name : String} {id : RuleId} {names' : List String}
    (h : Interned t.names name id names') : t.intern name = (id, ⟨names'⟩) := by
  have hnames := h.names_eq
  by_cases hmem : name ∈ t.names
  · rw [if_pos hmem] at hnames
    subst hnames
    exact SymbolTable.intern_of_mem (SymbolTable.id?_eq_some_of_toNat_eq hmem h.toNat_id)
  · have hid := h.toNat_eq_length hmem
    rw [if_neg hmem] at hnames
    rw [SymbolTable.intern_of_not_mem (SymbolTable.id?_eq_none_iff.2 hmem), SymbolTable.push,
      ← hnames, SymbolTable.nextId, SymbolTable.size, ← hid]
    simp

theorem exists_interned {names : List String} (hlen : names.length < 2 ^ 32) (name : String) :
    ∃ id names', Interned names name id names' := by
  refine ⟨(List.idxOf name (if name ∈ names then names else names ++ [name])).toUInt32, _, rfl, ?_⟩
  rw [toNat_toUInt32_of_lt]
  refine lt_of_le_of_lt ?_ hlen
  split
  · exact List.idxOf_le_length
  · rename_i hmem
    rw [List.idxOf_append_of_notMem hmem]
    simp

theorem exists_interned_of_mem {names : List String} (hlen : names.length ≤ 2 ^ 32) {name : String}
    (hmem : name ∈ names) : ∃ id, Interned names name id names :=
  ⟨(names.idxOf name).toUInt32, (if_pos hmem).symm,
    toNat_toUInt32_of_lt ((List.idxOf_lt_length_iff.2 hmem).trans_le hlen)⟩

/-! ### Generated names -/

theorem marked_append (base mark : String) (n : ℕ) :
    marked (base ++ mark) mark n = marked base mark (n + 1) := by
  induction n with
  | zero => rfl
  | succ n ih =>
    rw [marked, ih]
    rfl

theorem length_marked (base mark : String) (n : ℕ) :
    (marked base mark n).length = base.length + n * mark.length := by
  induction n with
  | zero => simp [marked]
  | succ n ih => rw [marked, String.length_append, ih]; ring

theorem marked_injective (base : String) {mark : String} (hmark : mark.length ≠ 0) :
    Function.Injective (marked base mark) := by
  intro m n h
  have hlen := congrArg String.length h
  rw [length_marked, length_marked, Nat.add_left_cancel_iff] at hlen
  exact Nat.eq_of_mul_eq_mul_right (Nat.pos_of_ne_zero hmark) hlen

/-- Of more candidates than there are names, one is new. -/
theorem exists_marked_notMem (names : List String) (base : String) {mark : String}
    (hmark : mark.length ≠ 0) : ∃ n ≤ names.length, marked base mark n ∉ names := by
  by_contra hall
  push Not at hall
  -- the candidates are all different, so there would be more of them than names
  have hsub : (Finset.range (names.length + 1)).image (marked base mark) ⊆ names.toFinset := by
    intro name hname
    obtain ⟨n, hn, rfl⟩ := Finset.mem_image.1 hname
    exact List.mem_toFinset.2 (hall n (Nat.lt_succ_iff.1 (Finset.mem_range.1 hn)))
  have hcard := Finset.card_le_card hsub
  rw [Finset.card_image_of_injective _ (marked_injective base hmark), Finset.card_range] at hcard
  exact absurd (hcard.trans names.toFinset_card_le) (by omega)

/-- If all candidates before one are names, there are no more of them than names. -/
theorem le_length_of_marked_mem {names : List String} {base mark : String} {n : ℕ}
    (hmark : mark.length ≠ 0) (hmem : ∀ m < n, marked base mark (m + 1) ∈ names) :
    n ≤ names.length := by
  obtain ⟨m, hm, hnotMem⟩ := exists_marked_notMem names (base ++ mark) hmark
  rw [marked_append] at hnotMem
  by_contra hlt
  exact hnotMem (hmem m (by omega))

/-- The trials that are made find the first candidate that is new. -/
theorem SymbolTable.firstFree_eq_marked {taken : List String} {base mark : String} {n : ℕ}
    (hfree : marked base mark n ∉ taken) (hleast : ∀ m < n, marked base mark m ∈ taken)
    {trials : ℕ} (htrials : n ≤ trials) :
    firstFree taken mark trials base = marked base mark n := by
  induction trials generalizing base n with
  | zero =>
    obtain rfl : n = 0 := by omega
    rfl
  | succ trials ih =>
    cases n with
    | zero => simp only [firstFree, marked, List.contains_iff_mem] at hfree ⊢; rw [if_neg hfree]
    | succ n =>
      have hbase : base ∈ taken := hleast 0 (by omega)
      rw [firstFree, if_pos (List.contains_iff_mem.2 hbase), ih ?_ ?_ (by omega : n ≤ trials),
        marked_append]
      · rwa [marked_append]
      · intro m hm
        rw [marked_append]
        exact hleast (m + 1) (by omega)

theorem length_mark_ne_zero (id : ℕ) : ("_" ++ toString id).length ≠ 0 := by
  rw [String.length_append]
  simp

namespace Generated

variable {names names' : List String} {base : String} {id : RuleId}

theorem exists_append (h : Generated names base id names') :
    ∃ name, names' = names ++ [name] ∧ name ∉ names := by
  obtain ⟨n, hnames, hfree, -⟩ := h.name
  exact ⟨_, hnames, hfree⟩

theorem isPrefix (h : Generated names base id names') : names <+: names' := by
  obtain ⟨name, rfl, -⟩ := h.exists_append
  exact List.prefix_append _ _

theorem length_eq (h : Generated names base id names') : names'.length = names.length + 1 := by
  obtain ⟨name, rfl, -⟩ := h.exists_append
  simp

theorem nodup (h : Generated names base id names') (hn : names.Nodup) : names'.Nodup := by
  obtain ⟨name, rfl, hname⟩ := h.exists_append
  exact List.nodup_append.2 ⟨hn, List.nodup_singleton _, by grind⟩

/-- Ids are given out one after the other. -/
theorem eq_of_toNat_eq_length (h : Generated names base id names') {k : RuleId}
    (hk : k.toNat = names.length) : k = id :=
  UInt32.toNat_inj.1 (hk.trans h.toNat_id.symm)

theorem fresh_eq {t : SymbolTable} (h : Generated t.names base id names') :
    t.fresh base = (id, ⟨names'⟩) := by
  have hid : t.nextId = id := by
    rw [SymbolTable.nextId, SymbolTable.size, ← h.toNat_id]
    simp
  obtain ⟨n, hnames, hfree, hleast⟩ := h.name
  -- the trials that the table makes are enough
  have hn : n ≤ t.size := le_length_of_marked_mem (length_mark_ne_zero id.toNat) hleast
  have hname : t.freshName base = marked base ("_" ++ toString id.toNat) (n + 1) := by
    rw [SymbolTable.freshName, hid, ← marked_append]
    refine SymbolTable.firstFree_eq_marked ?_ ?_ hn
    · rwa [marked_append]
    · intro m hm
      rw [marked_append]
      exact hleast m hm
  rw [SymbolTable.fresh, hid, hname, SymbolTable.push, ← hnames]

end Generated

theorem exists_generated {names : List String} (hlen : names.length < 2 ^ 32) (base : String) :
    ∃ id names', Generated names base id names' := by
  classical
  have hid : names.length.toUInt32.toNat = names.length := toNat_toUInt32_of_lt hlen
  have hfree : ∃ n, marked base ("_" ++ toString names.length) (n + 1) ∉ names := by
    obtain ⟨n, -, hn⟩ := exists_marked_notMem names (base ++ ("_" ++ toString names.length))
      (length_mark_ne_zero names.length)
    rw [marked_append] at hn
    exact ⟨n, hn⟩
  refine ⟨names.length.toUInt32, _, hid, Nat.find hfree, rfl, ?_, ?_⟩
  · rw [hid]
    exact Nat.find_spec hfree
  · intro m hm
    rw [hid]
    exact not_not.1 (Nat.find_min hfree hm)

/-! ### Tables that grow -/

theorem getElem?_eq_of_isPrefix {names names' : List String} (h : names <+: names') {i : ℕ}
    (hi : i < names.length) : names'[i]? = names[i]? := by
  obtain ⟨more, rfl⟩ := h
  exact List.getElem?_append_left hi

theorem getElem?_eq_some_of_isPrefix {names names' : List String} (h : names <+: names') {i : ℕ}
    {name : String} (hname : names[i]? = some name) : names'[i]? = some name :=
  (getElem?_eq_of_isPrefix h (List.getElem?_eq_some_iff.1 hname).1).trans hname

namespace SymbolTable

variable {t : SymbolTable}

theorem toNat_nextId (hsize : t.size < 2 ^ 32) : t.nextId.toNat = t.size :=
  toNat_toUInt32_of_lt hsize

theorem le_size_intern (t : SymbolTable) (name : String) : t.size ≤ (t.intern name).2.size := by
  unfold intern
  split
  · exact le_rfl
  · rw [size_push]
    exact Nat.le_succ _

theorem size_intern_le (t : SymbolTable) (name : String) :
    (t.intern name).2.size ≤ t.size + 1 := by
  unfold intern
  split
  · exact Nat.le_succ _
  · rw [size_push]

/-- If the ids suffice when a name was interned, it has an id of its own. -/
theorem exists_interned {name : String} (hsize : (t.intern name).2.size ≤ 2 ^ 32) :
    ∃ id names', Interned t.names name id names' := by
  by_cases hmem : name ∈ t.names
  · obtain ⟨id, hid⟩ := exists_interned_of_mem ((t.le_size_intern name).trans hsize) hmem
    exact ⟨id, _, hid⟩
  · rw [intern_of_not_mem (id?_eq_none_iff.2 hmem), size_push] at hsize
    exact EbnfTables.exists_interned hsize name

theorem interned_intern {name : String} (hsize : (t.intern name).2.size ≤ 2 ^ 32) :
    Interned t.names name (t.intern name).1 (t.intern name).2.names := by
  obtain ⟨id, names', h⟩ := exists_interned hsize
  rw [h.intern_eq]
  exact h

theorem freshName_notMem (hsize : t.size < 2 ^ 32) (base : String) :
    t.freshName base ∉ t.names := by
  obtain ⟨id, names', h⟩ := exists_generated hsize base
  obtain ⟨name, rfl, hname⟩ := h.exists_append
  have hpush : t.push (t.freshName base) = ⟨t.names ++ [name]⟩ := congrArg Prod.snd h.fresh_eq
  have hnames : t.names ++ [t.freshName base] = t.names ++ [name] := SymbolTable.mk.inj hpush
  rwa [List.singleton_inj.1 (List.append_cancel_left hnames)]

/-- A generated name is added as a written name would be. -/
theorem fresh_eq_intern (hsize : t.size < 2 ^ 32) (base : String) :
    t.fresh base = t.intern (t.freshName base) := by
  rw [intern_of_not_mem (id?_eq_none_iff.2 (freshName_notMem hsize base)), fresh]

end SymbolTable

end EbnfTables
