import EbnfTables.Element
import EbnfTables.Text.Order

/-!
# Symbol tables

The names of the rules, in the order in which they were first seen.  The id of a name is its
place in that order, so ids are dense and an id never changes once it is given.

* `SymbolTable.intern` finds a name or appends it;
* `SymbolTable.fresh` appends a generated name `base_id`, with `_id` repeated until the name is new;
* `SymbolTable.entries` lists the names with their ids, `SymbolTable.sorted` by name;
* `SymbolTable.agrees` compares two tables as maps from names to ids.
-/

namespace EbnfTables

/-- Rule names in the order of their ids. -/
structure SymbolTable where
  names : List String
  deriving DecidableEq

namespace SymbolTable

/-- The table without names. -/
def empty : SymbolTable := ⟨[]⟩

/-- The number of names. -/
def size (t : SymbolTable) : Nat := t.names.length

/-- The id of a name that is present. -/
def id? (t : SymbolTable) (name : String) : Option RuleId :=
  (t.names.idxOf? name).map Nat.toUInt32

/-- The name with the given id. -/
def name? (t : SymbolTable) (id : RuleId) : Option String :=
  t.names[id.toNat]?

/-- The id that the next new name receives. -/
def nextId (t : SymbolTable) : RuleId := t.size.toUInt32

/-- The table with one more name at its end. -/
def push (t : SymbolTable) (name : String) : SymbolTable := ⟨t.names ++ [name]⟩

/-- The id of a name, which is added if it is not present. -/
def intern (t : SymbolTable) (name : String) : RuleId × SymbolTable :=
  match t.id? name with
  | some id => (id, t)
  | none => (t.nextId, t.push name)

theorem intern_of_mem {t : SymbolTable} {name : String} {id : RuleId} (h : t.id? name = some id) :
    t.intern name = (id, t) := by
  unfold intern; rw [h]

theorem intern_of_not_mem {t : SymbolTable} {name : String} (h : t.id? name = none) :
    t.intern name = (t.nextId, t.push name) := by
  unfold intern; rw [h]

@[simp] theorem size_push (t : SymbolTable) (name : String) : (t.push name).size = t.size + 1 := by
  simp [push, size]

/-! ### Generated names -/

/-- The first of `name`, `name ++ mark`, `name ++ mark ++ mark`, … that is not in `taken`, among the
first `n`; the one after these if all are. -/
def firstFree (taken : List String) (mark : String) : Nat → String → String
  | 0, name => name
  | n + 1, name => if taken.contains name then firstFree taken mark n (name ++ mark) else name

/-- A name for the next id that is made from `base` and is not present.  As many trials as there
are names always suffice. -/
def freshName (t : SymbolTable) (base : String) : String :=
  let mark := "_" ++ toString t.nextId.toNat
  firstFree t.names mark t.size (base ++ mark)

/-- Adds a generated name. -/
def fresh (t : SymbolTable) (base : String) : RuleId × SymbolTable :=
  (t.nextId, t.push (t.freshName base))

@[simp] theorem size_fresh (t : SymbolTable) (base : String) :
    (t.fresh base).2.size = t.size + 1 :=
  t.size_push _

/-! ### Enumeration -/

/-- The names with their ids, in the order of the ids. -/
def entries (t : SymbolTable) : List (String × RuleId) :=
  t.names.zipIdx.map fun (name, i) => (name, i.toUInt32)

/-- The names with their ids, in the order of the names. -/
def sorted (t : SymbolTable) : List (String × RuleId) :=
  t.entries.mergeSort fun a b => Text.precedes a.1 b.1

/-- Two tables agree if they give the same ids to the same names. -/
def agrees (s t : SymbolTable) : Bool :=
  s.size == t.size && s.entries.all fun (name, id) => t.id? name == some id

end SymbolTable

end EbnfTables
