import EbnfTables.Element

/-!
# Rule tables

The bodies of the rules, indexed by rule id.  An id can be given out long before its body is
known; until then its slot, if there is one, holds the empty list.  No compiled body is empty.

* `RuleTable.define` stores a body and makes room for it;
* `RuleTable.slot` is what an id holds, `RuleTable.body?` the body of an id that has one.
-/

namespace EbnfTables

/-- Rule bodies in the order of their ids, with an empty list where a body is still missing. -/
structure RuleTable where
  bodies : List Body
  deriving DecidableEq

namespace RuleTable

/-- The table without slots. -/
def empty : RuleTable := ⟨[]⟩

/-- The number of slots. -/
def size (t : RuleTable) : Nat := t.bodies.length

/-- What is stored for an id, the empty list if there is nothing. -/
def slot (t : RuleTable) (id : RuleId) : Body :=
  t.bodies.getD id.toNat []

/-- Whether an id has a body. -/
def isDefined (t : RuleTable) (id : RuleId) : Bool :=
  !(t.slot id).isEmpty

/-- The body of an id that has one. -/
def body? (t : RuleTable) (id : RuleId) : Option Body :=
  if t.isDefined id then some (t.slot id) else none

/-- Stores a body, after as many empty slots as are needed to reach the id. -/
def define (t : RuleTable) (id : RuleId) (body : Body) : RuleTable :=
  ⟨(t.bodies ++ List.replicate (id.toNat + 1 - t.size) []).set id.toNat body⟩

theorem size_define (t : RuleTable) (id : RuleId) (body : Body) :
    (t.define id body).size = max t.size (id.toNat + 1) := by
  simp only [define, size, List.length_set, List.length_append, List.length_replicate]
  omega

@[simp] theorem slot_define_self (t : RuleTable) (id : RuleId) (body : Body) :
    (t.define id body).slot id = body := by
  have h : id.toNat < (t.bodies ++ List.replicate (id.toNat + 1 - t.size) []).length := by
    simp only [size, List.length_append, List.length_replicate]
    omega
  simp only [slot, define, List.getD_eq_getElem?_getD, List.getElem?_set_self h, Option.getD_some]

theorem slot_define_of_ne (t : RuleTable) {id other : RuleId} (body : Body) (h : id ≠ other) :
    (t.define id body).slot other = t.slot other := by
  have hne : id.toNat ≠ other.toNat := fun e => h (UInt32.toNat_inj.1 e)
  simp only [slot, define, List.getD_eq_getElem?_getD, List.getElem?_set_ne hne,
    List.getElem?_append, List.getElem?_replicate]
  split
  · rfl
  · rename_i hlt
    rw [List.getElem?_eq_none (Nat.le_of_not_lt hlt)]
    split <;> rfl

end RuleTable

end EbnfTables
