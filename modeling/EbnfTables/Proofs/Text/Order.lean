import EbnfTables.Text.Order
import Mathlib.Data.String.Basic

/-!
# The order of names

Names are compared by their code points.  This is the order of strings (`compareNames_eq_compare`),
and it is also the order of their UTF-8 bytes (`bytes_lt_iff`): the bytes of two characters differ
before the shorter of them ends, and there the smaller character has the smaller byte.
-/

namespace EbnfTables.Text

/-! ### The order of strings -/

theorem compareChars_eq_lt_iff {as bs : List Char} : compareChars as bs = .lt ↔ as < bs := by
  induction as generalizing bs with
  | nil => cases bs <;> simp [compareChars]
  | cons a as ih =>
    cases bs with
    | nil => simp [compareChars]
    | cons b bs =>
      have hlt : a < b ↔ a.toNat < b.toNat := Iff.rfl
      rw [List.cons_lt_cons_iff, hlt]
      unfold compareChars
      split
      · rename_i h
        simp [h]
      · rename_i h
        split
        · rename_i h'
          have hne : a ≠ b := by
            rintro rfl
            exact h h'
          simp [h, hne]
        · have hab : a = b := Char.toNat_inj.1 (by omega)
          simp [hab, ih]

theorem compareChars_swap (as bs : List Char) : (compareChars as bs).swap = compareChars bs as := by
  induction as generalizing bs with
  | nil => cases bs <;> rfl
  | cons a as ih =>
    cases bs with
    | nil => rfl
    | cons b bs =>
      unfold compareChars
      split_ifs
      · omega
      · rfl
      · rfl
      · exact ih bs

theorem compareNames_eq_compare (a b : String) : compareNames a b = compare a b := by
  cases h : compareNames a b with
  | lt => exact (compare_lt_iff_lt.2 (String.lt_iff_toList_lt.2 (compareChars_eq_lt_iff.1 h))).symm
  | eq => exact (compare_eq_iff_eq.2 (String.toList_inj.1 (compareChars_eq_iff.1 h))).symm
  | gt =>
    have hswap : compareChars b.toList a.toList = .lt := by
      rw [← compareChars_swap]
      exact congrArg Ordering.swap h
    exact (compare_gt_iff_gt.2 (String.lt_iff_toList_lt.2 (compareChars_eq_lt_iff.1 hswap))).symm

theorem precedes_iff {a b : String} : precedes a b = true ↔ a ≤ b := by
  rw [precedes, compareNames_eq_compare, bne_iff_ne, compare_le_iff_le]

/-! ### The order of bytes -/

/-- The UTF-8 form of a name. -/
def bytes (name : String) : List UInt8 := name.toByteArray.data.toList

theorem bytes_eq_flatMap (name : String) :
    bytes name = name.toList.flatMap String.utf8EncodeChar := by
  conv_lhs => rw [← String.ofList_toList (s := name), bytes]
  rw [String.toByteArray_ofList, List.utf8Encode, List.data_toByteArray]

theorem ofNat_lt_ofNat_iff {m n : ℕ} (hm : m < 256) (hn : n < 256) :
    UInt8.ofNat m < UInt8.ofNat n ↔ m < n := by
  rw [UInt8.lt_iff_toNat_lt, UInt8.toNat_ofNat', UInt8.toNat_ofNat', Nat.mod_eq_of_lt hm,
    Nat.mod_eq_of_lt hn]

theorem ofNat_eq_ofNat_iff {m n : ℕ} (hm : m < 256) (hn : n < 256) :
    UInt8.ofNat m = UInt8.ofNat n ↔ m = n := by
  rw [← UInt8.toNat_inj, UInt8.toNat_ofNat', UInt8.toNat_ofNat', Nat.mod_eq_of_lt hm,
    Nat.mod_eq_of_lt hn]

/-- The bytes of a smaller character come first, whatever follows. -/
theorem utf8EncodeChar_append_lt {a b : Char} (h : a < b) (x y : List UInt8) :
    String.utf8EncodeChar a ++ x < String.utf8EncodeChar b ++ y := by
  have hlt : a.val.toNat < b.val.toNat := h
  have hbound : b.val.toNat < 0x110000 := by
    have hvalid : b.val.toNat < 0xd800 ∨ 0xdfff < b.val.toNat ∧ b.val.toNat < 0x110000 := b.valid
    omega
  unfold String.utf8EncodeChar
  generalize a.val.toNat = m at hlt
  generalize b.val.toNat = n at hlt hbound
  -- how the digits of the two numbers to the base 64 are found in one another
  have hm : m / 64 / 64 = m / 4096 ∧ m / 4096 / 64 = m / 262144 ∧
    m / 262144 % 8 = m / 262144 := by omega
  have hn : n / 64 / 64 = n / 4096 ∧ n / 4096 / 64 = n / 262144 ∧
    n / 262144 % 8 = n / 262144 := by omega
  simp only
  split_ifs <;>
    simp (disch := omega) only [List.cons_append, List.nil_append, List.cons_lt_cons_iff,
      ofNat_lt_ofNat_iff, ofNat_eq_ofNat_iff] <;>
    omega

theorem flatMap_utf8EncodeChar_lt {as bs : List Char} (h : as < bs) :
    as.flatMap String.utf8EncodeChar < bs.flatMap String.utf8EncodeChar := by
  induction as generalizing bs with
  | nil =>
    cases bs with
    | nil => exact absurd h (List.not_lt_nil [])
    | cons b bs =>
      have hlength : 0 < (String.utf8EncodeChar b).length := by
        rw [String.length_utf8EncodeChar]
        exact b.utf8Size_pos
      obtain ⟨x, xs, hx⟩ := List.exists_cons_of_length_pos hlength
      rw [List.flatMap_nil, List.flatMap_cons, hx]
      exact List.nil_lt_cons x _
  | cons a as ih =>
    cases bs with
    | nil => exact absurd h (List.not_lt_nil _)
    | cons b bs =>
      rw [List.flatMap_cons, List.flatMap_cons]
      rcases List.cons_lt_cons_iff.1 h with hab | ⟨rfl, hrest⟩
      · exact utf8EncodeChar_append_lt hab _ _
      · exact List.append_left_lt (ih hrest)

/-- The order of names is the order of their bytes. -/
theorem bytes_lt_iff {a b : String} : bytes a < bytes b ↔ a < b := by
  have hmono {s t : String} (h : s < t) : bytes s < bytes t := by
    rw [bytes_eq_flatMap, bytes_eq_flatMap]
    exact flatMap_utf8EncodeChar_lt (String.lt_iff_toList_lt.1 h)
  refine ⟨fun h => ?_, hmono⟩
  rcases lt_trichotomy a b with hab | rfl | hba
  · exact hab
  · exact absurd h (List.lt_irrefl _)
  · exact absurd h (List.lt_asymm (hmono hba))

end EbnfTables.Text
