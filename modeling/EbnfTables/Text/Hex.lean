/-!
# Hexadecimal numbers

Numbers are read with digits of either case, and written with capital letters: with as many
digits as asked, or with as few as possible.
-/

namespace EbnfTables.Text

/-- The value of a hexadecimal digit. -/
def hexValue? (c : Char) : Option Nat :=
  let n := c.toNat
  if 48 ≤ n ∧ n ≤ 57 then some (n - 48)
  else if 65 ≤ n ∧ n ≤ 70 then some (n - 55)
  else if 97 ≤ n ∧ n ≤ 102 then some (n - 87)
  else none

/-- Reads exactly `width` digits and appends them to those of `value`. -/
def readHex? : (width value : Nat) → List Char → Option (Nat × List Char)
  | 0, value, cs => some (value, cs)
  | _ + 1, _, [] => none
  | width + 1, value, c :: cs =>
    match hexValue? c with
    | none => none
    | some d => readHex? width (16 * value + d) cs

theorem readHex?_suffix {width value n : Nat} {cs rest : List Char}
    (h : readHex? width value cs = some (n, rest)) : rest <:+ cs := by
  fun_induction readHex? width value cs with
  | case1 => simp_all
  | case2 => simp at h
  | case3 => simp at h
  | case4 width value c cs d _ ih => exact (ih h).trans (List.suffix_cons c cs)

/-- The digit of a value below sixteen. -/
def hexDigit (n : Nat) : Char := (Nat.digitChar n).toUpper

/-- The last `width` digits of a number. -/
def hexDigits : (width n : Nat) → List Char
  | 0, _ => []
  | width + 1, n => hexDigits width (n / 16) ++ [hexDigit (n % 16)]

/-- A number with as few digits as possible. -/
def hexText (n : Nat) : String := String.ofList ((Nat.toDigits 16 n).map Char.toUpper)

end EbnfTables.Text
