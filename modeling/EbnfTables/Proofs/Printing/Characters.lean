import EbnfTables.Grammar.Printer
import EbnfTables.Proofs.Source.Lexical

/-!
# Printed characters read back

Inside a class a character is printed so that reading gives it back, whatever follows
(`readChar_printClassChar`), and so that its first sign is not taken for a sign of the class
(`exists_printClassChar_eq_cons`).

The numeric escapes are only needed for control characters, and these have two digits.
-/

namespace EbnfTables

namespace Text

theorem hexValue?_hexDigit {n : ℕ} (h : n < 16) : hexValue? (hexDigit n) = some n := by
  have hall : ∀ n : Fin 16, hexValue? (hexDigit n) = some n.val := by decide
  exact hall ⟨n, h⟩

theorem readHex?_hexDigits_two {n : ℕ} (h : n < 256) (rest : List Char) :
    readHex? 2 0 (hexDigits 2 n ++ rest) = some (n, rest) := by
  have hhigh := hexValue?_hexDigit (show n / 16 % 16 < 16 by omega)
  have hlow := hexValue?_hexDigit (show n % 16 < 16 by omega)
  simp only [hexDigits, List.nil_append, List.cons_append, readHex?, hhigh, hlow]
  rw [show 16 * (16 * 0 + n / 16 % 16) + n % 16 = n by omega]

end Text

theorem le_0xFF_of_isControl {n : ℕ} (h : isControl n) : n ≤ 0xFF := by
  rw [isControl, Bool.or_eq_true, Bool.and_eq_true, decide_eq_true_eq, decide_eq_true_eq,
    decide_eq_true_eq] at h
  omega

/-- What is printed for a character, without the cases that no character leads to. -/
theorem printClassChar_val (c : Char) :
    printClassChar c.val =
      if c = '\n' then ['\\', 'n']
      else if c = '\r' then ['\\', 'r']
      else if c = '\t' then ['\\', 't']
      else if c = '\\' ∨ c = '[' ∨ c = ']' ∨ c = '-' ∨ c = '"' then ['\\', c]
      else if c = '^' then ['\\', 'x', '5', 'E']
      else if isControl c.toNat = false then [c]
      else '\\' :: 'x' :: Text.hexDigits 2 c.toNat := by
  have heq (d : Char) : c.val.toNat = d.toNat ↔ c = d := Char.toNat_inj
  have hlf : c.val.toNat = 0x0A ↔ c = '\n' := heq '\n'
  have hcr : c.val.toNat = 0x0D ↔ c = '\r' := heq '\r'
  have htab : c.val.toNat = 0x09 ↔ c = '\t' := heq '\t'
  have hvalid : c.val.toNat.isValidChar := c.valid
  have hc : Char.ofNat c.val.toNat = c := c.ofNat_toNat
  have hcontrol : ¬ isControl c.val.toNat = false → c.val.toNat ≤ 0xFF := fun h =>
    le_0xFF_of_isControl (by simpa using h)
  unfold printClassChar
  simp only [hc, heq, hlf, hcr, htab, hvalid, true_and]
  by_cases h : isControl c.val.toNat = false
  · simp only [if_pos h, show c.toNat = c.val.toNat from rfl]
  · simp only [if_neg h, if_pos (hcontrol h), show c.toNat = c.val.toNat from rfl]

/-- A printed character reads back, whatever follows. -/
theorem readChar_printClassChar (c : Char) (rest : List Char) :
    readChar (printClassChar c.val ++ rest) = .ok (c, rest) := by
  rw [printClassChar_val]
  split_ifs with hlf hcr htab hsigns hcaret hcontrol
  · rw [hlf]
    rfl
  · rw [hcr]
    rfl
  · rw [htab]
    rfl
  · rcases hsigns with rfl | rfl | rfl | rfl | rfl <;> rfl
  · rw [hcaret]
    rfl
  · have hne : c ≠ '\\' := fun h => hsigns (.inl h)
    rw [List.singleton_append, readChar, if_neg hne]
  · -- a control character, with two digits
    have hle := le_0xFF_of_isControl (by simpa using hcontrol)
    have hvalid : c.toNat.isValidChar := c.valid
    have hread := Text.readHex?_hexDigits_two (show c.toNat < 256 by omega) rest
    have hx : shortEscape? 'x' = none := rfl
    have hwidth : escapeWidth? 'x' = some 2 := rfl
    rw [List.cons_append, List.cons_append, readChar, if_pos rfl, readEscape, hx, hwidth]
    simp only [Option.bind_some, hread, if_pos hvalid, c.ofNat_toNat]

/-- A printed character does not start with a sign that means something in a class. -/
theorem exists_printClassChar_eq_cons (c : Char) :
    ∃ d ds, printClassChar c.val = d :: ds ∧ d ≠ ']' ∧ d ≠ '-' ∧ d ≠ '^' := by
  rw [printClassChar_val]
  split_ifs with h1 h2 h3 hsigns hcaret hcontrol
  all_goals first
    | exact ⟨_, _, rfl, by decide, by decide, by decide⟩
    | refine ⟨c, [], rfl, ?_, ?_, hcaret⟩
  · exact fun h => hsigns (.inr (.inr (.inl h)))
  · exact fun h => hsigns (.inr (.inr (.inr (.inl h))))

end EbnfTables
