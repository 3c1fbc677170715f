/-!
# Blanks and comments

Between the parts of a grammar there may be blanks and comments.  A comment goes from `#` to the
end of its line and leaves the line break in place.  Line breaks are blanks only where a
definition cannot end: `Spacing` tells the two situations apart.
-/

namespace EbnfTables

/-- Which characters separate the parts of a grammar. -/
inductive Spacing
  /-- Spaces and tabs. -/
  | sameLine
  /-- Spaces, tabs and line breaks. -/
  | anyLine
  deriving DecidableEq

/-- The two characters that break a line. -/
def isLineBreak (c : Char) : Bool := c == '\r' || c == '\n'

namespace Spacing

/-- The blanks of a spacing. -/
def isBlank : Spacing → Char → Bool
  | sameLine, c => c == ' ' || c == '\t'
  | anyLine, c => c == ' ' || c == '\t' || isLineBreak c

/-- Skips blanks and comments; the flag says whether the text starts inside a comment. -/
def skipFrom (s : Spacing) : Bool → List Char → List Char
  | _, [] => []
  | false, c :: cs =>
    if s.isBlank c then s.skipFrom false cs
    else if c = '#' then s.skipFrom true cs
    else c :: cs
  | true, c :: cs =>
    if isLineBreak c then
      if s.isBlank c then s.skipFrom false cs else c :: cs
    else s.skipFrom true cs

/-- What follows the blanks and comments at the start of a text. -/
def skip (s : Spacing) (cs : List Char) : List Char := s.skipFrom false cs

theorem skipFrom_suffix (s : Spacing) (inComment : Bool) (cs : List Char) :
    s.skipFrom inComment cs <:+ cs := by
  fun_induction skipFrom s inComment cs with
  | case1 => exact List.suffix_rfl
  | case2 c cs _ ih => exact ih.trans (List.suffix_cons c cs)
  | case3 cs _ ih => exact ih.trans (List.suffix_cons _ cs)
  | case4 => exact List.suffix_rfl
  | case5 c cs _ _ ih => exact ih.trans (List.suffix_cons c cs)
  | case6 => exact List.suffix_rfl
  | case7 c cs _ ih => exact ih.trans (List.suffix_cons c cs)

theorem skip_suffix (s : Spacing) (cs : List Char) : s.skip cs <:+ cs :=
  s.skipFrom_suffix false cs

end Spacing

end EbnfTables
