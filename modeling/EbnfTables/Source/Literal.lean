import EbnfTables.Source.Character

/-!
# Literals

A literal is a row of characters between double quotes.  It may be empty.
-/

namespace EbnfTables

/-- Reads the characters of a literal and its closing quote.  A literal without one is refused
where it was opened, at `site`. -/
def readLiteral (site cs : List Char) : Except Fault (List Char × List Char) :=
  match cs with
  | [] => .error ⟨.unterminatedLiteral, site⟩
  | c :: cs' =>
    if c = '"' then .ok ([], cs')
    else
      match _h : readChar (c :: cs') with
      | .error e => .error ⟨e, c :: cs'⟩
      | .ok (d, rest) =>
        match readLiteral site rest with
        | .error fault => .error fault
        | .ok (ds, rest') => .ok (d :: ds, rest')
termination_by cs.length
decreasing_by exact (readChar_remains _h).length_lt

theorem readLiteral_remains {site cs rest : List Char} {ds : List Char}
    (h : readLiteral site cs = .ok (ds, rest)) : Text.Remains rest cs := by
  fun_induction readLiteral site cs generalizing ds rest with
  | case1 => cases h
  | case2 => cases h; exact .tail
  | case3 => cases h
  | case4 => cases h
  | case5 c cs' _ d after hread ds' rest' hrest ih =>
    cases h
    exact (ih hrest).trans (readChar_remains hread)

end EbnfTables
