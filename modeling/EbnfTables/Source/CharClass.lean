import EbnfTables.Source.Character
import EbnfTables.Source.Expr

/-!
# Character classes

A class is a list of members between brackets; `^` behind the opening bracket negates it.  After a
single member, `-` makes a range with the character behind it, unless that character is the
closing bracket: then `-` is a member itself.  Behind a range, `-` starts a new member.
-/

namespace EbnfTables

/-- Reads a member of a class. -/
def readMember (cs : List Char) : Except Fault (Member × List Char) :=
  match readChar cs with
  | .error e => .error ⟨e, cs⟩
  | .ok (c, rest) =>
    match rest with
    | [] => .ok (.single c, rest)
    | dash :: behind =>
      if dash = '-' then
        match behind with
        | [] => .error ⟨.malformedRange, rest⟩
        | d :: _ =>
          if d = ']' then .ok (.single c, rest)
          else
            match readChar behind with
            | .error e => .error ⟨e, behind⟩
            | .ok (upper, rest') => .ok (.range c upper, rest')
      else .ok (.single c, rest)

theorem readMember_remains {cs rest : List Char} {m : Member}
    (h : readMember cs = .ok (m, rest)) : Text.Remains rest cs := by
  simp only [readMember] at h
  split at h
  · cases h
  · rename_i c after hread
    have hr := readChar_remains hread
    split at h
    · cases h; exact hr
    · split at h
      · split at h
        · cases h
        · split at h
          · cases h; exact hr
          · split at h
            · cases h
            · rename_i hupper
              cases h
              exact ((readChar_remains hupper).trans .tail).trans hr
      · cases h; exact hr

/-- Reads the members of a class and its closing bracket.  A class without one is refused where it
was opened, at `site`. -/
def readMembers (site cs : List Char) : Except Fault (List Member × List Char) :=
  match cs with
  | [] => .error ⟨.unterminatedClass, site⟩
  | c :: cs' =>
    if c = ']' then .ok ([], cs')
    else
      match _h : readMember (c :: cs') with
      | .error fault => .error fault
      | .ok (m, rest) =>
        match readMembers site rest with
        | .error fault => .error fault
        | .ok (ms, rest') => .ok (m :: ms, rest')
termination_by cs.length
decreasing_by exact (readMember_remains _h).length_lt

theorem readMembers_remains {site cs rest : List Char} {ms : List Member}
    (h : readMembers site cs = .ok (ms, rest)) : Text.Remains rest cs := by
  fun_induction readMembers site cs generalizing ms rest with
  | case1 => cases h
  | case2 => cases h; exact .tail
  | case3 => cases h
  | case4 => cases h
  | case5 c cs' _ m after hread ms' rest' hrest ih =>
    cases h
    exact (ih hrest).trans (readMember_remains hread)

/-- The sign that negates a class, and what follows. -/
def readNegation (cs : List Char) : Bool × List Char :=
  match cs with
  | [] => (false, [])
  | c :: cs' => if c = '^' then (true, cs') else (false, cs)

theorem readNegation_suffix (cs : List Char) : (readNegation cs).2 <:+ cs := by
  cases cs with
  | nil => exact List.suffix_rfl
  | cons c cs =>
    simp only [readNegation]
    split
    · exact List.suffix_cons c cs
    · exact List.suffix_rfl

/-- Reads a class behind its opening bracket. -/
def readClass (site cs : List Char) : Except Fault (Expr .item × List Char) :=
  match readMembers site (readNegation cs).2 with
  | .error fault => .error fault
  | .ok (members, rest) => .ok (.charClass (readNegation cs).1 members, rest)

theorem readClass_remains {site cs rest : List Char} {e : Expr .item}
    (h : readClass site cs = .ok (e, rest)) : Text.Remains rest cs := by
  simp only [readClass] at h
  split at h
  · cases h
  · rename_i hread
    cases h
    exact (readMembers_remains hread).trans_suffix (readNegation_suffix cs)

end EbnfTables
