/-!
# Positions in a text

A boundary between two characters of a text is described by what stands before it.

* `Position.after` measures the text before a boundary: its length in UTF-8 bytes, the number of
  its lines, and the number of characters on its last line, the latter two counted from one;
* `Position.locate?` finds the boundary at a byte offset.  An offset past the end stands for the
  end, and an offset inside a character is no boundary.
-/

namespace EbnfTables

namespace Text

/-- The number of bytes in the UTF-8 form of a text. -/
def byteLength : List Char → Nat
  | [] => 0
  | c :: cs => c.utf8Size + byteLength cs

@[simp] theorem byteLength_nil : byteLength [] = 0 := rfl

@[simp] theorem byteLength_cons (c : Char) (cs : List Char) :
    byteLength (c :: cs) = c.utf8Size + byteLength cs := rfl

@[simp] theorem byteLength_append (as bs : List Char) :
    byteLength (as ++ bs) = byteLength as + byteLength bs := by
  induction as with
  | nil => simp
  | cons a as ih => simp [ih, Nat.add_assoc]

/-- The characters whose UTF-8 form fills exactly the first `n` bytes of a text; the whole text if
it is not that long; nothing if the count ends inside a character. -/
def takeBytes? : Nat → List Char → Option (List Char)
  | 0, _ => some []
  | _ + 1, [] => some []
  | n + 1, c :: cs =>
    if c.utf8Size ≤ n + 1 then (takeBytes? (n + 1 - c.utf8Size) cs).map (c :: ·) else none

end Text

/-- A place in a text, by bytes and by line and column. -/
structure Position where
  offset : Nat
  line : Nat
  column : Nat
  deriving DecidableEq

namespace Position

/-- The place behind a text. -/
def after (before : List Char) : Position where
  offset := Text.byteLength before
  line := before.count '\n' + 1
  column := (before.reverse.takeWhile (· != '\n')).length + 1

/-- The boundary at a byte offset. -/
def locate? (text : List Char) (offset : Nat) : Option Position :=
  (Text.takeBytes? offset text).map after

/-- How a position is told. -/
def describe (p : Position) : String :=
  "line " ++ toString p.line ++ ", column " ++ toString p.column

end Position

end EbnfTables
