/-!
# Places in a text

A place is a line and a column, both counted from one. Only the line feed begins a new line; every
other character, whatever its width, takes one column.

* `Place.advance_append` - walking over two texts in turn is walking over both at once
-/

namespace Graft.Text

/-- Where a character of a text stands. -/
structure Place where
  line : Nat
  column : Nat
deriving Repr, DecidableEq, Inhabited

namespace Place

/-- The place of a text's first character. -/
def start : Place := ⟨1, 1⟩

/-- The place behind one character. -/
def next (p : Place) (c : Char) : Place :=
  if c = '\n' then ⟨p.line + 1, 1⟩ else ⟨p.line, p.column + 1⟩

/-- The place behind a run of characters. -/
def advance (p : Place) (cs : List Char) : Place :=
  cs.foldl next p

@[simp] theorem advance_nil (p : Place) : p.advance [] = p := rfl

@[simp] theorem advance_cons (p : Place) (c : Char) (cs : List Char) :
    p.advance (c :: cs) = (p.next c).advance cs := rfl

theorem advance_append (p : Place) (cs ds : List Char) :
    p.advance (cs ++ ds) = (p.advance cs).advance ds := by
  simp [advance]

end Place

end Graft.Text
