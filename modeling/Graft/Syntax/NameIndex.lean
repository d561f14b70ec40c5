import Graft.Syntax.Names

/-!
# Names with an index

A table of names that finds the symbol of a name without going through the names. It keeps what it
knows twice: the names in the order of their symbols, and the symbol beside each name. Both parts
are written when a name is mentioned for the first time, and neither ever again.
-/

namespace Graft

/-- Names in the order of their symbols, and the symbol of each of them. -/
structure NameIndex where
  spellings : Array String
  symbols : List (String × Sym)
deriving Repr, DecidableEq

namespace NameIndex

/-- No names. -/
def empty : NameIndex := ⟨#[], []⟩

/-- How many names there are. -/
def size (index : NameIndex) : Nat :=
  index.spellings.size

def isEmpty (index : NameIndex) : Bool :=
  index.spellings.isEmpty

/-- The symbol of a name that has been mentioned before. -/
def lookup (index : NameIndex) (name : String) : Option Sym :=
  index.symbols.lookup name

/-- The name of a symbol, if it has one. -/
def text? (index : NameIndex) (sym : Sym) : Option String :=
  index.spellings[sym]?

/-- The symbol of a name, a new one at its first mention. -/
def intern (index : NameIndex) (name : String) : Sym × NameIndex :=
  match index.lookup name with
  | some sym => (sym, index)
  | none =>
    let sym := index.size
    (sym, ⟨index.spellings.push name, (name, sym) :: index.symbols⟩)

/-- The names without the index. -/
def names (index : NameIndex) : Names :=
  ⟨index.spellings⟩

theorem lookup_push (spellings : Array String) (symbols : List (String × Sym)) (new : String)
    (sym : Sym) (name : String) :
    lookup ⟨spellings, (new, sym) :: symbols⟩ name =
      if name = new then some sym else symbols.lookup name := by
  by_cases h : name = new
  · rw [lookup, if_pos h, h, List.lookup_cons_self]
  · rw [lookup, if_neg h, List.lookup_cons, beq_false_of_ne h]

end NameIndex

end Graft
