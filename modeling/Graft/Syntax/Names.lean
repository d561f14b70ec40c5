/-!
# Names and symbols

A script keeps each of its names once and refers to it by a symbol, the name's rank in the order
in which names were first mentioned. Symbols of different scripts mean different names, so a name
that moves from one script to another moves as a text.

* `text_intern` - a symbol means the name that it was made for
* `text_intern_of_lt` - interning a name does not change what earlier symbols mean
* `lookup_eq_some_iff` - the symbol of a name is the first place where the name stands
-/

namespace Graft

/-- A name's rank in its script. -/
abbrev Sym := Nat

/-- The names of one script in the order of their symbols. -/
structure Names where
  spellings : Array String
deriving Repr, DecidableEq

namespace Names

/-- No names. -/
def empty : Names := ⟨#[]⟩

/-- How many names there are. -/
def size (names : Names) : Nat :=
  names.spellings.size

/-- The symbol of a name that has been mentioned before. -/
def lookup (names : Names) (name : String) : Option Sym :=
  names.spellings.findIdx? (· == name)

/-- The name of a symbol, if it has one. -/
def text? (names : Names) (sym : Sym) : Option String :=
  names.spellings[sym]?

/-- The name of a symbol; empty if it has none. -/
def text (names : Names) (sym : Sym) : String :=
  (names.text? sym).getD ""

/-- The symbol of a name, a new one at its first mention. -/
def intern (names : Names) (name : String) : Sym × Names :=
  match names.lookup name with
  | some sym => (sym, names)
  | none => (names.size, ⟨names.spellings.push name⟩)

theorem lookup_eq_some_iff (names : Names) (name : String) (sym : Sym) :
    names.lookup name = some sym ↔
      names.text? sym = some name ∧ ∀ other < sym, names.text? other ≠ some name := by
  simp only [lookup, text?, Array.findIdx?_eq_some_iff_getElem, beq_iff_eq,
    Array.getElem?_eq_some_iff, ne_eq, not_exists]
  constructor
  · rintro ⟨h, he, hn⟩
    exact ⟨⟨h, he⟩, fun other ho _ => hn other ho⟩
  · rintro ⟨⟨h, he⟩, hn⟩
    exact ⟨h, he, fun other ho => hn other ho (Nat.lt_trans ho h)⟩

theorem text_intern (names : Names) (name : String) :
    (names.intern name).2.text? (names.intern name).1 = some name := by
  unfold intern
  split
  · rename_i sym h
    exact ((lookup_eq_some_iff names name sym).1 h).1
  · simp [text?, size]

theorem text_intern_of_lt (names : Names) (name : String) {sym : Sym} (h : sym < names.size) :
    (names.intern name).2.text? sym = names.text? sym := by
  unfold intern
  split
  · rfl
  · simp only [size] at h
    simp [text?, h, Array.getElem?_push_lt]

end Names

end Graft
