import Graft.Token

/-!
# Pieces of printed text

A printer puts out lexemes with spaces and line breaks between them. Keeping the lexemes apart
from the spacing shows which tokens a text is meant to have; only `textOf` turns the pieces into
characters.
-/

namespace Graft

/-- A lexeme, or what stands between lexemes. -/
inductive Piece where
  | lexeme (lexeme : Lexeme)
  | space
  /-- A new line that begins with so many steps of indentation. -/
  | line (indent : Nat)
deriving Repr, DecidableEq

namespace Piece

def word (text : String) : Piece := lexeme (.word text)

def number (text : String) : Piece := lexeme (.number text)

def quoted (text : String) : Piece := lexeme (.quoted text)

def punct (text : String) : Piece := lexeme (.punct text)

/-- One step of indentation is two blanks. -/
def indentation (steps : Nat) : List Char :=
  List.replicate (2 * steps) ' '

/-- The characters of a piece. -/
def chars : Piece → List Char
  | lexeme l => l.text.toList
  | space => [' ']
  | line indent => '\n' :: indentation indent

/-- The characters of pieces in a row. -/
def charsOf (pieces : List Piece) : List Char :=
  pieces.flatMap chars

/-- The text of pieces in a row. -/
def textOf (pieces : List Piece) : String :=
  String.ofList (charsOf pieces)

theorem charsOf_append (front back : List Piece) :
    charsOf (front ++ back) = charsOf front ++ charsOf back := by
  simp [charsOf]

/-- Layouts separated by commas. -/
def commas (items : List (List Piece)) : List Piece :=
  (items.intersperse [punct ",", space]).flatten

/-- A layout between two brackets. -/
def enclosed (opening : String) (inside : List Piece) (closing : String) : List Piece :=
  punct opening :: inside ++ [punct closing]

/-- A layout in parentheses. -/
def parens (inside : List Piece) : List Piece :=
  enclosed "(" inside ")"

/-- Parameters in parentheses. -/
def params (names : List String) : List Piece :=
  parens (commas (names.map fun name => [word name]))

end Piece

end Graft
