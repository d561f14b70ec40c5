import Graft.Text.Place

/-!
# Tokens

A lexeme is the spelling of one token together with its class. Names and keywords form a single
class: which words are reserved is a question of the grammar. A token adds where the lexeme
stands and whether a line ended in front of it. The end of the input is no token; a token
sequence only says where it is.
-/

namespace Graft

open Text (Place)

/-- The spelling of a token, by class. -/
inductive Lexeme where
  /-- A name or a keyword. -/
  | word (text : String)
  | number (text : String)
  /-- A string literal with its quotes and escapes. -/
  | quoted (text : String)
  /-- An operator or a bracket. -/
  | punct (text : String)
deriving Repr, DecidableEq

namespace Lexeme

/-- The characters of the source that the lexeme stands for. -/
def text : Lexeme → String
  | word t | number t | quoted t | punct t => t

/-- How a message names the lexeme. -/
def describe : Lexeme → String
  | word t | punct t => "'" ++ t ++ "'"
  | number t => "number " ++ t
  | quoted t => "string " ++ t

end Lexeme

/-- A lexeme in its place. -/
structure Token where
  lexeme : Lexeme
  /-- A line ended between the previous token and this one. -/
  newlineBefore : Bool
  place : Place
deriving Repr, DecidableEq

/-- The tokens of a text and the place of its end. -/
structure Tokens where
  list : List Token
  finish : Place
deriving Repr, DecidableEq

/-- How a message names the token in front of the reader, or the end of the input. -/
def describeAhead (ahead : Option Lexeme) : String :=
  (ahead.map Lexeme.describe).getD "end of input"

end Graft
