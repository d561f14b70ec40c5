import Graft.Token

/-!
# Refused sources

Why a text is not read as a script. Every cause carries the place that it is about; a cause found
by the grammar carries what stood there and what could have stood there instead.
-/

namespace Graft

open Text (Place)

/-- What a text may leave open at its end. -/
inductive Unfinished where
  | comment
  | quoted
deriving Repr, DecidableEq

/-- A part of the language outside the subset that is read. -/
inductive Feature where
  | templateLiteral
  | regularExpression
  | labels
  | moduleSyntax
  | debugger
  | destructuring
  | generator
  | restParameter
  | defaultParameter
  | accessor
  | forAwait
  | assignmentToValue
  | arrowPattern
  | newTarget
  | spreadArgument
  | classExpression
  | super
  | arrayHole
  | spreadElement
  | computedKey
  | objectSpread
deriving Repr, DecidableEq

/-- What the grammar would have accepted. -/
inductive Expectation where
  /-- A token of exactly this spelling. -/
  | spelled (text : String)
  | identifier
  | propertyName
  | declaration
  | caseOrDefault
  | catchOrFinally
  | expression
  | property
deriving Repr, DecidableEq

/-- Why a source text is refused. -/
inductive SourceError where
  /-- A character that begins no token. -/
  | strayChar (char : Char) (place : Place)
  /-- A comment or a string literal that does not end. -/
  | unterminated (what : Unfinished) (place : Place)
  /-- A token that does not fit, or the end of the input (`none`). -/
  | unexpected (expected : Expectation) (found : Option Lexeme) (place : Place)
  /-- A construct outside the subset. -/
  | unsupported (what : Feature) (place : Place)
  /-- Constructs nested more deeply than the depth that a reader was given. -/
  | tooDeep (place : Place)
deriving Repr, DecidableEq

namespace Unfinished

def name : Unfinished → String
  | comment => "comment"
  | quoted => "string literal"

end Unfinished

namespace Feature

def name : Feature → String
  | templateLiteral => "template literal"
  | regularExpression => "regular expression"
  | labels => "labels"
  | moduleSyntax => "module syntax"
  | debugger => "debugger statement"
  | destructuring => "destructuring"
  | generator => "generator function"
  | restParameter => "rest parameter"
  | defaultParameter => "default parameter"
  | accessor => "accessor"
  | forAwait => "for await"
  | assignmentToValue => "assignment to a non-reference"
  | arrowPattern => "arrow parameter pattern"
  | newTarget => "new.target"
  | spreadArgument => "spread argument"
  | classExpression => "class expression"
  | super => "super"
  | arrayHole => "array hole"
  | spreadElement => "spread element"
  | computedKey => "computed property key"
  | objectSpread => "object spread"

end Feature

namespace Expectation

def describe : Expectation → String
  | spelled text => "'" ++ text ++ "'"
  | identifier => "identifier"
  | propertyName => "property name"
  | declaration => "declaration"
  | caseOrDefault => "'case' or 'default'"
  | catchOrFinally => "'catch' or 'finally'"
  | expression => "expression"
  | property => "property"

end Expectation

namespace SourceError

/-- Where the error points. -/
def place : SourceError → Place
  | strayChar _ p | unterminated _ p | unexpected _ _ p | unsupported _ p | tooDeep p => p

/-- A place as messages write it. -/
def showPlace (p : Place) : String :=
  Nat.repr p.line ++ ":" ++ Nat.repr p.column

/-- The wording of each cause. -/
def message : SourceError → String
  | strayChar c p => "unexpected character '" ++ c.toString ++ "' at " ++ showPlace p
  | unterminated what p => "unterminated " ++ what.name ++ " starting at " ++ showPlace p
  | unexpected expected found p =>
    "expected " ++ expected.describe ++ ", found " ++ describeAhead found ++ " at " ++ showPlace p
  | unsupported what p => "unsupported syntax: " ++ what.name ++ " at " ++ showPlace p
  | tooDeep p => "nested too deeply at " ++ showPlace p

end SourceError

end Graft
