import Graft.Building.Statement

/-!
# Building programs

A program is built statement by statement, and the place of each statement enters the root as soon
as the statement is complete. The builder may be used again behind an error, for a program or for
an expression of its own.
-/

namespace Graft

namespace Build

/-- Put a statement at the end of the program. -/
def push (id : NodeId) : Build Unit :=
  modify fun b => { b with script := b.script.push id }

/-- Build a statement of the program, unless the input ends. -/
def programItem (rules : BuildRules) : Build (Option Unit) := do
  if ← atEnd then return none
  return some (← push (← rules.statement))

/-- The rules deep enough for the tokens ahead. -/
def rulesAhead : Build BuildRules := do
  return Building.rules ((← get).ahead.length + 1)

/-- Build statements up to the end of the input. -/
def program : Build Unit := do
  discard (many (programItem (← rulesAhead)))

/-- Build one expression; it does not enter the script. -/
def expression : Build NodeId := do
  (← rulesAhead).expression

end Build

end Graft
