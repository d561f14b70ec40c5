import Graft.Reading.Statement
import Graft.Token.Scan

/-!
# Reading programs

A program is read statement by statement, and each statement enters the script as soon as it is
complete. An error keeps the statements in front of it, and the reader may go on behind it.
-/

namespace Graft

namespace Read

/-- Put a complete statement at the end of the program. -/
def plantStatement (t : Reading) : Read Unit :=
  modify fun c =>
    let (id, script) := Script.plant t c.script
    { c with script := script.push id }

/-- Read a statement of the program into the script, unless the input ends. -/
def programItem (rules : Rules) : Read (Option Unit) := do
  if ← atEnd then return none
  return some (← plantStatement (← rules.statement))

/-- The rules deep enough for the tokens ahead: whatever is nested stands behind a token of what
it is nested in. -/
def rulesAhead : Read Rules := do
  return Grammar.rules ((← get).ahead.length + 1)

/-- Read statements into the script up to the end of the input. -/
def program : Read Unit := do
  discard (many (programItem (← rulesAhead)))

/-- Read one expression; it does not enter the script. -/
def expression : Read Reading := do
  (← rulesAhead).expression false

end Read

/-- The script of a source text. -/
def Script.read (source : String) : Except SourceError Script := do
  let tokens ← scan source
  match Read.program.run (.ofTokens tokens) with
  | .ok _ c => return c.script
  | .error e _ => throw e

end Graft
