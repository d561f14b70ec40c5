import Graft.Reading.Expression

/-!
# Reading statements

A statement is chosen by its first word; what begins with no such word is an expression. The
semicolon behind a statement may be missing in front of a closing brace, at the end of a line and
at the end of the input.

`Grammar.rules` closes the grammar: the rules of a depth are given those of the depth below, and
at depth zero nothing is read.
-/

namespace Graft

namespace Grammar

open Read
open Reading (of)

/-- Whether a statement may end here, a semicolon in front included. -/
def atStatementEnd : Read Bool := do
  return (← isPunct ";") || (← isPunct "\x7d") || (← atEnd) || (← newlineAhead)

/-- The semicolon behind a statement, where it is not left out. -/
def semicolon : Read Unit := do
  if ← eatPunct ";" then return
  unless ← atStatementEnd do refuse (.spelled ";")

/-- An expression in parentheses, as in the head of a statement. -/
def parenthesized (inner : Rules) : Read Reading := do
  expectPunct "("
  let e ← inner.expression false
  expectPunct ")"
  return e

/-! ## Blocks and declarations -/

/-- A statement inside braces, unless the closing brace is in front. -/
def blockItem (inner : Rules) : Read (Option Reading) := do
  if ← isPunct "\x7d" then return none
  if ← atEnd then refuse (.spelled "\x7d")
  return some (← inner.statement)

/-- Statements in braces. -/
def block (inner : Rules) : Read Reading := do
  expectPunct "\x7b"
  let body ← many (blockItem inner)
  discard next
  return of (.block body)

/-- The keyword of a declaration. -/
def varKind : Read VarKind := do
  match ← lexeme? with
  | some (.word w) =>
    match VarKind.ofText? w with
    | some kind =>
      discard next
      return kind
    | none => refuse .declaration
  | _ => refuse .declaration

/-- The value that a declared name starts with, if it is given one. -/
def declarator (inner : Rules) (noIn : Bool) (name : String) :
    Read (Declarator Reading String) := do
  if ← eatPunct "=" then return ⟨name, some (← inner.assignment noIn)⟩
  return ⟨name, none⟩

/-- A declared name with its value; patterns are refused. -/
def declaredName (inner : Rules) : Read (Declarator Reading String) := do
  if (← isPunct "[") || (← isPunct "\x7b") then unsupported .destructuring
  declarator inner false (← identifier)

/-- A further item behind a comma. -/
def furtherItem {α : Type} (item : Read α) : Read (Option α) := do
  if ← eatPunct "," then return some (← item)
  return none

/-- A declaration of variables without its semicolon. -/
def varDecl (inner : Rules) : Read Reading := do
  let kind ← varKind
  let first ← declaredName inner
  let rest ← many (furtherItem (declaredName inner))
  return of (.varDecl kind (first :: rest))

def functionDecl (inner : Rules) : Read Reading := do
  expectWord "function"
  if ← isPunct "*" then unsupported .generator
  let name ← identifier
  let (params, body) ← functionParts inner
  return of (.functionDecl name params body)

/-- A method, from the word `static` on if there is one. That word may also be a name. -/
def method (inner : Rules) : Read (Method Reading String) := do
  let isStatic := (← isWord "static") && (← second?) != some (.punct "(")
  if isStatic then discard next
  if ← atAccessor then unsupported .accessor
  let name ← propertyName
  return ⟨name, isStatic, ← bareFunction inner⟩

/-- What stands in the body of a class: a method, or a semicolon that means nothing. -/
def classItem (inner : Rules) : Read (Option (Option (Method Reading String))) := do
  if ← eatPunct "\x7d" then return none
  if ← eatPunct ";" then return some none
  return some (some (← method inner))

def classDecl (inner : Rules) : Read Reading := do
  expectWord "class"
  let name ← identifier
  let superclass ← if ← eatWord "extends" then some <$> access inner else pure none
  expectPunct "\x7b"
  let items ← many (classItem inner)
  return of (.classDecl name superclass (items.filterMap id))

/-! ## Choices -/

def ifStmt (inner : Rules) : Read Reading := do
  expectWord "if"
  let test ← parenthesized inner
  let consequent ← inner.statement
  let alternate ← if ← eatWord "else" then some <$> inner.statement else pure none
  return of (.ifStmt test consequent alternate)

/-- A statement of a case, unless the case ends here. -/
def caseItem (inner : Rules) : Read (Option Reading) := do
  if (← isWord "case") || (← isWord "default") || (← isPunct "\x7d") then return none
  if ← atEnd then refuse (.spelled "\x7d")
  return some (← inner.statement)

/-- The label of a case: a value, or none for the default. -/
def caseLabel (inner : Rules) : Read (Option Reading) := do
  if ← eatWord "case" then return some (← inner.expression false)
  if ← eatWord "default" then return none
  refuse .caseOrDefault

/-- A case of a switch, unless the closing brace is in front, which is taken. -/
def switchCase (inner : Rules) : Read (Option Reading) := do
  if ← eatPunct "\x7d" then return none
  let test ← caseLabel inner
  expectPunct ":"
  let consequent ← many (caseItem inner)
  return some (of (.switchCase test consequent))

def switchStmt (inner : Rules) : Read Reading := do
  expectWord "switch"
  let discriminant ← parenthesized inner
  expectPunct "\x7b"
  let cases ← many (switchCase inner)
  return of (.switchStmt discriminant cases)

/-- The clause of a `try` that catches, if there is one. -/
def catchClause (inner : Rules) : Read (Option (Catch Reading String)) := do
  if ← eatWord "catch" then
    if ← eatPunct "(" then
      let param ← identifier
      expectPunct ")"
      return some ⟨some param, ← inner.block⟩
    return some ⟨none, ← inner.block⟩
  return none

def tryStmt (inner : Rules) : Read Reading := do
  expectWord "try"
  let body ← inner.block
  let handler ← catchClause inner
  let finalizer ← if ← eatWord "finally" then some <$> inner.block else pure none
  if handler.isNone && finalizer.isNone then refuse .catchOrFinally
  return of (.tryStmt body handler finalizer)

/-! ## Loops -/

/-- What the head of a `for` begins with: the left side of `in` or `of`, or a start of its own. -/
inductive ForHead where
  | each (left : Reading)
  | start (init : Option Reading)

/-- Whether the head of a `for` goes through a collection. -/
def atEach : Read Bool := do
  return (← isWord "in") || (← isWord "of")

/-- A declaration in the head of a `for`. -/
def forVarHead (inner : Rules) : Read ForHead := do
  let kind ← varKind
  let name ← identifier
  if ← atEach then return .each (of (.varDecl kind [⟨name, none⟩]))
  let first ← declarator inner true name
  let rest ← many (furtherItem do declarator inner true (← identifier))
  return .start (some (of (.varDecl kind (first :: rest))))

/-- What stands in the head of a `for` up to the first semicolon or the word `in` or `of`. -/
def forHead (inner : Rules) : Read ForHead := do
  if ← isPunct ";" then return .start none
  match ← lexeme? with
  | some (.word "var") | some (.word "let") | some (.word "const") => forVarHead inner
  | _ =>
    let e ← inner.expression true
    if ← atEach then return .each e
    return .start (some e)

/-- The rest of a loop through a collection, from the word `in` or `of` on. -/
def forEach (inner : Rules) (left : Reading) : Read Reading := do
  let isOf ← isWord "of"
  discard next
  let right ← if isOf then inner.assignment false else inner.expression false
  expectPunct ")"
  let body ← inner.statement
  return of (if isOf then .forOf left right body else .forIn left right body)

/-- An expression in the head of a `for`, unless it is left out in front of `close`. -/
def forPart (inner : Rules) (close : String) : Read (Option Reading) := do
  if ← isPunct close then return none
  return some (← inner.expression false)

def forStmt (inner : Rules) : Read Reading := do
  expectWord "for"
  if ← isWord "await" then unsupported .forAwait
  expectPunct "("
  match ← forHead inner with
  | .each left => forEach inner left
  | .start init =>
    expectPunct ";"
    let test ← forPart inner ";"
    expectPunct ";"
    let step ← forPart inner ")"
    expectPunct ")"
    return of (.forStmt init test step (← inner.statement))

def whileStmt (inner : Rules) : Read Reading := do
  expectWord "while"
  let test ← parenthesized inner
  return of (.whileStmt test (← inner.statement))

def doWhile (inner : Rules) : Read Reading := do
  expectWord "do"
  let body ← inner.statement
  expectWord "while"
  let test ← parenthesized inner
  discard (eatPunct ";")
  return of (.doWhile body test)

def withStmt (inner : Rules) : Read Reading := do
  expectWord "with"
  let scope ← parenthesized inner
  return of (.withStmt scope (← inner.statement))

/-! ## Transfers of control -/

/-- A `break` or a `continue` with its semicolon; labels are refused. -/
def transfer (node : Node Reading String) : Read Reading := do
  discard next
  match ← lexeme? with
  | some (.word _) => unless ← newlineAhead do unsupported .labels
  | _ => pure ()
  semicolon
  return of node

def returnStmt (inner : Rules) : Read Reading := do
  expectWord "return"
  let arg ← if ← atStatementEnd then pure none else some <$> inner.expression false
  semicolon
  return of (.returnStmt arg)

def throwStmt (inner : Rules) : Read Reading := do
  expectWord "throw"
  let arg ← inner.expression false
  semicolon
  return of (.throwStmt arg)

/-! ## Statements -/

/-- A statement that begins with no word of its own: an expression. -/
def exprStmt (inner : Rules) : Read Reading := do
  let e ← expression inner false
  semicolon
  return of (.exprStmt e)

/-- A declaration of variables as a statement. -/
def varStmt (inner : Rules) : Read Reading := do
  let e ← varDecl inner
  semicolon
  return e

/-- A statement that begins with a word. -/
def wordStatement (inner : Rules) (word : String) : Read Reading :=
  match word with
  | "var" | "let" | "const" => varStmt inner
  | "function" => functionDecl inner
  | "class" => classDecl inner
  | "if" => ifStmt inner
  | "for" => forStmt inner
  | "while" => whileStmt inner
  | "do" => doWhile inner
  | "switch" => switchStmt inner
  | "with" => withStmt inner
  | "break" => transfer .breakStmt
  | "continue" => transfer .continueStmt
  | "return" => returnStmt inner
  | "throw" => throwStmt inner
  | "try" => tryStmt inner
  | "import" | "export" => unsupported .moduleSyntax
  | "debugger" => unsupported .debugger
  | _ => exprStmt inner

def statement (inner : Rules) : Read Reading := do
  match ← lexeme? with
  | some (.punct "\x7b") => block inner
  | some (.punct ";") =>
    discard next
    return of .empty
  | some (.word w) => wordStatement inner w
  | _ => exprStmt inner

/-! ## The whole grammar -/

/-- The rules that read nothing. -/
def tooDeepRules : Rules where
  statement := tooDeep
  block := tooDeep
  expression _ := tooDeep
  assignment _ := tooDeep
  binary _ _ := tooDeep
  unary := tooDeep
  construction := tooDeep

/-- The rules one level above given ones. -/
def step (inner : Rules) : Rules where
  statement := statement inner
  block := block inner
  expression := expression inner
  assignment := assignment inner
  binary := binary inner
  unary := unary inner
  construction := construction inner

/-- The rules for texts whose constructs are nested no more deeply than `depth`. -/
def rules : Nat → Rules
  | 0 => tooDeepRules
  | depth + 1 => step (rules depth)

end Grammar

end Graft
