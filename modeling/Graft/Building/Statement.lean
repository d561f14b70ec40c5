import Graft.Building.Expression
import Graft.Reading.Statement

/-!
# Building statements

The rules for statements, as a builder follows them, and the whole grammar: the rules of a depth
are given those of the depth below. Only the head of a `for` switches `in` off.
-/

namespace Graft

namespace Building

open Build

/-- Whether a statement may end here, a semicolon in front included. -/
def atStatementEnd : Build Bool := do
  return (← isPunct ";") || (← isPunct "\x7d") || (← atEnd) || (← newlineAhead)

/-- The semicolon behind a statement, where it is not left out. -/
def semicolon : Build Unit := do
  if ← eatPunct ";" then return
  unless ← atStatementEnd do refuse (.spelled ";")

/-- An expression in parentheses, as in the head of a statement. -/
def parenthesized (inner : BuildRules) : Build NodeId := do
  expectPunct "("
  let e ← allowIn inner.expression
  expectPunct ")"
  return e

/-! ## Blocks and declarations -/

/-- A statement inside braces, unless the closing brace is in front. -/
def blockItem (inner : BuildRules) : Build (Option NodeId) := do
  if ← isPunct "\x7d" then return none
  if ← atEnd then refuse (.spelled "\x7d")
  return some (← inner.statement)

/-- Statements in braces. -/
def block (inner : BuildRules) : Build NodeId := do
  expectPunct "\x7b"
  let body ← many (blockItem inner)
  discard next
  store (.block body)

/-- The keyword of a declaration. -/
def varKind : Build VarKind := do
  match ← lexeme? with
  | some (.word w) =>
    match VarKind.ofText? w with
    | some kind =>
      discard next
      return kind
    | none => refuse .declaration
  | _ => refuse .declaration

/-- The value that a declared name starts with, if it is given one. -/
def declarator (inner : BuildRules) (name : Sym) : Build (Declarator NodeId Sym) := do
  if ← eatPunct "=" then return ⟨name, some (← inner.assignment)⟩
  return ⟨name, none⟩

/-- A declared name with its value; patterns are refused. -/
def declaredName (inner : BuildRules) : Build (Declarator NodeId Sym) := do
  if (← isPunct "[") || (← isPunct "\x7b") then unsupported .destructuring
  declarator inner (← identifier)

/-- A further item behind a comma. -/
def furtherItem {α : Type} (item : Build α) : Build (Option α) := do
  if ← eatPunct "," then return some (← item)
  return none

/-- A declaration of variables without its semicolon. -/
def varDecl (inner : BuildRules) : Build NodeId := do
  let kind ← varKind
  let first ← declaredName inner
  let rest ← many (furtherItem (declaredName inner))
  store (.varDecl kind (first :: rest))

def functionDecl (inner : BuildRules) : Build NodeId := do
  expectWord "function"
  if ← isPunct "*" then unsupported .generator
  let name ← identifier
  let (params, body) ← functionParts inner
  store (.functionDecl name params body)

/-- A method, from the word `static` on if there is one. That word may also be a name. -/
def method (inner : BuildRules) : Build (Method NodeId Sym) := do
  let isStatic := (← isWord "static") && (← second?) != some (.punct "(")
  if isStatic then discard next
  if ← atAccessor then unsupported .accessor
  let name ← propertyName
  return ⟨name, isStatic, ← bareFunction inner⟩

/-- What stands in the body of a class: a method, or a semicolon that means nothing. -/
def classItem (inner : BuildRules) : Build (Option (Option (Method NodeId Sym))) := do
  if ← eatPunct "\x7d" then return none
  if ← eatPunct ";" then return some none
  return some (some (← method inner))

def classDecl (inner : BuildRules) : Build NodeId := do
  expectWord "class"
  let name ← identifier
  let superclass ← if ← eatWord "extends" then some <$> access inner else pure none
  expectPunct "\x7b"
  let items ← many (classItem inner)
  store (.classDecl name superclass (items.filterMap id))

/-! ## Choices -/

def ifStmt (inner : BuildRules) : Build NodeId := do
  expectWord "if"
  let test ← parenthesized inner
  let consequent ← inner.statement
  let alternate ← if ← eatWord "else" then some <$> inner.statement else pure none
  store (.ifStmt test consequent alternate)

/-- A statement of a case, unless the case ends here. -/
def caseItem (inner : BuildRules) : Build (Option NodeId) := do
  if (← isWord "case") || (← isWord "default") || (← isPunct "\x7d") then return none
  if ← atEnd then refuse (.spelled "\x7d")
  return some (← inner.statement)

/-- The label of a case: a value, or none for the default. -/
def caseLabel (inner : BuildRules) : Build (Option NodeId) := do
  if ← eatWord "case" then return some (← inner.expression)
  if ← eatWord "default" then return none
  refuse .caseOrDefault

/-- A case of a switch, unless the closing brace is in front, which is taken. -/
def switchCase (inner : BuildRules) : Build (Option NodeId) := do
  if ← eatPunct "\x7d" then return none
  let test ← caseLabel inner
  expectPunct ":"
  let consequent ← many (caseItem inner)
  return some (← store (.switchCase test consequent))

def switchStmt (inner : BuildRules) : Build NodeId := do
  expectWord "switch"
  let discriminant ← parenthesized inner
  expectPunct "\x7b"
  let cases ← many (switchCase inner)
  store (.switchStmt discriminant cases)

/-- The clause of a `try` that catches, if there is one. -/
def catchClause (inner : BuildRules) : Build (Option (Catch NodeId Sym)) := do
  if ← eatWord "catch" then
    if ← eatPunct "(" then
      let param ← identifier
      expectPunct ")"
      return some ⟨some param, ← inner.block⟩
    return some ⟨none, ← inner.block⟩
  return none

def tryStmt (inner : BuildRules) : Build NodeId := do
  expectWord "try"
  let body ← inner.block
  let handler ← catchClause inner
  let finalizer ← if ← eatWord "finally" then some <$> inner.block else pure none
  if handler.isNone && finalizer.isNone then refuse .catchOrFinally
  store (.tryStmt body handler finalizer)

/-! ## Loops -/

/-- What the head of a `for` begins with: the left side of `in` or `of`, or a start of its own. -/
inductive ForHead where
  | each (left : NodeId)
  | start (init : Option NodeId)

/-- Whether the head of a `for` goes through a collection. -/
def atEach : Build Bool := do
  return (← isWord "in") || (← isWord "of")

/-- A declaration in the head of a `for`. -/
def forVarHead (inner : BuildRules) : Build ForHead := do
  let kind ← varKind
  let name ← identifier
  if ← atEach then return .each (← store (.varDecl kind [⟨name, none⟩]))
  let first ← declarator inner name
  let rest ← many (furtherItem do declarator inner (← identifier))
  return .start (some (← store (.varDecl kind (first :: rest))))

/-- What stands in the head of a `for` up to the first semicolon or the word `in` or `of`. -/
def forHead (inner : BuildRules) : Build ForHead := do
  if ← isPunct ";" then return .start none
  match ← lexeme? with
  | some (.word "var") | some (.word "let") | some (.word "const") => forVarHead inner
  | _ =>
    let e ← inner.expression
    if ← atEach then return .each e
    return .start (some e)

/-- The rest of a loop through a collection, from the word `in` or `of` on. -/
def forEach (inner : BuildRules) (left : NodeId) : Build NodeId := do
  let isOf ← isWord "of"
  discard next
  let right ← if isOf then inner.assignment else inner.expression
  expectPunct ")"
  let body ← inner.statement
  store (if isOf then .forOf left right body else .forIn left right body)

/-- An expression in the head of a `for`, unless it is left out in front of `close`. -/
def forPart (inner : BuildRules) (close : String) : Build (Option NodeId) := do
  if ← isPunct close then return none
  return some (← allowIn inner.expression)

/-- A loop with a head; in the head `in` is no operator. -/
def forStmt (inner : BuildRules) : Build NodeId := do
  expectWord "for"
  if ← isWord "await" then unsupported .forAwait
  expectPunct "("
  match ← withNoIn true (forHead inner) with
  | .each left => forEach inner left
  | .start init =>
    expectPunct ";"
    let test ← forPart inner ";"
    expectPunct ";"
    let step ← forPart inner ")"
    expectPunct ")"
    store (.forStmt init test step (← inner.statement))

def whileStmt (inner : BuildRules) : Build NodeId := do
  expectWord "while"
  let test ← parenthesized inner
  store (.whileStmt test (← inner.statement))

def doWhile (inner : BuildRules) : Build NodeId := do
  expectWord "do"
  let body ← inner.statement
  expectWord "while"
  let test ← parenthesized inner
  discard (eatPunct ";")
  store (.doWhile body test)

def withStmt (inner : BuildRules) : Build NodeId := do
  expectWord "with"
  let scope ← parenthesized inner
  store (.withStmt scope (← inner.statement))

/-! ## Transfers of control -/

/-- A `break` or a `continue` with its semicolon; labels are refused. -/
def transfer (node : Node NodeId Sym) : Build NodeId := do
  discard next
  match ← lexeme? with
  | some (.word _) => unless ← newlineAhead do unsupported .labels
  | _ => pure ()
  semicolon
  store node

def returnStmt (inner : BuildRules) : Build NodeId := do
  expectWord "return"
  let arg ← if ← atStatementEnd then pure none else some <$> inner.expression
  semicolon
  store (.returnStmt arg)

def throwStmt (inner : BuildRules) : Build NodeId := do
  expectWord "throw"
  let arg ← inner.expression
  semicolon
  store (.throwStmt arg)

/-! ## Statements -/

/-- A statement that begins with no word of its own: an expression. -/
def exprStmt (inner : BuildRules) : Build NodeId := do
  let e ← expression inner
  semicolon
  store (.exprStmt e)

/-- A declaration of variables as a statement. -/
def varStmt (inner : BuildRules) : Build NodeId := do
  let e ← varDecl inner
  semicolon
  return e

/-- A statement that begins with a word. -/
def wordStatement (inner : BuildRules) (word : String) : Build NodeId :=
  match word with
  | "var" | "let" | "const" => varStmt inner
  | "function" => functionDecl inner
  | "class" => classDecl inner
  | "if" => ifStmt inner
  | "for" => forStmt inner
  | "while" => whileStmt inner
  | "do" => doWhile inner
  | "switch" => switchStmt inner
  | "with" => withStmt inner
  | "break" => transfer .breakStmt
  | "continue" => transfer .continueStmt
  | "return" => returnStmt inner
  | "throw" => throwStmt inner
  | "try" => tryStmt inner
  | "import" | "export" => unsupported .moduleSyntax
  | "debugger" => unsupported .debugger
  | _ => exprStmt inner

def statement (inner : BuildRules) : Build NodeId := do
  match ← lexeme? with
  | some (.punct "\x7b") => block inner
  | some (.punct ";") =>
    discard next
    store .empty
  | some (.word w) => wordStatement inner w
  | _ => exprStmt inner

/-! ## The whole grammar -/

/-- The rules that read nothing. -/
def tooDeepRules : BuildRules where
  statement := tooDeep
  block := tooDeep
  expression := tooDeep
  assignment := tooDeep
  binary _ := tooDeep
  unary := tooDeep
  construction := tooDeep

/-- The rules one level above given ones. -/
def step (inner : BuildRules) : BuildRules where
  statement := statement inner
  block := block inner
  expression := expression inner
  assignment := assignment inner
  binary := binary inner
  unary := unary inner
  construction := construction inner

/-- The rules for texts whose constructs are nested no more deeply than `depth`. -/
def rules : Nat → BuildRules
  | 0 => tooDeepRules
  | depth + 1 => step (rules depth)

end Building

end Graft
