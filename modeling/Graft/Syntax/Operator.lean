/-!
# Operators

The operators of expressions, their spellings and how tightly they bind. Reader and printer use
the same precedences, so that the parentheses that one needs are those that the other writes.
A binary operator belongs to one family, inside which operators may be exchanged.

* `BinaryOp.mem_family` - every operator is in its own family
* `BinaryOp.family_eq_of_mem` - all members of a family have that family
-/

namespace Graft

/-! ## Precedence -/

/-- Levels of an expression from the loosest to the tightest; binary operators take 3 to 13. -/
abbrev Precedence := Nat

namespace Precedence

def sequence : Precedence := 0
def assignment : Precedence := 1
def conditional : Precedence := 2
def unary : Precedence := 14
def postfixed : Precedence := 15
/-- Calls, constructions and member accesses. -/
def access : Precedence := 16
def primary : Precedence := 17

end Precedence

/-! ## Binary operators -/

/-- The binary operators that evaluate both operands. -/
inductive BinaryOp where
  | add | sub | mul | div | rem | exp
  | bitAnd | bitOr | bitXor | shl | shr | ushr
  | eq | notEq | strictEq | strictNotEq | lt | ltEq | gt | gtEq
  | isIn | instanceOf
deriving Repr, DecidableEq

namespace BinaryOp

def arithmetic : List BinaryOp := [add, sub, mul, div, rem, exp]
def bitwise : List BinaryOp := [bitAnd, bitOr, bitXor, shl, shr, ushr]
def comparison : List BinaryOp := [eq, notEq, strictEq, strictNotEq, lt, ltEq, gt, gtEq]
def relational : List BinaryOp := [isIn, instanceOf]

/-- All operators, family by family. -/
def all : List BinaryOp := arithmetic ++ bitwise ++ comparison ++ relational

/-- The operators that may stand in this one's place. -/
def family : BinaryOp → List BinaryOp
  | add | sub | mul | div | rem | exp => arithmetic
  | bitAnd | bitOr | bitXor | shl | shr | ushr => bitwise
  | eq | notEq | strictEq | strictNotEq | lt | ltEq | gt | gtEq => comparison
  | isIn | instanceOf => relational

def text : BinaryOp → String
  | add => "+"
  | sub => "-"
  | mul => "*"
  | div => "/"
  | rem => "%"
  | exp => "**"
  | bitAnd => "&"
  | bitOr => "|"
  | bitXor => "^"
  | shl => "<<"
  | shr => ">>"
  | ushr => ">>>"
  | eq => "=="
  | notEq => "!="
  | strictEq => "==="
  | strictNotEq => "!=="
  | lt => "<"
  | ltEq => "<="
  | gt => ">"
  | gtEq => ">="
  | isIn => "in"
  | instanceOf => "instanceof"

/-- The operator of a spelling, be it a sign or a word. -/
def ofText? (s : String) : Option BinaryOp :=
  all.find? (·.text == s)

def precedence : BinaryOp → Precedence
  | bitOr => 5
  | bitXor => 6
  | bitAnd => 7
  | eq | notEq | strictEq | strictNotEq => 8
  | lt | ltEq | gt | gtEq | isIn | instanceOf => 9
  | shl | shr | ushr => 10
  | add | sub => 11
  | mul | div | rem => 12
  | exp => 13

theorem mem_family (op : BinaryOp) : op ∈ op.family := by
  cases op <;> decide

theorem family_eq_of_mem {op other : BinaryOp} (h : other ∈ op.family) :
    other.family = op.family := by
  revert h
  cases op <;> cases other <;> decide

theorem ofText?_text (op : BinaryOp) : ofText? op.text = some op := by
  cases op <;> decide

end BinaryOp

/-! ## Logical operators -/

/-- The binary operators that may leave their right operand alone. -/
inductive LogicalOp where
  | and | or
deriving Repr, DecidableEq

namespace LogicalOp

def all : List LogicalOp := [and, or]

def text : LogicalOp → String
  | and => "&&"
  | or => "||"

def ofText? (s : String) : Option LogicalOp :=
  all.find? (·.text == s)

def precedence : LogicalOp → Precedence
  | or => 3
  | and => 4

end LogicalOp

/-! ## Assignment operators -/

/-- Plain assignment and the assignments that combine. -/
inductive AssignOp where
  | assign | add | sub | mul | exp | div | rem
  | bitAnd | bitXor | bitOr | shl | shr | ushr
deriving Repr, DecidableEq

namespace AssignOp

def all : List AssignOp :=
  [assign, add, sub, mul, exp, div, rem, bitAnd, bitXor, bitOr, shl, shr, ushr]

def text : AssignOp → String
  | assign => "="
  | add => "+="
  | sub => "-="
  | mul => "*="
  | exp => "**="
  | div => "/="
  | rem => "%="
  | bitAnd => "&="
  | bitXor => "^="
  | bitOr => "|="
  | shl => "<<="
  | shr => ">>="
  | ushr => ">>>="

def ofText? (s : String) : Option AssignOp :=
  all.find? (·.text == s)

theorem ofText?_text (op : AssignOp) : ofText? op.text = some op := by
  cases op <;> decide

end AssignOp

/-! ## Unary operators -/

/-- The unary operators that leave their operand alone. -/
inductive UnaryOp where
  | neg | plus | not | bitNot | typeof | void | delete
deriving Repr, DecidableEq

namespace UnaryOp

/-- The operators that are signs and may be exchanged. -/
def symbolic : List UnaryOp := [neg, plus, not, bitNot]

def all : List UnaryOp := symbolic ++ [typeof, void, delete]

def text : UnaryOp → String
  | neg => "-"
  | plus => "+"
  | not => "!"
  | bitNot => "~"
  | typeof => "typeof"
  | void => "void"
  | delete => "delete"

/-- Whether the operator is spelled as a word. -/
def isKeyword : UnaryOp → Bool
  | typeof | void | delete => true
  | neg | plus | not | bitNot => false

theorem isKeyword_eq_false_iff (op : UnaryOp) : op.isKeyword = false ↔ op ∈ symbolic := by
  cases op <;> decide

end UnaryOp

/-! ## Update operators -/

/-- The operators that count a reference up or down. -/
inductive UpdateOp where
  | increment | decrement
deriving Repr, DecidableEq

namespace UpdateOp

def all : List UpdateOp := [increment, decrement]

def text : UpdateOp → String
  | increment => "++"
  | decrement => "--"

def ofText? (s : String) : Option UpdateOp :=
  all.find? (·.text == s)

end UpdateOp

end Graft
