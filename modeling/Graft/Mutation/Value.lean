/-!
# Values of settings

Settings come as a tree of plain values. Whole numbers and numbers with a point or an exponent are
told apart: a count has to be written whole.
-/

namespace Graft

/-- A value as it stands in a settings file. -/
inductive Value where
  | null
  | bool (value : Bool)
  | whole (value : Int)
  /-- A sign, which zero has too, and `mantissa` divided by so many tens. -/
  | decimal (negative : Bool) (mantissa places : Nat)
  | text (value : String)
  | list (items : List Value)
  | table (fields : List (String × Value))
deriving Repr, Inhabited

namespace Value

/-- A count, which has to fit into 64 bits. -/
def count? : Value → Option Nat
  | whole (.ofNat n) => if n < 1 <<< 64 then some n else none
  | _ => none

/-- A decimal number, rounded to the nearest float. A zero keeps its sign. -/
def toFloat (negative : Bool) (mantissa places : Nat) : Float :=
  let size := Float.ofScientific mantissa true places
  if negative then -size else size

def number? : Value → Option Float
  | whole n => some (toFloat (n < 0) n.natAbs 0)
  | decimal negative mantissa places => some (toFloat negative mantissa places)
  | _ => none

def text? : Value → Option String
  | text t => some t
  | _ => none

/-- A value that may also be left open. -/
def orNull {α : Type} (read : Value → Option α) : Value → Option (Option α)
  | null => some none
  | v => (read v).map some

/-- The field of a table, or the item of a list that gives the fields in their order. -/
def part (v : Value) (rank : Nat) (name : String) : Option Value :=
  match v with
  | table fields => fields.lookup name
  | list items => items[rank]?
  | _ => none

/-- Whether a value can give so many fields. -/
def isRecord (v : Value) (size : Nat) : Bool :=
  match v with
  | table _ => true
  | list items => items.length ≤ size
  | _ => false

/-- Read a field; one that is missing has a default. -/
def field {α : Type} (v : Value) (rank : Nat) (name : String) (read : Value → Option α)
    (default : α) : Option α :=
  match v.part rank name with
  | some value => read value
  | none => some default

end Value

end Graft
