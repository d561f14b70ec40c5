import Graft.Chance.Stream
import Graft.Syntax.Script

/-!
# Passes over single nodes

Two passes change nodes by themselves and leave the shape of the script as it is. One exchanges
operators inside their families, the other replaces numbers by numbers on the edges of what
programs expect. Each goes once through the script in preorder.
-/

namespace Graft

open Chance (Draw Probability)

/-- A way to change a node by chance; none where the node is left alone. -/
abbrev NodeChange := Node NodeId Sym → Draw (Option (Node NodeId Sym))

namespace NodeChange

/-- Exchange an operator for one of its choices. -/
def exchange {op : Type} (chance : Probability) (choices : List op)
    (node : op → Node NodeId Sym) : Draw (Option (Node NodeId Sym)) := do
  if ← Draw.bool chance then return (← Draw.choose choices).map node
  return none

/-- Exchange the operator of a node inside its family. Operators that are words stay. -/
def operator (chance : Probability) : NodeChange
  | .binary op lhs rhs => exchange chance op.family fun op => .binary op lhs rhs
  | .logical _ lhs rhs => exchange chance LogicalOp.all fun op => .logical op lhs rhs
  | .assign _ target value => exchange chance AssignOp.all fun op => .assign op target value
  | .unary op arg =>
    if op.isKeyword then return none
    else exchange chance UnaryOp.symbolic fun op => .unary op arg
  | .update _ leading arg => exchange chance UpdateOp.all fun op => .update op leading arg
  | _ => return none

/-- Numbers on the edges, and edges of the ways to write numbers. -/
def edgeNumbers : List String :=
  ["0", "1", "1.00", "0.5", "1E2", "1E02", "1E+02", "+0", "+0.0", "0.00",
   "999999999999999999999999999999999999999999999999999999999999999999999999999999999999999999999999",
   "0x0", "0xffffffff", "0xffffffffffffffff", "0xabad1dea",
   "123456789012345678901234567890123456789", "1000.00", "1000000.00", "100000.000",
   "100000000", "01000", "08", "09", "2.2250738585072011e-308"]

/-- Replace a number by one on the edges. -/
def number (chance : Probability) : NodeChange
  | .literal (.number _) => exchange chance edgeNumbers fun raw => .literal (.number raw)
  | _ => return none

/-- Change the nodes at given places one after the other and count those that were touched. -/
def atEach (step : NodeChange) : List NodeId → Script → Draw (Nat × Script)
  | [], s => return (0, s)
  | id :: ids, s => do
    match ← step (s.node id) with
    | none => atEach step ids s
    | some node =>
      let (count, s) ← atEach step ids (s.setNode id node)
      return (count + 1, s)

/-- Change the nodes of a script. -/
def everywhere (step : NodeChange) (s : Script) : Draw (Nat × Script) :=
  atEach step (s.preorder Script.root) s

end NodeChange

end Graft
