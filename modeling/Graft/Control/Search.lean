import Graft.Control

/-!
# Searches for transfers of control

Whether what hangs under a place may stand somewhere is found out with a stack of the places that
are still to be judged, each with what is around it. A place is taken from the top and gives way to
its children, the last of them on top; the first place that is not permitted ends the search. The
places of a kind that are admissible where they stand are found with another stack, on which the
first child comes to stand on top, and with a search of the other sort for each place of the kind.

The loops end if no way down from a place comes back to it. Where one does, there is no answer.

* `check` - whether what hangs under a place may stand where an enclosure holds
* `checkProgram` - whether every transfer of control in the program is permitted
* `search` - the places of a kind that are admissible where they stand
-/

namespace Graft

namespace Script

/-- A place with what is around it. -/
abbrev Placement := NodeId × Enclosure

/-- Put places with the same enclosure on a stack, one after the other. -/
def pushPlaced (e : Enclosure) (ids : List NodeId) (stack : List Placement) : List Placement :=
  ids.foldl (fun stack id => (id, e) :: stack) stack

/-- Whether all that is on a stack, with all that hangs under it, is permitted where it stands. -/
def checkStack (s : Script) (stack : List Placement) : Option Bool :=
  match stack with
  | [] => some true
  | (id, e) :: stack =>
    if e.permits (s.kind id) then
      s |>.checkStack (pushPlaced (e.enter (s.kind id)) (s.node id).children stack)
    else some false
partial_fixpoint

/-- Whether what hangs under a place may stand where an enclosure holds. -/
def check (s : Script) (id : NodeId) (e : Enclosure) : Option Bool :=
  s.checkStack [(id, e)]

/-- Whether every transfer of control in the program is permitted. -/
def checkProgram (s : Script) : Option Bool :=
  s.check root .outermost

/-- Whether a place is of a kind and may stand where an enclosure holds. What is of another kind is
not looked into. -/
def checkKind (s : Script) (kind : Kind) (id : NodeId) (e : Enclosure) : Option Bool :=
  if s.kind id = kind then s.check id e else some false

/-- Find the places of a kind that are admissible where they stand, among those on a stack and all
that hang under them, behind what has been found. -/
def searchStack (s : Script) (kind : Kind) (found : Array Placement) (stack : List Placement) :
    Option (Array Placement) :=
  match stack with
  | [] => some found
  | (id, e) :: stack => do
    let fits ← s.checkKind kind id e
    s |>.searchStack kind (if fits then found.push (id, e) else found)
      (pushPlaced (e.enter (s.kind id)) (s.node id).children.reverse stack)
partial_fixpoint

/-- The places of a kind in the program that are admissible where they stand. -/
def search (s : Script) (kind : Kind) : Option (List Placement) :=
  (s.searchStack kind #[] [(root, .outermost)]).map (·.toList)

/-- What is pushed last comes to stand on top. -/
theorem pushPlaced_eq (e : Enclosure) (ids : List NodeId) (stack : List Placement) :
    pushPlaced e ids stack = ids.reverse.map (·, e) ++ stack := by
  induction ids generalizing stack with
  | nil => rfl
  | cons id ids ih =>
    rw [pushPlaced, List.foldl_cons, ← pushPlaced, ih, List.reverse_cons, List.map_append,
      List.append_assoc]
    rfl

end Script

end Graft
