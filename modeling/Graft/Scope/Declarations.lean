import Graft.Syntax.Script

/-!
# Declarations

Which names a node introduces, and an index of the declarations in the reachable part of a script.
Of several functions or classes with one name, the first in source order counts.
-/

namespace Graft

namespace Node

variable {α ν : Type}

/-- The names that a node introduces: variables, a function's own name and its parameters, a class
and the parameter of a `catch`. -/
def declaredNames : Node α ν → List ν
  | varDecl _ declarators => declarators.map (·.name)
  | functionDecl name params _ => name :: params
  | functionExpr name params _ => name.toList ++ params
  | arrow params _ _ => params
  | classDecl name _ _ => [name]
  | tryStmt _ (some handler) _ => handler.param.toList
  | _ => []

end Node

/-- The declarations of a script by the nodes that make them, and its functions and classes by
name. -/
structure ScopeIndex where
  declared : List (NodeId × List Sym)
  functions : List (Sym × NodeId)
  classes : List (Sym × NodeId)
deriving Repr, DecidableEq

namespace ScopeIndex

/-- The index of the reachable part of a script. -/
def ofScript (s : Script) : ScopeIndex :=
  let ids := s.preorder Script.root
  { declared := ids.filterMap fun id =>
      match (s.node id).declaredNames with
      | [] => none
      | names => some (id, names)
    functions := ids.filterMap fun id =>
      match s.node id with
      | .functionDecl name _ _ => some (name, id)
      | _ => none
    classes := ids.filterMap fun id =>
      match s.node id with
      | .classDecl name _ _ => some (name, id)
      | _ => none }

/-- The names that a node introduces. -/
def declaredBy (index : ScopeIndex) (id : NodeId) : List Sym :=
  (index.declared.lookup id).getD []

/-- The first function that is declared under a name. -/
def functionNamed (index : ScopeIndex) (name : Sym) : Option NodeId :=
  index.functions.lookup name

/-- The first class that is declared under a name. -/
def classNamed (index : ScopeIndex) (name : Sym) : Option NodeId :=
  index.classes.lookup name

end ScopeIndex

end Graft
