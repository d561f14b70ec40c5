import Graft.Proofs.Syntax.Stored
import Graft.Scope.Declarations

/-!
# Declared names

The names that a node declares are among its names, and they change with them. The index of a script
tells no more than what can be reached.

* `Node.declaration?` - a node that is a function or a class of a name
* `Rooted.ofScript_eq` - a change elsewhere leaves the index alone
-/

namespace Graft

open Script (Evolves root)

variable {α β ν μ : Type}

namespace Node

/-- What a node declares is among its names. -/
theorem declaredNames_subset (n : Node α ν) : n.declaredNames ⊆ n.names := by
  intro x hx
  rw [mem_names]
  cases n with
  | varDecl kind ds =>
    obtain ⟨d, hd, rfl⟩ := List.mem_map.1 hx
    exact List.mem_flatMap.2 ⟨d, hd, by simp [Declarator.parts]⟩
  | tryStmt body handler finalizer =>
    rcases handler with _ | h
    · cases hx
    · simpa [declaredNames, parts, Catch.parts] using hx
  | _ => simp_all [declaredNames, parts]

theorem declaredNames_map (f : α → β) (g : ν → μ) (n : Node α ν) :
    (n.map f g).declaredNames = n.declaredNames.map g := by
  cases n with
  | tryStmt body handler finalizer =>
    rcases handler with _ | ⟨param, body⟩
    · rfl
    · cases param <;> rfl
  | functionExpr name params body => cases name <;> simp [map, declaredNames]
  | _ => simp [map, declaredNames, Declarator.map, Function.comp_def]

/-- The name of a node that is the declaration of a function or of a class. -/
def declaration? : Node α ν → Option ν
  | functionDecl name _ _ | classDecl name _ _ => some name
  | _ => none

theorem declaration?_map (f : α → β) (g : ν → μ) (n : Node α ν) :
    (n.map f g).declaration? = n.declaration?.map g := by
  cases n <;> rfl

theorem mem_declaredNames_of_declaration {n : Node α ν} {x : ν} (h : n.declaration? = some x) :
    x ∈ n.declaredNames := by
  cases n <;> simp_all [declaration?, declaredNames]

end Node

namespace Script

variable {s s' : Script} {changed : List NodeId}

/-- A change elsewhere leaves the index of a script alone. -/
theorem Rooted.ofScript_eq (h : s.Rooted root) (he : Evolves changed s s')
    (apart : ∀ i ∈ s.preorder root, i ∉ changed) :
    ScopeIndex.ofScript s' = ScopeIndex.ofScript s := by
  have places : s'.preorder root = s.preorder root := by
    rw [preorder_eq_tags, preorder_eq_tags, (h.frame he apart).2]
  have nodes : ∀ i ∈ s.preorder root, s'.node i = s.node i := fun i hi =>
    node_eq (he.node? (h.of_mem_preorder hi).node? (apart i hi))
  unfold ScopeIndex.ofScript
  dsimp only
  rw [places]
  congr 1
  · exact List.filterMap_congr fun i hi => by rw [nodes i hi]
  · exact List.filterMap_congr fun i hi => by rw [nodes i hi]
  · exact List.filterMap_congr fun i hi => by rw [nodes i hi]

end Script

end Graft
