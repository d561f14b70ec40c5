import Graft.Proofs.Grammar.Stored

/-!
# Identifiers in a script

What a node binds or refers to has to be a name that is not reserved. This is kept for the whole
table of a script, whether its nodes can be reached or not, so that it does not matter when a part
of the table becomes part of the program.

* `Script.WellNamed` - every identifier in the table is a name
* `wellNamed_read` - the table of a script that was read
* `Rooted.grammatical_iff` - what the grammar asks of a tree in a well-named script
-/

namespace Graft

open Graft.Tree

variable {τ : Type}

namespace Script

variable {s s' : Script} {id : NodeId}

/-- A symbol of a name that is not reserved. -/
def Proper (s : Script) (x : Sym) : Prop :=
  ∃ name, s.names.text? x = some name ∧ IsName name

/-- Every identifier in the table is a name, whether its node can be reached or not. -/
def WellNamed (s : Script) : Prop :=
  ∀ i, ∀ x ∈ (s.node i).identifiers, s.Proper x

theorem Proper.knows {x : Sym} (h : s.Proper x) : s.Knows x :=
  let ⟨name, ht, _⟩ := h
  ⟨name, ht⟩

theorem Proper.isName {x : Sym} (h : s.Proper x) : IsName (s.names.text x) := by
  obtain ⟨name, ht, hn⟩ := h
  rwa [text_eq ht]

theorem Evolves.proper {changed : List NodeId} (h : Evolves changed s s') {x : Sym}
    (hx : s.Proper x) : s'.Proper x :=
  let ⟨name, ht, hn⟩ := hx
  ⟨name, h.text? ht, hn⟩

theorem WellNamed.declared (h : s.WellNamed) :
    ∀ i, ∀ x ∈ (s.node i).declaredNames, s.Proper x :=
  fun i x hx => h i x (List.mem_append_left _ hx)

/-- The identifiers of a shaped tree in a script are names. -/
theorem Rooted.proper_of_shaped (h : s.Rooted id) (hs : (s.tree id).Shaped) :
    ∀ x ∈ (s.node id).identifiers, s.Proper x := by
  intro x hx
  have names := ((shaped_iff_grammatical _).1 ((shaped_iff _).1 hs).1).1.names
  rw [h.tree_eq] at names
  have named : x ∈ (s.node id).names := by
    rcases List.mem_append.1 hx with hx | hx
    · exact Node.declaredNames_subset _ hx
    · revert hx
      cases s.node id <;> simp [Node.referred, Node.names, Node.parts, rights]
  obtain ⟨name, ht⟩ := h.named x named
  refine ⟨name, ht, text_eq ht ▸ names _ ?_⟩
  change _ ∈ ((s.node id).map s.tree s.names.text).identifiers
  rw [Node.identifiers_map]
  exact List.mem_map_of_mem hx

/-! ## Changes -/

/-- A script that grows by a shaped tree. -/
theorem WellNamed.plant (h : s.WellNamed) {t : Tree τ} (ht : t.Shaped) :
    (Script.plant t s).2.WellNamed := by
  have planted := plant_spec t s
  intro i x hx
  by_cases hi : i < s.nodes.size
  · have hn := planted.evolves.node? (Array.getElem?_eq_getElem hi) List.not_mem_nil
    rw [node_eq hn, ← node_eq (Array.getElem?_eq_getElem hi)] at hx
    exact planted.evolves.proper (h i x hx)
  · by_cases hlt : i < (Script.plant t s).2.nodes.size
    · have mem := mem_preorder_plant t (Nat.le_of_not_lt hi) hlt
      have shaped : ((Script.plant t s).2.tree (Script.plant t s).1).Shaped := by
        rw [← shaped_retag fun _ => ()] at ht ⊢
        exact (congrArg Tree.Shaped planted.erase_eq).mpr ht
      refine (planted.rooted.of_mem_preorder mem).proper_of_shaped (fun u hu => ?_) x hx
      exact shaped u (mem_preorder_trans (planted.rooted.tree_mem_preorder mem) hu)
    · rw [node_of_size_le (Nat.le_of_not_lt hlt)] at hx
      cases hx

theorem WellNamed.setNode (h : s.WellNamed) (i : NodeId) {node : Node NodeId Sym}
    (hn : ∀ x ∈ node.identifiers, s.Proper x) : (s.setNode i node).WellNamed := by
  intro j x hx
  by_cases hj : j = i
  · subst hj
    by_cases hlt : j < s.nodes.size
    · rw [node_eq (node?_setNode hlt)] at hx
      exact hn x hx
    · rw [node_of_size_le (by simpa [Script.setNode] using Nat.le_of_not_lt hlt)] at hx
      cases hx
  · rw [node_setNode_of_ne node hj] at hx
    exact h j x hx

theorem WellNamed.push (h : s.WellNamed) (id : NodeId) : (s.push id).WellNamed := by
  unfold Script.push
  split
  · exact h.setNode root (by simp [Node.identifiers, Node.declaredNames, Node.referred])
  · exact h

/-- The table of a script that was read. -/
theorem wellNamed_read {source : String} (h : Script.read source = .ok s) : s.WellNamed := by
  obtain ⟨body, shows, -⟩ := shows_read h
  intro i x hx
  by_cases hi : i < s.nodes.size
  · have rooted := shows.rooted.of_mem_preorder (shows.mem_preorder hi)
    exact rooted.proper_of_shaped (shaped_read h i) x hx
  · rw [node_of_size_le (Nat.le_of_not_lt hi)] at hx
    cases hx

/-- A tree in a well-named script obeys the grammar if its slots do. -/
theorem WellNamed.grammatical (h : s.WellNamed) (hr : s.Rooted id)
    (fits : (s.tree id).Each Node.Fits) : (s.tree id).Grammatical := by
  intro u hu
  refine ⟨fits u hu, ?_⟩
  obtain ⟨i, hi, rfl⟩ := hr.eq_tree_of_mem_preorder hu
  rw [(hr.of_mem_preorder hi).tree_eq]
  change ∀ x ∈ ((s.node i).map s.tree s.names.text).identifiers, IsName x
  rw [Node.identifiers_map, List.forall_mem_map]
  exact fun x hx => (h i x hx).isName

end Script

end Graft
