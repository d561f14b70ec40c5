import Graft.Proofs.Control
import Graft.Proofs.Grammar.Stored
import Graft.Proofs.Printing.Text

/-!
# Copies

A copy of what hangs under a place is made node by node: the children are copied and the names are
interned in source order, and then the node is stored. What was shared is copied each time that a way
leads to it, so that the copy is a tree at new places, whatever the original was. It unfolds the
original, and therefore it is printed the same and may stand where the original may.

* `Unfolds` - what hangs under a place of one script, unfolded in another
* `Acyclic.copy_eq` - a copy is made of the copies of the children
* `unfolds_copy` - a copy unfolds the original
* `copied_copy` - what a copy does to the script that it is put into
-/

namespace Graft

namespace Names

variable {names names' : Names}

/-- A name keeps its symbol where names are only added. -/
theorem lookup_of_grown (grown : ∀ x < names.size, names'.text? x = names.text? x) {name : String}
    {x : Sym} (h : names.lookup name = some x) : names'.lookup name = some x := by
  rw [lookup_eq_some_iff] at h ⊢
  obtain ⟨here, first⟩ := h
  have hx := lt_of_text? here
  refine ⟨(grown x hx).trans here, fun other ho => ?_⟩
  rw [grown other (Nat.lt_trans ho hx)]
  exact first other ho

end Names

namespace Script

variable {source s s' : Script} {place id : NodeId}

/-! ## Unfolding -/

/-- Every node refers to places of the table and to names of the script. -/
structure Valid (s : Script) : Prop where
  places : ∀ i < s.nodes.size, ∀ c ∈ (s.node i).children, c < s.nodes.size
  names : ∀ i < s.nodes.size, ∀ x ∈ (s.node i).names, x < s.names.size

/-- A symbol of a script is that of a name. -/
theorem knows_iff {x : Sym} : s.Knows x ↔ x < s.names.size := by
  constructor
  · rintro ⟨name, ht⟩
    exact Names.lt_of_text? ht
  · exact fun hx => ⟨_, Array.getElem?_eq_getElem hx⟩

theorem Valid.closed (h : s.Valid) : s.Closed := by
  intro i node hn x hx
  rw [← node_eq hn] at hx
  exact knows_iff.2 (h.names i (lt_of_node hn) x hx)

/-- What hangs under a place of one script, unfolded under a place of another one: the same nodes
down all ways, but for their places and for symbols, which are those of the same names. A node here
has two places for each child and two symbols for each name. -/
inductive Unfolds (source s : Script) : NodeId → NodeId → Prop where
  | mk {place id : NodeId} (node : Node (NodeId × NodeId) (Sym × Sym)) :
    source.nodes[place]? = some (node.map Prod.fst Prod.fst) →
    s.nodes[id]? = some (node.map Prod.snd Prod.snd) →
    (∀ x ∈ node.names, ∃ name, source.names.text? x.1 = some name ∧ s.names.text? x.2 = some name) →
    (∀ c ∈ node.children, Unfolds source s c.1 c.2) → Unfolds source s place id

/-- What is unfolded stays so when the script only grows. -/
theorem Unfolds.grown (h : source.Unfolds s place id) (he : Evolves [] s s') :
    source.Unfolds s' place id := by
  induction h with
  | mk node hp hn names _ ih =>
    refine .mk node hp (he.node? hn List.not_mem_nil) (fun x hx => ?_) ih
    obtain ⟨name, ht, ht'⟩ := names x hx
    exact ⟨name, ht, he.text? ht'⟩

/-! ## Copying -/

/-- A copy is made of the copies of the children and of the names, in source order. -/
theorem Acyclic.copy_eq (h : source.Acyclic place) : copy source place =
    (do alloc (← (source.node place).traverse (copy source)
      fun x => intern (source.names.text x))) := by
  rw [copy, h.tree_eq, plant_mk, Node.traverse_map]
  rfl

/-- What copies of the parts of a node, one after the other, give in the end. -/
theorem unfolds_of_runs {ps : List (Part (NodeId × NodeId) (Sym × Sym))}
    (h : Runs (copy source) (fun x => intern (source.names.text x)) ps s s')
    (known : ∀ x ∈ rights ps, source.Knows x.1)
    (step : ∀ c ∈ lefts ps, ∀ s, source.Unfolds (copy source c.1 s).2 c.1 (copy source c.1 s).1) :
    Evolves [] s s' ∧ (∀ c ∈ lefts ps, source.Unfolds s' c.1 c.2) ∧
      ∀ x ∈ rights ps, ∃ name, source.names.text? x.1 = some name ∧
        s'.names.text? x.2 = some name := by
  induction h with
  | nil s => exact ⟨.refl s, by simp [lefts], by simp [rights]⟩
  | @child c ps s s' _ ih =>
    obtain ⟨later, children, names⟩ := ih known fun d hd => step d (List.mem_cons_of_mem _ hd)
    have first := step (c, (copy source c s).1) List.mem_cons_self s
    refine ⟨(copy_spec source c s).evolves.trans later (by simp), ?_, names⟩
    exact List.forall_mem_cons.2 ⟨first.grown later, children⟩
  | @name x ps s s' _ ih =>
    obtain ⟨later, children, names⟩ := ih (fun y hy => known y (List.mem_cons_of_mem _ hy)) step
    refine ⟨(evolves_intern _ s).trans later (by simp), children, ?_⟩
    obtain ⟨name, ht⟩ := known (x, _) List.mem_cons_self
    have first := (text?_intern (source.names.text x) s).trans (congrArg some (text_eq ht))
    exact List.forall_mem_cons.2 ⟨⟨name, ht, later.text? first⟩, names⟩

/-- A copy unfolds the original. -/
theorem unfolds_copy (valid : source.Valid) (hp : place < source.nodes.size)
    (acyclic : source.Acyclic place) (s : Script) :
    source.Unfolds (copy source place s).2 place (copy source place s).1 := by
  induction acyclic using Acyclic.induct generalizing s with
  | step place acyclic ih =>
    obtain ⟨node, fst, snd, runs⟩ := exists_runs_traverse (f := copy source)
      (g := fun x => intern (source.names.text x)) (source.node place) s
    have run : copy source place s = alloc (node.map Prod.snd Prod.snd)
        ((source.node place).traverse (copy source) (fun x => intern (source.names.text x)) s).2 := by
      rw [acyclic.copy_eq, snd]
      rfl
    rw [run]
    generalize ((source.node place).traverse (copy source)
      (fun x => intern (source.names.text x)) s).2 = s₁ at runs
    have known : ∀ x ∈ rights node.parts, source.Knows x.1 := by
      intro x hx
      refine valid.closed.named place x.1 ?_
      rw [← fst, Node.names_map]
      exact List.mem_map_of_mem hx
    have below : ∀ c ∈ lefts node.parts, c.1 ∈ (source.node place).children := by
      intro c hc
      rw [← fst, Node.children_map, Node.children_eq_lefts]
      exact List.mem_map_of_mem hc
    obtain ⟨-, children, names⟩ := unfolds_of_runs runs known fun c hc s =>
      ih c.1 (below c hc) (valid.places place hp c.1 (below c hc)) s
    have made : s₁.Named (node.map Prod.snd Prod.snd) := by
      intro x hx
      rw [Node.names_map] at hx
      obtain ⟨y, hy, rfl⟩ := List.mem_map.1 hx
      obtain ⟨name, -, ht⟩ := names y hy
      exact ⟨name, ht⟩
    refine .mk node ?_ (node?_alloc _ s₁) names fun c hc => ?_
    · rw [fst]
      exact getElem?_of_lt hp
    · rw [Node.children_eq_lefts] at hc
      exact (children c hc).grown (evolves_alloc made)

/-! ## What a copy does -/

/-- A copy of what hangs under a place, which need not be a tree, is a tree at new places that
unfolds the original. What there was before stays at its place, and names keep their symbols. The
copy is printed as the original and may stand where it may. -/
theorem copied_copy (valid : source.Valid) (hp : place < source.nodes.size)
    (acyclic : source.Acyclic place) (s : Script) :
    let id := (copy source place s).1
    let s' := (copy source place s).2
    source.Unfolds s' place id ∧ s'.Treelike id ∧
    (∀ i, (∃ above, s'.Way id above i) ↔ s.nodes.size ≤ i ∧ i < s'.nodes.size) ∧
    (∀ i < s.nodes.size, s'.nodes[i]? = s.nodes[i]?) ∧
    (∀ x < s.names.size, s'.names.text? x = s.names.text? x) ∧
    (∀ name x, s.names.lookup name = some x → s'.names.lookup name = some x) ∧
    (s.Valid → s'.Valid) ∧
    s'.textAt id = source.textAt place ∧
    ∀ e, s'.admissible id e = source.admissible place e := by
  intro id s'
  obtain ⟨rooted, erase_eq, fresh, evolves⟩ := copy_spec source place s
  have same : ∀ x < s.names.size, s'.names.text? x = s.names.text? x := by
    intro x hx
    have ht : s.names.text? x = some _ := Array.getElem?_eq_getElem hx
    rw [ht, evolves.text? ht]
  refine ⟨unfolds_copy valid hp acyclic s, rooted.treelike, fun i => ?_,
    fun i hi => evolves.getElem?_eq hi, same, fun name x => Names.lookup_of_grown same,
    fun before => ⟨fun i hi c hc => ?_, fun i _ x hx => ?_⟩,
    Tree.text_of_erase_eq erase_eq, Tree.admissible_of_erase_eq erase_eq⟩
  · rw [← rooted.acyclic.mem_preorder_iff]
    exact ⟨fun hi => ⟨fresh i hi, rooted.places_lt i hi⟩, fun hi => mem_preorder_plant _ hi.1 hi.2⟩
  · by_cases old : i < s.nodes.size
    · rw [node_congr (evolves.getElem?_eq old)] at hc
      exact Nat.lt_of_lt_of_le (before.places i old c hc) evolves.size_le
    · have listed := mem_preorder_plant (source.tree place) (Nat.le_of_not_lt old) hi
      exact ((rooted.of_mem_preorder listed).child hc).lt
  · exact knows_iff.1 ((evolves.closed before.closed).named i x hx)

/-- A name that is used twice is stored twice when it is copied, and it gets a symbol of its own
behind those that there are. -/
theorem copied_copy_shared :
    let source : Script :=
      ⟨#[.program [3], .ident 0, .binary .add 1 1, .exprStmt 2], ⟨#["x"]⟩⟩
    let s : Script := ⟨#[.program [1], .exprStmt 2, .ident 0], ⟨#["y"]⟩⟩
    let id := (copy source 3 s).1
    let s' := (copy source 3 s).2
    source.Valid ∧ source.Acyclic 3 ∧ ¬ source.Treelike 3 ∧
    source.Unfolds s' 3 id ∧ s'.Treelike id ∧
    (∀ i, (∃ above, s'.Way id above i) ↔ 3 ≤ i ∧ i < 7) ∧
    s'.nodes[2]? = some (.ident 0) ∧ s'.names.text? 0 = some "y" ∧ s'.Valid ∧
    s'.textAt id = "x + x;" := by
  intro source s id s'
  have valid : source.Valid := ⟨by decide, by decide⟩
  have acyclic : source.Acyclic 3 :=
    acyclic_of_rank (fun i => [9, 0, 1, 2].getD i 0) (by decide) 3
  obtain ⟨unfolds, treelike, places, nodes, names, -, valid', text, -⟩ :=
    copied_copy valid (by decide) acyclic s
  refine ⟨valid, acyclic, fun h => ?_, unfolds, treelike, places, nodes 2 (by decide),
    names 0 (by decide), valid' ⟨by decide, by decide⟩, text.trans (by decide +kernel)⟩
  exact absurd (h.children_nodup (.down (by decide) (.here 2))) (by decide)

end Script

end Graft
