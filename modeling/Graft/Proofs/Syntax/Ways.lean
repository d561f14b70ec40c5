import Graft.Proofs.Syntax.Stored

/-!
# Ways down a script

A way leads from a place along children. Places may be shared, so that several ways lead to one, and
where a node is overwritten a way may even lead back to where it was. If none does, what hangs under
a place is finite, however often its parts are shared: a way meets no place twice, so that it is no
longer than the table, and the tree that a script shows under the place is cut off nowhere.

* `Acyclic.tree_eq` - the tree under a place branches as the node of the place does
* `Acyclic.induct` - induction over what hangs under a place
* `Acyclic.mem_preorder_iff` - what is listed under a place is where a way leads
* `Rooted.treelike` - in a tree, one way leads to each place
-/

namespace Graft

namespace Script

variable {s : Script} {id i c last : NodeId} {above inside : List NodeId}

/-! ## Ways -/

/-- A way from a place down to another one. The list has the places in front of the last one. -/
inductive Way (s : Script) : NodeId → List NodeId → NodeId → Prop where
  | here (id : NodeId) : Way s id [] id
  | down {id c last : NodeId} {above : List NodeId} :
    c ∈ (s.node id).children → Way s c above last → Way s id (id :: above) last

/-- What has children is in the table. -/
theorem lt_of_mem_children (h : c ∈ (s.node i).children) : i < s.nodes.size := by
  refine lt_of_node (node?_of_ne_empty fun he => ?_)
  rw [he] at h
  cases h

namespace Way

theorem trans (h : s.Way id above i) (h' : s.Way i inside last) :
    s.Way id (above ++ inside) last := by
  induction h with
  | here => exact h'
  | down hc _ ih => exact .down hc (ih h')

/-- A way goes on to the children of its last place. -/
theorem child (h : s.Way id above i) (hc : c ∈ (s.node i).children) : s.Way id (above ++ [i]) c :=
  h.trans (.down hc (.here c))

/-- A part of a way leads to each place that the way goes through. -/
theorem exists_front (h : s.Way id above last) (hi : i ∈ above) : ∃ front, s.Way id front i := by
  induction h with
  | here => cases hi
  | @down id c last above hc _ ih =>
    rcases List.mem_cons.1 hi with rfl | hi
    · exact ⟨[], .here i⟩
    · obtain ⟨front, hf⟩ := ih hi
      exact ⟨id :: front, .down hc hf⟩

theorem lt_of_mem (h : s.Way id above last) (hi : i ∈ above) : i < s.nodes.size := by
  induction h with
  | here => cases hi
  | down hc _ ih =>
    rcases List.mem_cons.1 hi with rfl | hi
    · exact lt_of_mem_children hc
    · exact ih hi

end Way

/-! ## Places without ways back -/

/-- No way down from a place comes back to where it was. -/
def Acyclic (s : Script) (id : NodeId) : Prop :=
  ∀ above i inside, s.Way id above i → s.Way i inside i → inside = []

/-- Where every child ranks below its parent, no way comes back. -/
theorem acyclic_of_rank (rank : NodeId → Nat)
    (h : ∀ i < s.nodes.size, ∀ c ∈ (s.node i).children, rank c < rank i) (id : NodeId) :
    s.Acyclic id := by
  have falls : ∀ {i inside last}, s.Way i inside last → rank last + inside.length ≤ rank i := by
    intro i inside last hw
    induction hw with
    | here => simp
    | @down i c last inside hc _ ih =>
      have step := h i (lt_of_mem_children hc) c hc
      simp only [List.length_cons]
      omega
  intro above i inside _ hw
  have := falls hw
  exact List.length_eq_zero_iff.1 (by omega)

namespace Acyclic

theorem of_way (h : s.Acyclic id) (hw : s.Way id above i) : s.Acyclic i :=
  fun _ _ _ hf hb => h _ _ _ (hw.trans hf) hb

theorem child (h : s.Acyclic id) (hc : c ∈ (s.node id).children) : s.Acyclic c :=
  h.of_way (.down hc (.here c))

/-- A way meets no place twice. -/
theorem nodup_way (h : s.Acyclic id) (hw : s.Way id above last) : (above ++ [last]).Nodup := by
  induction hw with
  | here => simp
  | @down id c last above hc hw ih =>
    refine List.nodup_cons.2 ⟨fun hm => ?_, ih (h.child hc)⟩
    obtain ⟨front, back⟩ : ∃ front, s.Way c front id := by
      rcases List.mem_append.1 hm with hm | hm
      · exact hw.exists_front hm
      · obtain rfl := List.mem_singleton.1 hm
        exact ⟨above, hw⟩
    cases h [] id (id :: front) (.here id) (.down hc back)

/-- A way to a place of the table has fewer places in front than the table has places. -/
theorem length_lt (h : s.Acyclic id) (hw : s.Way id above last) (hlast : last < s.nodes.size) :
    above.length < s.nodes.size := by
  have known : above ++ [last] ⊆ List.range s.nodes.size := by
    intro i hi
    rw [List.mem_range]
    rcases List.mem_append.1 hi with hi | hi
    · exact hw.lt_of_mem hi
    · obtain rfl := List.mem_singleton.1 hi
      exact hlast
  have := (List.subperm_of_subset (h.nodup_way hw) known).length_le
  simp at this
  omega

/-- Where a way leaves no more places than a depth, more depth shows no more. -/
theorem treeToDepth_add (h : s.Acyclic id) (hw : s.Way id above i) {depth : Nat}
    (hd : s.nodes.size ≤ depth + above.length) (more : Nat) :
    s.treeToDepth (depth + more) i = s.treeToDepth depth i := by
  induction depth generalizing above i with
  | zero =>
    -- the way has met all places of the table, so that the place where it ends is none of them
    have outside : ¬ i < s.nodes.size := by
      intro hi
      have := h.length_lt hw hi
      omega
    have empty : s.node i = .empty := by
      by_contra hne
      exact outside (lt_of_node (node?_of_ne_empty hne))
    cases more with
    | zero => rfl
    | succ more =>
      rw [Nat.zero_add, treeToDepth, treeToDepth, empty]
      rfl
  | succ depth ih =>
    rw [Nat.succ_add, treeToDepth, treeToDepth]
    refine congrArg (Tree.mk i) (Node.map_congr_parts (fun c hc => ?_) fun _ _ => rfl)
    refine ih (hw.child hc) ?_
    simp only [List.length_append, List.length_singleton]
    omega

/-- The tree under a place branches as its node does. -/
theorem tree_eq (h : s.Acyclic id) : s.tree id = .mk id ((s.node id).map s.tree s.names.text) :=
  calc s.tree id = s.treeToDepth (s.nodes.size + 1) id :=
        (h.treeToDepth_add (.here id) (Nat.le_add_right _ _) 1).symm
    _ = .mk id ((s.node id).map s.tree s.names.text) := rfl

theorem children_eq (h : s.Acyclic id) :
    (s.tree id).children = (s.node id).children.map s.tree := by
  rw [h.tree_eq]
  exact Node.children_map _ _ _

/-- What holds of a place whenever it holds of the children holds of every place without ways
back. -/
theorem induct {motive : (id : NodeId) → s.Acyclic id → Prop}
    (step : ∀ id (h : s.Acyclic id),
      (∀ c (hc : c ∈ (s.node id).children), motive c (h.child hc)) → motive id h)
    (h : s.Acyclic id) : motive id h := by
  have all : ∀ t : Tree NodeId, ∀ i (hi : s.Acyclic i), s.tree i = t → motive i hi := by
    intro t
    induction t using Tree.induct with
    | step t ih =>
      rintro i hi rfl
      refine step i hi fun c hc => ih (s.tree c) ?_ c (hi.child hc) rfl
      rw [hi.children_eq]
      exact List.mem_map_of_mem hc
  exact all _ id h rfl

theorem preorder_eq (h : s.Acyclic id) :
    s.preorder id = id :: (s.node id).children.flatMap s.preorder := by
  rw [preorder_eq_tags, h.tree_eq, Tree.tags_mk, Node.children_map, List.flatMap_map]
  rfl

/-- What is listed under a place is where a way leads. -/
theorem mem_preorder_iff (h : s.Acyclic id) : i ∈ s.preorder id ↔ ∃ above, s.Way id above i := by
  induction h using induct with
  | step id h ih =>
    rw [h.preorder_eq, List.mem_cons, List.mem_flatMap]
    constructor
    · rintro (rfl | ⟨c, hc, hi⟩)
      · exact ⟨[], .here i⟩
      · obtain ⟨above, hw⟩ := (ih c hc).1 hi
        exact ⟨id :: above, .down hc hw⟩
    · rintro ⟨above, hw⟩
      cases hw with
      | here => exact .inl rfl
      | down hc hw => exact .inr ⟨_, hc, (ih _ hc).2 ⟨_, hw⟩⟩

end Acyclic

/-! ## Trees -/

/-- What hangs under a place is a tree: one way leads to each place, and no node has a child
twice. -/
structure Treelike (s : Script) (id : NodeId) : Prop where
  way_unique : ∀ {above above' i}, s.Way id above i → s.Way id above' i → above = above'
  children_nodup : ∀ {above i}, s.Way id above i → (s.node i).children.Nodup

namespace Rooted

theorem of_way (h : s.Rooted id) (hw : s.Way id above i) : s.Rooted i := by
  induction hw with
  | here => exact h
  | down hc _ ih => exact ih (h.child hc)

/-- A tree gets smaller along a way. -/
theorem size_way (h : s.Rooted id) (hw : s.Way id above i) :
    (s.tree i).size + above.length ≤ (s.tree id).size := by
  induction hw with
  | here => simp
  | @down id c i above hc _ ih =>
    have smaller : (s.tree c).size < (s.tree id).size := by
      refine Tree.size_lt_of_mem_children ?_
      rw [h.children_eq]
      exact List.mem_map_of_mem hc
    have := ih (h.child hc)
    simp only [List.length_cons]
    omega

/-- No way in a tree comes back. -/
theorem acyclic (h : s.Rooted id) : s.Acyclic id := by
  intro above i inside hw back
  have := (h.of_way hw).size_way back
  exact List.length_eq_zero_iff.1 (by omega)

/-- One way leads to each place of a tree. -/
theorem way_unique (h : s.Rooted id) (hw : s.Way id above i) (hw' : s.Way id inside i) :
    above = inside := by
  induction hw generalizing inside with
  | here id => exact (h.acyclic _ _ _ (.here id) hw').symm
  | @down id c i above hc hw ih =>
    cases hw' with
    | here => exact h.acyclic _ _ _ (.here _) (.down hc hw)
    | @down _ d _ inside hd hw' =>
      -- the place would be under different children, and these are apart
      have same : c = d := by
        by_contra hne
        exact h.disjoint hc hd hne ((h.child hc).acyclic.mem_preorder_iff.2 ⟨_, hw⟩)
          ((h.child hd).acyclic.mem_preorder_iff.2 ⟨_, hw'⟩)
      subst same
      rw [ih (h.child hc) hw']

/-- No node of a tree has a child twice. -/
theorem children_nodup (h : s.Rooted id) : (s.node id).children.Nodup := by
  have apart := (List.nodup_flatMap.1 (List.nodup_cons.1 h.branches.apart).2).2
  refine apart.imp fun {c d} disjoint hcd => ?_
  subst hcd
  exact disjoint (mem_preorder_self s c) (mem_preorder_self s c)

theorem treelike (h : s.Rooted id) : s.Treelike id :=
  ⟨h.way_unique, fun hw => (h.of_way hw).children_nodup⟩

end Rooted

end Script

end Graft
