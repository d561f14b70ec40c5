import Graft.Proofs.Reading.Program
import Graft.Proofs.Syntax.Ways
import Graft.Syntax.Listing

/-!
# The order of children

Everything that goes through a script takes the children of a node in one order: that in which
`children` lists them. To go through the parts of a node is to meet its children in this order and
to put the results where they were met; a listing with a stack has, behind each place, what it lists
under the children of that place, one after the other.

* `exists_trace` - how the children of a node are met
* `Tree.tagsUnder_eq` - a listing of a tree from the listings of its parts
* `Acyclic.listing_eq` - the loop with a stack lists what the tree under a place has
* `children_in_order` - both together, for a script that was read
-/

namespace Graft

open Script (root)

variable {α β ν μ τ S : Type}

/-! ## Meeting the children of a node -/

section Trace

variable {f : α → StateM S β} {g : ν → StateM S μ}

theorem lefts_map (p : α → β) (q : ν → μ) (ps : List (Part α ν)) :
    lefts (ps.map (Sum.map p q)) = (lefts ps).map p := by
  induction ps with
  | nil => rfl
  | cons part ps ih => cases part <;> simp [lefts, ih]

/-- What is noted of every call for a child, and of no call for a name, are the calls for children
in the order in which they were made. -/
theorem Runs.log_eq {trace : List (Part (α × β) (ν × μ))} {s s' : S} (h : Runs f g trace s s')
    {log : S → List (α × β)} (child : ∀ a s, log (f a s).2 = log s ++ [(a, (f a s).1)])
    (name : ∀ x s, log (g x s).2 = log s) : log s' = log s ++ lefts trace := by
  induction h with
  | nil => rw [lefts, List.append_nil]
  | child _ ih => rw [ih, child, lefts, List.append_assoc, List.singleton_append]
  | name _ ih => rw [ih, name, lefts]

/-- To go through a node is to call `f` on its children in their order; the results are the children
of a node of the same kind. -/
theorem exists_trace (f : α → StateM S β) (g : ν → StateM S μ) (n : Node α ν) (s : S) :
    ∃ trace, Runs f g trace s (n.traverse f g s).2 ∧
      (lefts trace).map Prod.fst = n.children ∧
      (lefts trace).map Prod.snd = (n.traverse f g s).1.children ∧
      (n.traverse f g s).1.kind = n.kind := by
  obtain ⟨z, before, behind, runs⟩ := exists_runs_traverse (f := f) (g := g) n s
  refine ⟨z.parts, runs, ?_, ?_, ?_⟩
  · rw [← before, Node.children_eq_lefts, Node.parts_map, lefts_map]
  · rw [← behind, Node.children_eq_lefts, Node.parts_map, lefts_map]
  · rw [← behind, Node.kind_map, ← before, Node.kind_map]

end Trace

/-! ## Listing a tree -/

namespace Tree

/-- The tags in preorder, each with that of the parent; `parent` stands beside that of the root. -/
def tagsUnder (parent : Option τ) (t : Tree τ) : List (τ × Option τ) :=
  (t.tag, parent) :: (preorderUnder none t).tail.map fun listed => (listed.1.tag, listed.2.map tag)

/-- The subtrees with their parents, each shown by its tag. -/
theorem map_preorderUnder (parent : Option (Tree τ)) (t : Tree τ) :
    (preorderUnder parent t).map (fun listed => (listed.1.tag, listed.2.map tag)) =
      tagsUnder (parent.map tag) t := by
  rw [tagsUnder, preorderUnder_eq, preorderUnder_eq]
  rfl

theorem tagsUnder_eq (parent : Option τ) (t : Tree τ) :
    tagsUnder parent t = (t.tag, parent) :: t.children.flatMap (tagsUnder (some t.tag)) := by
  rw [tagsUnder, preorderUnder_eq, List.tail_cons, List.map_flatMap]
  exact congrArg (List.cons _) (List.flatMap_congr fun c _ => map_preorderUnder (some t) c)

theorem map_fst_tagsUnder (parent : Option τ) (t : Tree τ) :
    (tagsUnder parent t).map Prod.fst = t.tags := by
  have names : (preorderUnder none t).map (fun listed => listed.1.tag) = t.tags := by
    rw [tags, ← map_fst_preorderUnder none t, List.map_map]
    rfl
  rw [← names, tagsUnder, preorderUnder_eq]
  simp

end Tree

/-! ## Listing a script -/

namespace Script

variable {s : Script} {id c p : NodeId}

/-- What is listed under a place, the place itself left out. -/
def under (s : Script) (id : NodeId) : List Offspring :=
  ((s.tree id).tagsUnder none).tail

theorem tagsUnder_tree (parent : Option NodeId) (id : NodeId) :
    (s.tree id).tagsUnder parent = (id, parent) :: s.under id := by
  rw [under, Tree.tagsUnder, Tree.tagsUnder, tag_tree]
  rfl

namespace Acyclic

theorem under_eq (h : s.Acyclic id) :
    s.under id = (s.node id).children.flatMap fun c => (c, some id) :: s.under c := by
  rw [under, Tree.tagsUnder_eq, List.tail_cons, h.children_eq, List.flatMap_map, tag_tree]
  exact List.flatMap_congr fun c _ => tagsUnder_tree (some id) c

/-- A place on top of the stack is listed with all that is under it before the next one is. -/
theorem listStack_cons (h : s.Acyclic id) (listed : Array Offspring) (parent : Option NodeId)
    (stack : List Offspring) :
    s.listStack listed ((id, parent) :: stack) =
      s.listStack (listed ++ ((id, parent) :: s.under id)) stack := by
  induction h using induct generalizing listed parent stack with
  | step id h ih =>
    -- the children on the stack are listed one after the other
    have children : ∀ cs ⊆ (s.node id).children, ∀ listed : Array Offspring,
        s.listStack listed (cs.map (·, some id) ++ stack) =
          s.listStack (listed ++ cs.flatMap fun c => (c, some id) :: s.under c) stack := by
      intro cs
      induction cs with
      | nil => intro _ listed; simp
      | cons c cs ihcs =>
        intro hsub listed
        obtain ⟨hc, hcs⟩ := List.cons_subset.1 hsub
        rw [List.map_cons, List.cons_append, ih c hc, ihcs hcs, List.flatMap_cons]
        exact congrArg (s.listStack · stack) (Array.ext' (by simp))
    rw [listStack, pushChildren_eq, children _ (List.Subset.refl _), h.under_eq]
    simp

/-- The loop ends and lists what the tree under a place has. -/
theorem listing_eq (h : s.Acyclic id) : s.listing id = some ((id, none) :: s.under id) := by
  rw [listing, h.listStack_cons, listStack]
  simp

theorem mem_under (h : s.Acyclic id) {parent : Option NodeId} (hm : (c, parent) ∈ s.under id) :
    ∃ p ∈ s.preorder id, parent = some p ∧ c ∈ (s.node p).children := by
  induction h using induct with
  | step id h ih =>
    rw [h.under_eq, List.mem_flatMap] at hm
    obtain ⟨d, hd, hm⟩ := hm
    rcases List.mem_cons.1 hm with he | hm
    · obtain ⟨rfl, rfl⟩ := Prod.mk.inj he
      exact ⟨id, mem_preorder_self s id, rfl, hd⟩
    · obtain ⟨p, hp, he, hc⟩ := ih d hd hm
      refine ⟨p, ?_, he, hc⟩
      rw [h.preorder_eq]
      exact List.mem_cons_of_mem id (List.mem_flatMap.2 ⟨d, hd, hp⟩)

end Acyclic

theorem map_fst_under (s : Script) (id : NodeId) :
    ((id, none) :: s.under id).map Prod.fst = s.preorder id := by
  rw [← tagsUnder_tree, Tree.map_fst_tagsUnder, preorder_eq_tags]

/-- In a tree a place is the child of one node. -/
theorem Rooted.parent_unique (h : s.Rooted id) {q : NodeId} (hp : p ∈ s.preorder id)
    (hq : q ∈ s.preorder id) (hc : c ∈ (s.node p).children) (hc' : c ∈ (s.node q).children) :
    q = p := by
  obtain ⟨above, hw⟩ := h.acyclic.mem_preorder_iff.1 hp
  obtain ⟨above', hw'⟩ := h.acyclic.mem_preorder_iff.1 hq
  have same := h.way_unique (hw'.child hc') (hw.child hc)
  exact (List.append_inj_right' same rfl |> List.singleton_inj.1)

end Script

/-! ## Both together -/

/-- Children have one order. Whoever goes through the parts of a node, with whatever state, calls
for the children in the order of `children` and for nothing else; what the calls give are the
children of the result in the same order, and its kind is that of the node. So a state that notes
the calls for children holds these calls behind the others. And for every place of a script that was
read, the loop with a stack ends with a listing that has the place, without a parent, in front of
the listings under its children in the order of `children`; every other place stands beside the one
node of the program whose child it is. -/
theorem children_in_order {source : String} {s : Script} (h : Script.read source = .ok s) :
    (∀ {S : Type} (f : NodeId → StateM S NodeId) (g : Sym → StateM S Sym) (n : Node NodeId Sym)
      (before : S), ∃ trace,
        Runs f g trace before (n.traverse f g before).2 ∧
        (lefts trace).map Prod.fst = n.children ∧
        (lefts trace).map Prod.snd = (n.traverse f g before).1.children ∧
        (n.traverse f g before).1.kind = n.kind ∧
        ∀ log : S → List (NodeId × NodeId), (∀ i s, log (f i s).2 = log s ++ [(i, (f i s).1)]) →
          (∀ x s, log (g x s).2 = log s) →
            log (n.traverse f g before).2 = log before ++ lefts trace) ∧
    ∃ under : NodeId → List Script.Offspring, ∀ id ∈ s.preorder root,
      s.listing id = some ((id, none) :: under id) ∧
      under id = ((s.node id).children.flatMap fun c => (c, some id) :: under c) ∧
      ((id, none) :: under id).map Prod.fst = s.preorder id ∧
      ∀ c parent, (c, parent) ∈ under id → ∃ p ∈ s.preorder id, parent = some p ∧
        c ∈ (s.node p).children ∧
          ∀ q ∈ s.preorder root, c ∈ (s.node q).children → q = p := by
  obtain ⟨body, shows, -⟩ := shows_read h
  refine ⟨fun f g n before => ?_, s.under, fun id hid => ?_⟩
  · obtain ⟨trace, runs, met, given, kind⟩ := exists_trace f g n before
    exact ⟨trace, runs, met, given, kind, fun log child name => runs.log_eq child name⟩
  · have rooted := shows.rooted.of_mem_preorder hid
    refine ⟨rooted.acyclic.listing_eq, rooted.acyclic.under_eq, s.map_fst_under id, ?_⟩
    intro c parent hm
    obtain ⟨p, hp, he, hc⟩ := rooted.acyclic.mem_under hm
    exact ⟨p, hp, he, hc, fun q hq hcq =>
      shows.rooted.parent_unique (shows.rooted.preorder_subset hid hp) hq hc hcq⟩

/-- A conditional and its three parts, each of which gets a number that is ten higher and is noted
with it. -/
theorem children_in_order_conditional : ∃ s, Script.read "if (a) b(); else c();" = .ok s ∧
    (∃ under, s.listing root = some ((root, none) :: under) ∧
      under.map Prod.fst = [8, 1, 4, 3, 2, 7, 6, 5] ∧
      ∀ c parent, (c, parent) ∈ under → ∃ p, parent = some p ∧ c ∈ (s.node p).children) ∧
    let f : NodeId → StateM (List (NodeId × NodeId)) NodeId :=
      fun i log => (i + 10, log ++ [(i, i + 10)])
    let g : Sym → StateM (List (NodeId × NodeId)) Sym := fun x log => (x, log)
    let calls := ((s.node 8).traverse f g []).2
    calls.map Prod.fst = [1, 4, 7] ∧ calls.map Prod.snd = [11, 14, 17] := by
  obtain ⟨s, hs, shown⟩ : ∃ s, Script.read "if (a) b(); else c();" = .ok s ∧
      decide (s.preorder root = [root, 8, 1, 4, 3, 2, 7, 6, 5] ∧ s.node 8 = .ifStmt 1 4 (some 7)) =
        true := exists_read (by decide +kernel)
  obtain ⟨places, conditional⟩ := of_decide_eq_true shown
  obtain ⟨meets, under, lists⟩ := children_in_order hs
  refine ⟨s, hs, ⟨under root, ?_⟩, ?_⟩
  · obtain ⟨listed, -, order, parents⟩ := lists root (by rw [places]; exact List.mem_cons_self)
    rw [places] at order
    refine ⟨listed, (List.cons.inj order).2, fun c parent hm => ?_⟩
    obtain ⟨p, -, he, hc, -⟩ := parents c parent hm
    exact ⟨p, he, hc⟩
  · intro f g calls
    obtain ⟨trace, -, met, given, -, noted⟩ := meets f g (s.node 8) []
    have called : calls = lefts trace := noted id (fun _ _ => rfl) (fun _ _ => rfl)
    rw [called, met, given, conditional]
    exact ⟨rfl, rfl⟩

end Graft
