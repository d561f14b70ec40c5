import Graft.Mutation.Mutator
import Graft.Proofs.Chance.Certain
import Graft.Proofs.Control
import Graft.Proofs.Pass.Local
import Graft.Proofs.Reading.Program
import Graft.Proofs.Scope.Declarations

/-!
# What the pass over operators leaves alone

The pass goes through the places that it listed before its first change. No place is listed twice,
so that each node is left or exchanged as it was found, and the places and kinds of all nodes stay.

* `Script.Alike` - tables that differ in neither kinds nor children
* `Passes` - a pass as what it does at each of its places
* `Passes.reoperated`, `Passes.count_le` - what changes, and how often
* `operators_frame` - a run of the pass over a program
-/

namespace Graft

open Chance (Stream Probability)
open NodeChange (Operated operator everywhere atEach operated_of_mem run_bind run_exchange)
open Script (root)

/-- Whether a node has an operator that may be exchanged: any operator but those that are words. -/
def Node.exchangeable {α ν : Type} : Node α ν → Bool
  | binary .. | logical .. | assign .. | update .. => true
  | unary op _ => !op.isKeyword
  | _ => false

theorem Node.exchangeable_of_operated {old new : Node NodeId Sym} (h : Operated old new) :
    old.exchangeable := by
  cases h with
  | unary hop _ => simpa [exchangeable] using (UnaryOp.isKeyword_eq_false_iff _).2 hop
  | _ => rfl

/-! ## Single nodes -/

section Single

variable {node new : Node NodeId Sym} {chance : Probability} {stream : Stream}

theorem exchangeable_of_mem (h : new ∈ (operator chance node stream).1) : node.exchangeable :=
  Node.exchangeable_of_operated (operated_of_mem h)

theorem exchange_always_ne_none {op : Type} {choices : List op} (h : choices ≠ [])
    (make : op → Node NodeId Sym) (stream : Stream) :
    (NodeChange.exchange .always choices make stream).1 ≠ none := by
  obtain ⟨o, -, ho⟩ := exists_mem_choose h stream
  rw [run_exchange, bool_always]
  simp [ho]

theorem exchange_never {op : Type} (choices : List op) (make : op → Node NodeId Sym)
    (stream : Stream) : (NodeChange.exchange .never choices make stream).1 = none := by
  rw [run_exchange, bool_never]

/-- What always happens happens to every operator that may be exchanged. -/
theorem operator_always_ne_none (h : node.exchangeable) (stream : Stream) :
    (operator .always node stream).1 ≠ none := by
  cases node with
  | binary op lhs rhs => exact exchange_always_ne_none (List.ne_nil_of_mem op.mem_family) _ _
  | logical | assign | update => exact exchange_always_ne_none (by decide) _ _
  | unary op arg =>
    rw [operator, if_neg (by simpa [Node.exchangeable] using h)]
    exact exchange_always_ne_none (by decide) _ _
  | _ => cases h

theorem operator_never (node : Node NodeId Sym) (stream : Stream) :
    (operator .never node stream).1 = none := by
  cases node with
  | binary | logical | assign | update => exact exchange_never _ _ _
  | unary op arg =>
    rw [operator]
    split
    · rfl
    · exact exchange_never _ _ _
  | _ => rfl

end Single

/-! ## Tables alike -/

namespace Script

variable {s s' : Script}

/-- Tables with nodes of the same kinds and with the same children at the same places. -/
structure Alike (s s' : Script) : Prop where
  size_eq : s'.nodes.size = s.nodes.size
  kind_eq : ∀ id, (s'.node id).kind = (s.node id).kind
  children_eq : ∀ id, (s'.node id).children = (s.node id).children

theorem Alike.admissible_treeToDepth (h : s.Alike s') (depth : Nat) (id : NodeId) (e : Enclosure) :
    (s'.treeToDepth depth id).admissible e = (s.treeToDepth depth id).admissible e := by
  induction depth generalizing id e with
  | zero => rfl
  | succ depth ih =>
    rw [treeToDepth, treeToDepth, Tree.admissible_mk, Tree.admissible_mk, Node.kind_map,
      Node.kind_map, Node.children_map, Node.children_map, h.kind_eq, h.children_eq, List.all_map,
      List.all_map]
    refine congrArg (_ && ·) (congrArg (List.all _) (funext fun c => ?_))
    exact ih c _

theorem Alike.tags_treeToDepth (h : s.Alike s') (depth : Nat) (id : NodeId) :
    (s'.treeToDepth depth id).tags = (s.treeToDepth depth id).tags := by
  induction depth generalizing id with
  | zero => rfl
  | succ depth ih =>
    rw [treeToDepth, treeToDepth, Tree.tags_mk, Tree.tags_mk, Node.children_map, Node.children_map,
      h.children_eq, List.flatMap_map, List.flatMap_map]
    exact congrArg (id :: ·) (List.flatMap_congr fun c _ => ih c)

/-- What may stand where depends on kinds and children alone. -/
theorem Alike.admissible_eq (h : s.Alike s') (id : NodeId) (e : Enclosure) :
    s'.admissible id e = s.admissible id e := by
  rw [admissible, admissible, tree, tree, h.size_eq, h.admissible_treeToDepth]

/-- What can be reached depends on the children alone. -/
theorem Alike.preorder_eq (h : s.Alike s') (id : NodeId) : s'.preorder id = s.preorder id := by
  rw [preorder_eq_tags, preorder_eq_tags, tree, tree, h.size_eq, h.tags_treeToDepth]

/-- The later script has other operators at some of the given places, and is else the same. -/
structure Reoperated (ids : List NodeId) (s s' : Script) : Prop where
  names_eq : s'.names = s.names
  size_eq : s'.nodes.size = s.nodes.size
  node? : ∀ id, s'.nodes[id]? = s.nodes[id]? ∨ id ∈ ids ∧ Operated (s.node id) (s'.node id)

namespace Reoperated

variable {ids : List NodeId}

/-- What does not see operators sees no change. -/
theorem congr {β : Type} (h : s.Reoperated ids s') (f : Node NodeId Sym → β)
    (same : ∀ old new, Operated old new → f new = f old) (id : NodeId) :
    f (s'.node id) = f (s.node id) := by
  rcases h.node? id with he | ⟨-, ho⟩
  · rw [node_congr he]
  · exact same _ _ ho

theorem alike (h : s.Reoperated ids s') : s.Alike s' where
  size_eq := h.size_eq
  kind_eq := h.congr Node.kind fun _ _ ho => by cases ho <;> rfl
  children_eq := h.congr Node.children fun _ _ ho => by cases ho <;> rfl

/-- An operator declares nothing. -/
theorem declaredNames_eq (h : s.Reoperated ids s') (id : NodeId) :
    (s'.node id).declaredNames = (s.node id).declaredNames :=
  h.congr Node.declaredNames (fun _ _ ho => by cases ho <;> rfl) id

theorem ofScript_eq (h : s.Reoperated ids s') :
    ScopeIndex.ofScript s' = ScopeIndex.ofScript s := by
  unfold ScopeIndex.ofScript
  dsimp only
  rw [h.alike.preorder_eq]
  congr 1
  · exact List.filterMap_congr fun i _ => by rw [h.declaredNames_eq]
  -- a declaration of a function or a class has no operator
  all_goals
    refine List.filterMap_congr fun i _ => ?_
    rcases h.node? i with he | ⟨-, ho⟩
    · rw [node_congr he]
    · generalize s.node i = old, s'.node i = new at ho ⊢
      cases ho <;> rfl

end Reoperated

end Script

/-! ## Places one after the other -/

/-- What a pass does at different places, one after the other: it leaves the node there, or puts
another in its place and counts it. -/
inductive Passes (step : NodeChange) : List NodeId → Script → Nat → Script → Prop where
  | done (s : Script) : Passes step [] s 0 s
  | left {id : NodeId} {ids : List NodeId} {s s' : Script} {count : Nat} {stream : Stream} :
    (step (s.node id) stream).1 = none → Passes step ids s count s' →
    Passes step (id :: ids) s count s'
  | changed {id : NodeId} {ids : List NodeId} {s s' : Script} {count : Nat} {stream : Stream}
    {new : Node NodeId Sym} : new ∈ (step (s.node id) stream).1 →
    Passes step ids (s.setNode id new) count s' → Passes step (id :: ids) s (count + 1) s'

variable {s s' : Script} {ids : List NodeId} {count : Nat} {chance : Probability}

theorem passes_atEach (step : NodeChange) (ids : List NodeId) (s : Script) (stream : Stream) :
    Passes step ids s (atEach step ids s stream).1.1 (atEach step ids s stream).1.2 := by
  induction ids generalizing s stream with
  | nil => exact .done s
  | cons id ids ih =>
    rw [atEach, run_bind]
    cases hstep : step (s.node id) stream with
    | mk found stream' =>
      cases found with
      | none => exact .left (congrArg Prod.fst hstep) (ih s stream')
      | some new => exact .changed (congrArg Prod.fst hstep) (ih (s.setNode id new) stream')

namespace Passes

/-- Places that the pass does not come to keep their nodes. -/
theorem elsewhere {step : NodeChange} (h : Passes step ids s count s') {i : NodeId}
    (hi : i ∉ ids) : s'.nodes[i]? = s.nodes[i]? := by
  induction h with
  | done => rfl
  | left _ _ ih => exact ih fun hm => hi (List.mem_cons_of_mem _ hm)
  | @changed id ids s s' count stream new _ _ ih =>
    have hne : id ≠ i := fun he => hi (he ▸ List.mem_cons_self ..)
    rw [ih fun hm => hi (List.mem_cons_of_mem _ hm), Script.setNode,
      Array.getElem?_setIfInBounds_ne hne]

/-- The pass exchanges operators at its places and does nothing else. -/
theorem reoperated (h : Passes (operator chance) ids s count s') (hd : ids.Nodup)
    (hlt : ∀ id ∈ ids, id < s.nodes.size) : s.Reoperated ids s' := by
  induction h with
  | done s => exact ⟨rfl, rfl, fun _ => .inl rfl⟩
  | left _ _ ih =>
    obtain ⟨-, hd⟩ := List.nodup_cons.1 hd
    obtain ⟨names, size, nodes⟩ := ih hd fun i hi => hlt i (List.mem_cons_of_mem _ hi)
    exact ⟨names, size, fun i => (nodes i).imp_right (And.imp_left (List.mem_cons_of_mem _))⟩
  | @changed id ids s s' count stream new hnew passes ih =>
    obtain ⟨hid, hd⟩ := List.nodup_cons.1 hd
    have grown : (s.setNode id new).nodes.size = s.nodes.size := Array.size_setIfInBounds
    obtain ⟨names, size, nodes⟩ := ih hd fun i hi =>
      grown ▸ hlt i (List.mem_cons_of_mem _ hi)
    refine ⟨names, size.trans grown, fun i => ?_⟩
    by_cases hi : i = id
    · subst hi
      have here : s'.node i = new := Script.node_eq <| by
        rw [passes.elsewhere hid, Script.node?_setNode (hlt i (List.mem_cons_self ..))]
      exact .inr ⟨List.mem_cons_self .., here ▸ operated_of_mem hnew⟩
    · rcases nodes i with he | ⟨hm, ho⟩
      · refine .inl (he.trans ?_)
        rw [Script.setNode, Array.getElem?_setIfInBounds_ne (Ne.symm hi)]
      · rw [Script.node_setNode_of_ne new hi] at ho
        exact .inr ⟨List.mem_cons_of_mem _ hm, ho⟩

/-- Behind the first place, what is exchanged there is not seen. -/
theorem node_behind {id : NodeId} (hid : id ∉ ids) (new : Node NodeId Sym) :
    ∀ i ∈ ids, (s.setNode id new).node i = s.node i := fun _ hi =>
  Script.node_setNode_of_ne new fun he => hid (he ▸ hi)

/-- At least the nodes that changed are counted, and at most those that have an operator. -/
theorem count_le (h : Passes (operator chance) ids s count s') (hd : ids.Nodup) :
    (ids.countP fun i => s'.node i ≠ s.node i) ≤ count ∧
      count ≤ ids.countP fun i => (s.node i).exchangeable := by
  induction h with
  | done s => exact ⟨Nat.le_refl _, Nat.le_refl _⟩
  | @left id ids s s' count stream _ passes ih =>
    obtain ⟨hid, hd⟩ := List.nodup_cons.1 hd
    obtain ⟨lower, upper⟩ := ih hd
    have same : s'.node id = s.node id := Script.node_congr (passes.elsewhere hid)
    rw [List.countP_cons, List.countP_cons]
    exact ⟨by simpa [same] using lower, Nat.le_add_right_of_le upper⟩
  | @changed id ids s s' count stream new hnew _ ih =>
    obtain ⟨hid, hd⟩ := List.nodup_cons.1 hd
    have behind := node_behind (s := s) hid new
    obtain ⟨lower, upper⟩ := ih hd
    rw [List.countP_congr fun i hi => by rw [behind i hi]] at lower upper
    have here := exchangeable_of_mem hnew
    rw [List.countP_cons, List.countP_cons, if_pos here]
    refine ⟨?_, Nat.succ_le_succ upper⟩
    split
    · exact Nat.succ_le_succ lower
    · exact Nat.le_succ_of_le lower

/-- What always happens happens at every operator. -/
theorem count_always (h : Passes (operator .always) ids s count s') (hd : ids.Nodup) :
    count = ids.countP fun i => (s.node i).exchangeable := by
  induction h with
  | done s => rfl
  | @left id ids s s' count stream hstep _ ih =>
    obtain ⟨-, hd⟩ := List.nodup_cons.1 hd
    have here : ¬ (s.node id).exchangeable := fun he =>
      operator_always_ne_none he stream hstep
    rw [List.countP_cons, if_neg here, ih hd]
    rfl
  | @changed id ids s s' count stream new hnew _ ih =>
    obtain ⟨hid, hd⟩ := List.nodup_cons.1 hd
    have behind := node_behind (s := s) hid new
    rw [List.countP_cons, if_pos (exchangeable_of_mem hnew), ih hd,
      List.countP_congr fun i hi => by rw [behind i hi]]

theorem count_never (h : Passes (operator .never) ids s count s') : count = 0 ∧ s' = s := by
  induction h with
  | done s => exact ⟨rfl, rfl⟩
  | left _ _ ih => exact ih
  | @changed id ids s s' count stream new hnew _ _ =>
    rw [operator_never] at hnew
    cases hnew

end Passes

/-! ## A run of the pass -/

/-- What a run of the pass with a chance `p` makes of a program, and what it returns. -/
structure Exchanges (p : Float) (s : Script) (count : Nat) (s' : Script) : Prop where
  names_eq : s'.names = s.names
  size_eq : s'.nodes.size = s.nodes.size
  /-- Only nodes under the root change, and these in their operators: a binary operator for one of
  its family, a sign in front of an operand for a sign. -/
  node? : ∀ id, s'.nodes[id]? = s.nodes[id]? ∨
    id ∈ s.preorder root ∧ Operated (s.node id) (s'.node id)
  /-- At least the nodes of the table that changed are counted. -/
  le_count : ((List.range s.nodes.size).countP fun id => s'.node id ≠ s.node id) ≤ count
  /-- At most the nodes under the root are counted whose operators may be exchanged. -/
  count_le : count ≤ (s.preorder root).countP fun id => (s.node id).exchangeable
  all : 1.0 ≤ p → count = (s.preorder root).countP fun id => (s.node id).exchangeable
  none : p ≤ 0.0 → count = 0 ∧ s' = s
  admissible_eq : ∀ id e, s'.admissible id e = s.admissible id e
  declaredNames_eq : ∀ id, (s'.node id).declaredNames = (s.node id).declaredNames
  index_eq : ScopeIndex.ofScript s' = ScopeIndex.ofScript s

/-- The pass over operators, over any program whose nodes are a tree, with any chance and any
stream. It changes nothing but operators that are no words, each inside its family, and counts no
fewer nodes than have changed and no more than could; with a chance of one or more it counts them
all, and with one of zero or less none, and the program stays as it is. Whether a tree may stand at
a point, what a node declares, and the index of declarations are the same before and after. -/
theorem operators_frame {s : Script} (h : s.Rooted root) (p : Float) (stream : Stream) :
    let result := Local.run operator ⟨.ofFloat p, stream⟩ s
    Exchanges p s result.1 result.2.1 := by
  intro result
  have passes : Passes (operator (.ofFloat p)) (s.preorder root) s result.1 result.2.1 :=
    passes_atEach _ _ s stream
  have frame := passes.reoperated h.nodup h.places_lt
  obtain ⟨lower, upper⟩ := passes.count_le h.nodup
  refine ⟨frame.names_eq, frame.size_eq, frame.node?, Nat.le_trans ?_ lower, upper, fun hp => ?_,
    fun hp => ?_, frame.alike.admissible_eq, frame.declaredNames_eq, frame.ofScript_eq⟩
  · -- what changed can be reached
    rw [List.countP_eq_length_filter, List.countP_eq_length_filter]
    refine (List.subperm_of_subset (List.nodup_range.filter _) fun i hi => ?_).length_le
    obtain ⟨-, hne⟩ := List.mem_filter.1 hi
    refine List.mem_filter.2 ⟨?_, hne⟩
    rcases frame.node? i with he | ⟨hm, -⟩
    · exact absurd (Script.node_congr he) (by simpa using hne)
    · exact hm
  · rw [ofFloat_of_one_le hp] at passes
    exact passes.count_always h.nodup
  · rw [ofFloat_of_le_zero hp] at passes
    exact passes.count_never

/-- Of four operators, the one that is a word is left alone. -/
theorem operators_frame_always : ∃ s, Script.read "x = a + typeof -b;" = .ok s ∧
    s.Rooted root ∧ (1.0 : Float) ≤ 1.0 ∧
    let result := Local.run operator ⟨.ofFloat 1.0, .seeded 7⟩ s
    Exchanges 1.0 s result.1 result.2.1 ∧ result.1 = 3 := by
  obtain ⟨s, hs, shown⟩ : ∃ s, Script.read "x = a + typeof -b;" = .ok s ∧
      decide (((s.preorder root).countP fun id => (s.node id).exchangeable) = 3) = true :=
    exists_read (by decide +kernel)
  obtain ⟨body, shows, -⟩ := shows_read hs
  have always : (1.0 : Float) ≤ 1.0 := by decide
  have frame := operators_frame shows.rooted 1.0 (.seeded 7)
  exact ⟨s, hs, shows.rooted, always, frame, (frame.all always).trans (of_decide_eq_true shown)⟩

end Graft
