import Graft.Pass.Local
import Graft.Proofs.Chance.Choice
import Graft.Proofs.Syntax.Planting

/-!
# What passes over single nodes change

An operator is exchanged for an operator and a number for a number, so that kinds, children and
names of all nodes stay, and with them the shape of the script.

* `Operated`, `numbers_of_mem` - what a single change does
* `NodeChange.Keeps` - what such a change leaves alone
* `atEach_induct` - what single changes keep, a pass keeps
* `wellformed_everywhere` - a pass of such changes keeps a program a tree
-/

namespace Graft

open Chance (Draw Stream Probability)
open Script (root)

variable {α β : Type}

namespace NodeChange

variable {s : Script} {step : NodeChange}

theorem run_bind (p : Draw α) (f : α → Draw β) (stream : Stream) :
    (p >>= f) stream = f (p stream).1 (p stream).2 := rfl

/-- An exchange is decided by chance, and then its choice. -/
theorem run_exchange {op : Type} (chance : Probability) (choices : List op)
    (make : op → Node NodeId Sym) (stream : Stream) :
    exchange chance choices make stream =
      match Draw.bool chance stream with
      | (true, stream) =>
        ((Draw.choose choices stream).1.map make, (Draw.choose choices stream).2)
      | (false, stream) => (none, stream) := by
  rw [exchange, run_bind]
  rcases Draw.bool chance stream with ⟨_ | _, stream⟩ <;> rfl

/-- An exchange gives what is made of one of its choices. -/
theorem exists_of_mem_exchange {op : Type} {chance : Probability} {choices : List op}
    {make : op → Node NodeId Sym} {stream : Stream} {new : Node NodeId Sym}
    (h : new ∈ (exchange chance choices make stream).1) : ∃ o ∈ choices, new = make o := by
  rw [run_exchange] at h
  split at h
  · obtain ⟨o, ho, rfl⟩ := Option.map_eq_some_iff.1 h
    exact ⟨o, mem_of_choose ho, rfl⟩
  · cases h

/-! ## Single changes -/

/-- Nodes that differ in operators of one family. -/
inductive Operated : Node NodeId Sym → Node NodeId Sym → Prop where
  | binary {op op' : BinaryOp} {lhs rhs : NodeId} :
    op' ∈ op.family → Operated (.binary op lhs rhs) (.binary op' lhs rhs)
  | logical {op op' : LogicalOp} {lhs rhs : NodeId} :
    Operated (.logical op lhs rhs) (.logical op' lhs rhs)
  | assign {op op' : AssignOp} {target value : NodeId} :
    Operated (.assign op target value) (.assign op' target value)
  | unary {op op' : UnaryOp} {arg : NodeId} :
    op ∈ UnaryOp.symbolic → op' ∈ UnaryOp.symbolic → Operated (.unary op arg) (.unary op' arg)
  | update {op op' : UpdateOp} {leading : Bool} {arg : NodeId} :
    Operated (.update op leading arg) (.update op' leading arg)

theorem operated_of_mem {chance : Probability} {node new : Node NodeId Sym} {stream : Stream}
    (h : new ∈ (operator chance node stream).1) : Operated node new := by
  cases node with
  | binary op lhs rhs =>
    obtain ⟨o, ho, rfl⟩ := exists_of_mem_exchange h
    exact .binary ho
  | logical op lhs rhs =>
    obtain ⟨o, -, rfl⟩ := exists_of_mem_exchange h
    exact .logical
  | assign op target value =>
    obtain ⟨o, -, rfl⟩ := exists_of_mem_exchange h
    exact .assign
  | unary op arg =>
    rw [operator] at h
    by_cases hop : op.isKeyword
    · rw [if_pos hop] at h
      cases h
    · rw [if_neg hop] at h
      obtain ⟨o, ho, rfl⟩ := exists_of_mem_exchange h
      exact .unary ((UnaryOp.isKeyword_eq_false_iff op).1 (by simpa using hop)) ho
  | update op leading arg =>
    obtain ⟨o, -, rfl⟩ := exists_of_mem_exchange h
    exact .update
  | _ => cases h

theorem numbers_of_mem {chance : Probability} {node new : Node NodeId Sym} {stream : Stream}
    (h : new ∈ (number chance node stream).1) :
    ∃ raw, ∃ raw' ∈ edgeNumbers,
      node = .literal (.number raw) ∧ new = .literal (.number raw') := by
  unfold number at h
  split at h
  · obtain ⟨raw', hr, rfl⟩ := exists_of_mem_exchange h
    exact ⟨_, raw', hr, rfl, rfl⟩
  · cases h

/-- A change of nodes that leaves their kinds, children and names alone. -/
def Keeps (step : NodeChange) : Prop :=
  ∀ node stream, ∀ new ∈ (step node stream).1,
    new.kind = node.kind ∧ new.children = node.children ∧ new.names = node.names

theorem keeps_operator (chance : Probability) : (operator chance).Keeps := by
  intro node stream new h
  cases operated_of_mem h <;> exact ⟨rfl, rfl, rfl⟩

theorem keeps_number (chance : Probability) : (number chance).Keeps := by
  intro node stream new h
  obtain ⟨raw, raw', -, rfl, rfl⟩ := numbers_of_mem h
  exact ⟨rfl, rfl, rfl⟩

/-! ## Whole passes -/

/-- A node with the kind, the children and the names that stood there keeps a program a tree. -/
theorem wellformed_setNode (h : s.Wellformed) {id : NodeId} {new : Node NodeId Sym}
    (hn : new.kind = (s.node id).kind ∧ new.children = (s.node id).children ∧
      new.names = (s.node id).names) : (s.setNode id new).Wellformed := by
  obtain ⟨hk, hc, hn⟩ := hn
  have named : s.Named new := fun x hx => h.closed.named id x (hn ▸ hx)
  refine ⟨(Script.setNode_spec h.rooted named hc).1, ?_,
    (Script.evolves_setNode id named).closed h.closed⟩
  obtain ⟨body, hbody⟩ := h.program
  by_cases hid : root = id
  · subst hid
    rw [Script.node_eq (Script.node?_setNode h.rooted.lt)]
    rw [hbody] at hk
    cases new with
    | program body => exact ⟨body, rfl⟩
    | _ => cases hk
  · exact ⟨body, (Script.node_setNode_of_ne new hid).trans hbody⟩

/-- What every single change of a pass keeps, the whole pass keeps. -/
theorem atEach_induct {P : Script → Prop} {ids : List NodeId}
    (kept : ∀ s, P s → ∀ id ∈ ids, ∀ stream, ∀ new ∈ (step (s.node id) stream).1,
      P (s.setNode id new))
    (h : P s) (stream : Stream) : P (atEach step ids s stream).1.2 := by
  induction ids generalizing s stream with
  | nil => exact h
  | cons id ids ih =>
    obtain ⟨here, below⟩ : (∀ s, P s → ∀ stream, ∀ new ∈ (step (s.node id) stream).1,
        P (s.setNode id new)) ∧ ∀ s, P s → ∀ i ∈ ids, ∀ stream,
          ∀ new ∈ (step (s.node i) stream).1, P (s.setNode i new) :=
      ⟨fun s h => kept s h id (List.mem_cons_self ..),
        fun s h i hi => kept s h i (List.mem_cons_of_mem _ hi)⟩
    replace here := here s h stream
    rw [atEach, run_bind]
    revert here
    rcases step (s.node id) stream with ⟨_ | new, stream⟩
    · exact fun _ => ih below h stream
    · exact fun here => ih below (here new rfl) stream

/-- A pass that keeps kinds, children and names keeps a program a tree. -/
theorem wellformed_everywhere (keeps : step.Keeps) (h : s.Wellformed) (stream : Stream) :
    (everywhere step s stream).1.2.Wellformed :=
  atEach_induct (fun _ h _ _ stream new hnew =>
    wellformed_setNode h (keeps _ stream new hnew)) h stream

end NodeChange

end Graft
