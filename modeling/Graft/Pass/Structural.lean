import Graft.Pass.Repair

/-!
# Structural passes

A structural pass walks through a script in preorder and replaces nodes, by chance, by samples of
the same kind. What a replaced node is replaced by is walked through in turn. The declarations that
the samples need are brought in when the walk is over.

## Termination

A replacement uses up budget, and between two replacements the walk only goes down. So a visit is
bounded by the budget first and by the height of the tree below second, and a replacement sets the
height anew to that of the grown script.
-/

namespace Graft

open Chance (Stream Draw Probability)

namespace Work

variable {σ : Type}

/-- Put a sample of the node's kind in its place, if the sampler finds one. The result tells whether
it did. -/
def splice (sampler : Sampler σ) (id : NodeId) : Work σ Bool := do
  let b ← get
  match ← ask (sampler (b.script.kind id) b.pass.enclosure) with
  | none => return false
  | some sample =>
    let copy ← onScript (Script.copy sample.entry.script sample.node)
    prepare copy sample.entry
    onScript (modify (·.replace id copy))
    onPass fun _ p => p.recordMutation
    return true

/-- Whether a node is to be replaced: it has to be a site, there has to be budget, and chance has
to have it so. -/
def chosen (chance : Probability) (id : NodeId) (replaceable : Bool) : Work σ Bool := do
  let b ← get
  if replaceable && (b.script.kind id).isSite && b.pass.hasBudget then draw (Draw.bool chance)
  else return false

/-- The children of a node with whether they may be replaced. The left side of a loop through a
collection may not, since not every declaration can stand there. -/
def sites (s : Script) (id : NodeId) : List (NodeId × Bool) :=
  let node := s.node id
  let fixed := match node with
    | .forIn left _ _ | .forOf left _ _ => some left
    | _ => none
  node.children.map fun child => (child, some child != fixed)

/-- Replace a node if chance and the sampler have it so. The result tells whether it was. -/
def tryReplace (sampler : Sampler σ) (chance : Probability) (id : NodeId) (replaceable : Bool) :
    Work σ Bool := do
  if ← chosen chance id replaceable then splice sampler id else return false

/-- Enter a node, visit its children as they are then, and leave it. -/
def within (visitChild : NodeId → Bool → Work σ Unit) (id : NodeId) : Work σ Unit := do
  onPass fun s p => p.enter s id
  (sites (← get).script id).forM fun (child, replaceable) => visitChild child replaceable
  onPass fun s p => p.leave s id

/-- Visit a node: replace it perhaps, and then walk through what stands in its place. `budget`
bounds the replacements and `height` the levels below; both are large enough for every script
whose nodes form a tree. -/
def visit (sampler : Sampler σ) (chance : Probability) (budget height : Nat) (id : NodeId)
    (replaceable : Bool) : Work σ Unit := do
  let replaced ← if budget = 0 then pure false else tryReplace sampler chance id replaceable
  if replaced = true ∧ 0 < budget then
    let height := (← get).script.nodes.size
    within (fun child r => visit sampler chance (budget - 1) height child r) id
  else
    match height with
    | 0 => return
    | height + 1 => within (fun child r => visit sampler chance budget height child r) id
termination_by (budget, height)

/-- Walk through the whole script and bring in what its new parts need. The result is the number
of nodes that were replaced. -/
def structural (sampler : Sampler σ) (chance : Probability) : Work σ Nat := do
  let b ← get
  visit sampler chance b.pass.maxMutations b.script.nodes.size Script.root false
  discard flushImports
  return (← get).pass.mutations

end Work

/-- How often and how many nodes a structural pass replaces, and the state that it keeps from one
script to the next. -/
structure Structural (σ : Type) where
  maxMutations : Nat
  chance : Probability
  stream : Stream
  samples : σ

namespace Structural

variable {σ : Type}

/-- Run a pass over a script. The result is the number of nodes that were replaced. -/
def run (sampler : Sampler σ) (m : Structural σ) (s : Script) : Nat × Script × Structural σ :=
  let bench := { script := s, pass := .start s m.maxMutations, stream := m.stream,
                 samples := m.samples }
  let (count, b) := (Work.structural sampler m.chance).run bench
  (count, b.script, { m with stream := b.stream, samples := b.samples })

end Structural

end Graft
