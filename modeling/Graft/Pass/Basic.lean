import Graft.Corpus.Entry
import Graft.Scope.Visible

/-!
# The state of a structural pass

A pass walks once through a script and replaces nodes on its way. It knows what is visible where
it stands, what is around that point, how many nodes it may still replace, which declarations have
to be brought into the script at the end, and the declarations that the script has already. The
index of these is made anew only when the script has changed since it was made.

* `Pass.enter`, `Pass.leave` - walking into a node and out of it
* `Pass.refresh` - the pass with an index of the script as it is
-/

namespace Graft

open Chance (Stream Draw)

/-- A declaration of an entry that is to be copied into the script. -/
structure Import where
  declaration : NodeId
  source : Entry
deriving Repr, DecidableEq

/-- What a pass knows about the script that it walks through. -/
structure Pass where
  mutations : Nat
  maxMutations : Nat
  scope : Scope
  /-- What is around the nodes that have been entered, innermost first. -/
  enclosures : List Enclosure
  /-- The imports in the order in which they were asked for, under the names that they declare. -/
  pending : List (Sym × Import)
  index : ScopeIndex
  /-- The script has changed since the index was made. -/
  stale : Bool
deriving Repr, DecidableEq

namespace Pass

/-- Before the first step through a script. -/
def start (s : Script) (maxMutations : Nat) : Pass :=
  { mutations := 0
    maxMutations
    scope := .empty
    enclosures := []
    pending := []
    index := .ofScript s
    stale := false }

/-- Whether another node may be replaced. -/
def hasBudget (p : Pass) : Bool :=
  p.mutations < p.maxMutations

/-- Note that a node was replaced. -/
def recordMutation (p : Pass) : Pass :=
  { p with mutations := p.mutations + 1, stale := true }

/-- Note that the script changed otherwise. -/
def markStale (p : Pass) : Pass :=
  { p with stale := true }

/-- Make the index anew if the script has changed. -/
def refresh (s : Script) (p : Pass) : Pass :=
  if p.stale then { p with index := .ofScript s, stale := false } else p

/-- What is around the current point. -/
def enclosure (p : Pass) : Enclosure :=
  p.enclosures.headD .outermost

/-- What a walk knows of a function that it enters. -/
def identityOf {α : Type} : Node α Sym → FunctionIdentity
  | .functionDecl name _ _ | .functionExpr (some name) _ _ => .named name
  | _ => .anonymous

/-- Walk into a node. A function opens a layer of names, but its own name and its parameters are not
tracked; any other node makes visible what it declares. -/
def enter (s : Script) (id : NodeId) (p : Pass) : Pass :=
  let node := s.node id
  let p :=
    if node.kind.isFunction then { p with scope := p.scope.enterFunction (identityOf node) }
    else
      let p := p.refresh s
      { p with scope := p.scope.declare (p.index.declaredBy id) }
  { p with enclosures := p.enclosure.enter node.kind :: p.enclosures }

/-- Walk out of the node that was entered last. -/
def leave (s : Script) (id : NodeId) (p : Pass) : Pass :=
  let p := if (s.kind id).isFunction then { p with scope := p.scope.exitFunction } else p
  { p with enclosures := p.enclosures.tail }

end Pass

/-- A script on which a pass is at work, with the stream that it draws from and the state of its
sampler. -/
structure Bench (σ : Type) where
  script : Script
  pass : Pass
  stream : Stream
  samples : σ

/-- An action of a pass. -/
abbrev Work (σ : Type) := StateM (Bench σ)

namespace Work

variable {σ α : Type}

/-- Change or extend the script. -/
def onScript (action : StateM Script α) : Work σ α :=
  modifyGet fun b => let (a, script) := action b.script; (a, { b with script })

/-- Change the pass in view of the script. -/
def onPass (f : Script → Pass → Pass) : Work σ Unit :=
  modify fun b => { b with pass := f b.script b.pass }

/-- Draw from the stream. -/
def draw (action : Draw α) : Work σ α :=
  modifyGet fun b => let (a, stream) := action b.stream; (a, { b with stream })

/-- Ask the sampler. -/
def ask (action : StateT σ Draw α) : Work σ α :=
  modifyGet fun b =>
    let ((a, samples), stream) := action b.samples b.stream
    (a, { b with samples, stream })

end Work

end Graft
