import Graft.Pass.Basic

/-!
# Repairing borrowed trees

A tree that was copied from an entry refers to names of the script that it comes from. Names that it
declares by itself stay as they are. What it calls or constructs is looked for in the script and,
where it is missing, imported from the entry. Any other name that is not visible is renamed to a
visible one, the same name always to the same.

* `Work.prepare` - repair a copied tree
* `Work.flushImports` - bring the imports into the script
-/

namespace Graft

open Work

/-- The global names that are never renamed or imported. -/
def builtins : List String :=
  ["console", "Math", "JSON", "Object", "Function", "String", "Number", "Boolean", "Symbol",
   "BigInt", "Reflect", "Proxy", "Promise", "Date", "RegExp", "Error", "TypeError", "RangeError",
   "SyntaxError", "ReferenceError", "globalThis", "undefined", "NaN", "Infinity", "parseInt",
   "parseFloat", "isNaN", "isFinite", "print"]

/-- The global names that are constructed without a declaration of a class. -/
def builtinConstructors : List String :=
  ["Map", "Set", "Array", "WeakMap", "WeakSet", "ArrayBuffer", "DataView", "Int8Array",
   "Uint8Array", "Uint8ClampedArray", "Int16Array", "Uint16Array", "Int32Array", "Uint32Array",
   "Float32Array", "Float64Array"]

/-- The two kinds of declarations that are imported. -/
inductive Imported where
  | functionDecl
  | classDecl
deriving Repr, DecidableEq

namespace Imported

/-- The declaration of this kind under a name. -/
def find? (kind : Imported) (index : ScopeIndex) (name : Sym) : Option NodeId :=
  match kind with
  | functionDecl => index.functionNamed name
  | classDecl => index.classNamed name

/-- The declaration that a node needs if it is the target of its parent: a function to call or a
class to construct. -/
def ofTarget? (s : Script) (id : NodeId) (parent : Option NodeId) : Option Imported :=
  match parent.map s.node with
  | some (.call callee _) => if callee = id then some functionDecl else none
  | some (.newExpr callee _) => if callee = id then some classDecl else none
  | _ => none

/-- The declaration of an entry that provides a name. It will stand outside of everything, and has
to be admissible there. -/
def provider? (kind : Imported) (source : Entry) (name : String) : Option NodeId := do
  let sym ← source.script.names.lookup name
  let declaration ← kind.find? source.index sym
  if source.script.admissible declaration .outermost then some declaration else none

end Imported

namespace Pass

/-- Whether an import is pending under a name. -/
def isPending (p : Pass) (name : Sym) : Bool :=
  p.pending.any fun entry => entry.1 == name

/-- Queue the import of a name, unless the borrowed tree or the script declares it, it is queued
already or the entry does not provide it. -/
def queueImport (s : Script) (name : Sym) (kind : Imported) (source : Entry) (p : Pass) : Pass :=
  if p.scope.isBorrowed name || p.isPending name then p
  else
    let p := p.refresh s
    if (kind.find? p.index name).isSome then p
    else
      match kind.provider? source (s.names.text name) with
      | some declaration => { p with pending := p.pending ++ [(name, ⟨declaration, source⟩)] }
      | none => p

/-- Whether a name may stay as it is where it is a plain reference. -/
def resolves (s : Script) (name : Sym) (p : Pass) : Bool :=
  p.scope.visible name || builtinConstructors.contains (s.names.text name)

end Pass

/-- The new names that have been chosen in one repair; none where nothing was visible. -/
abbrev Renames := List (Sym × Option Sym)

namespace Work

variable {σ : Type}

/-- The new name of a name, chosen at its first occurrence. -/
def renamed (name : Sym) (renames : Renames) : Work σ (Option Sym × Renames) := do
  match renames.lookup name with
  | some new => return (new, renames)
  | none =>
    let new ← draw (← get).pass.scope.randomVisible
    return (new, (name, new) :: renames)

/-- Rename a plain reference that does not resolve. -/
def repairReference (id : NodeId) (name : Sym) (renames : Renames) : Work σ Renames := do
  if (← get).pass.resolves (← get).script name then return renames
  let (new, renames) ← renamed name renames
  if let some new := new then onScript (modify (·.setNode id (.ident new)))
  return renames

/-- Repair one node of a copied tree. Declared names and names of members are no identifiers, so
that every identifier is a reference. -/
def repairNode (source : Entry) (renames : Renames) (id : NodeId) (parent : Option NodeId) :
    Work σ Renames := do
  let s := (← get).script
  match s.node id with
  | .ident name =>
    if builtins.contains (s.names.text name) then return renames
    match Imported.ofTarget? s id parent with
    | some kind =>
      if kind = .functionDecl || !builtinConstructors.contains (s.names.text name) then
        onPass fun s p => p.queueImport s name kind source
      return renames
    | none => repairReference id name renames
  | _ => return renames

/-- Repair the nodes of a copied tree one after the other. -/
def repairNodes (source : Entry) :
    List (NodeId × Option NodeId) → Renames → Work σ Unit
  | [], _ => return
  | (id, parent) :: rest, renames => do
    repairNodes source rest (← repairNode source renames id parent)

/-- The nodes of a tree in preorder with their parents. -/
def family (s : Script) (root : NodeId) : List (NodeId × Option NodeId) :=
  (Tree.preorderUnder none (s.tree root)).map fun (t, parent) => (t.tag, parent.map (·.tag))

/-- Make a copied tree, which is not yet part of the script, fit for the place of the walk. -/
def prepare (root : NodeId) (source : Entry) : Work σ Unit := do
  let nodes := family (← get).script root
  onPass fun s p =>
    { p with scope := p.scope.borrow (nodes.flatMap fun n => (s.node n.1).declaredNames) }
  repairNodes source nodes []
  onPass fun _ p => { p with scope := p.scope.clearBorrowed }

/-! ## Imports -/

/-- Copy an import to the end of the script and repair it. -/
def bringIn (entry : Import) : Work σ Unit := do
  let copy ← onScript (Script.copy entry.source.script entry.declaration)
  prepare copy entry.source
  onScript (modify (·.push copy))
  onPass fun _ p => p.markStale

/-- Bring in the imports from a rank on, those included that are queued meanwhile, and give the
rank at which the queue ends. -/
def flushFrom : Nat → Nat → Work σ Nat
  | 0, rank => return rank
  | rounds + 1, rank => do
    match (← get).pass.pending[rank]? with
    | none => return rank
    | some (_, entry) =>
      bringIn entry
      flushFrom rounds (rank + 1)

/-- How long the queue can get: an import asks for imports of its own source alone, under names
that this source declares, and for none twice. -/
def flushBound (p : Pass) : Nat :=
  (p.pending.map fun entry => 1 + entry.2.source.script.nodes.size).foldr (· + ·) 0

/-- Bring the imports into the script and give their number. -/
def flushImports : Work σ Nat := do
  flushFrom (flushBound (← get).pass + 1) 0

end Work

end Graft
