import Graft.Proofs.Pass.Turn

/-!
# Looking at the index

A pass looks at its index of the script when it enters a node that is no function, and when it is
asked for an import that is neither borrowed nor pending. The index is made anew then if the script
is known to have changed. It need not be known that a tree was copied to new places or that it was
repaired there: what is not part of the program does not count. Whatever changes the program is
noted before the next look.

* `Look` - the index that is used, and the script as it is then
* `Structural.looks` - all looks of a structural pass
* `heeds_loop`, `heeds_flushFrom` - the index is used in the looks of a walk and of a flush alone
* `Structural.heeds_run` - a structural pass depends on its index through its looks alone
* `exact_looksRepairing` - the looks of a repair
* `looks_run` - no look of a structural pass finds a stale index
-/

namespace Graft

open Chance (Probability)
open Script (root)
open Work

variable {σ : Type} {Kept : σ → Prop} {sampler : Sampler σ} {chance : Probability} {b : Bench σ}

/-! ## Looks -/

/-- A look at the index of a pass: the script as it is then, and the index that is used. -/
structure Look where
  script : Script
  index : ScopeIndex
deriving DecidableEq

/-- The index that is used is that of the script. -/
def Look.Exact (look : Look) : Prop :=
  look.index = .ofScript look.script

namespace Pass

variable {s : Script} {p : Pass}

/-- What a pass sees when it looks at its index. -/
def look (s : Script) (p : Pass) : Look :=
  ⟨s, (p.refresh s).index⟩

theorem Exact.look (h : p.Exact s) : (p.look s).Exact := by
  rw [Look.Exact, Pass.look, h.refresh_eq]

/-- The looks when a node is entered. -/
def looksEntering (s : Script) (id : NodeId) (p : Pass) : List Look :=
  if (s.kind id).isFunction then [] else [p.look s]

/-- The looks when an import is asked for. -/
def looksAsking (s : Script) (name : Sym) (p : Pass) : List Look :=
  if p.scope.isBorrowed name || p.isPending name then [] else [p.look s]

theorem Exact.looksEntering (h : p.Exact s) (id : NodeId) :
    ∀ look ∈ p.looksEntering s id, look.Exact := by
  unfold Pass.looksEntering
  split
  · exact nofun
  · exact List.forall_mem_singleton.2 h.look

theorem Exact.looksAsking (h : p.Exact s) (name : Sym) :
    ∀ look ∈ p.looksAsking s name, look.Exact := by
  unfold Pass.looksAsking
  split
  · exact nofun
  · exact List.forall_mem_singleton.2 h.look

/-- Where a node is entered, a look tells which names become visible; without a look a function is
entered. -/
theorem enter_of_looks (s : Script) (id : NodeId) (p : Pass) : p.enter s id =
    match p.looksEntering s id with
    | [] =>
      { p with
        scope := p.scope.enterFunction (identityOf (s.node id))
        enclosures := p.enclosure.enter (s.kind id) :: p.enclosures }
    | look :: _ =>
      { p.refresh s with
        scope := p.scope.declare (look.index.declaredBy id)
        enclosures := p.enclosure.enter (s.kind id) :: p.enclosures } := by
  unfold Pass.enter looksEntering Script.kind
  dsimp only
  obtain ⟨index, stale, refreshed, -⟩ := refresh_eq s p
  split
  · rfl
  · dsimp only [look]
    rw [refreshed]
    rfl

/-- Where an import is asked for, a look tells whether the script has the declaration; without a
look the pass stays as it is. -/
theorem queueImport_of_looks (s : Script) (name : Sym) (kind : Imported) (source : Entry)
    (p : Pass) : p.queueImport s name kind source =
      match p.looksAsking s name with
      | [] => p
      | look :: _ =>
        if (kind.find? look.index name).isSome then p.refresh s
        else match kind.provider? source (s.names.text name) with
          | some declaration =>
            { p.refresh s with pending := p.pending ++ [(name, ⟨declaration, source⟩)] }
          | none => p.refresh s := by
  unfold queueImport looksAsking
  split
  · rfl
  · obtain ⟨index, stale, refreshed, -⟩ := refresh_eq s p
    dsimp only [look]
    generalize p.refresh s = p' at refreshed ⊢
    subst refreshed
    rfl

end Pass

/-! ## Repairs -/

/-- The name that is asked for where a node is repaired. -/
def Imported.asked? (s : Script) (id : NodeId) (parent : Option NodeId) : Option (Sym × Imported) :=
  match s.node id, ofTarget? s id parent with
  | .ident name, some kind => if kind.sought (s.names.text name) then some (name, kind) else none
  | _, _ => none

namespace Work

/-- The looks in the repair of a node. -/
def looksMending (id : NodeId) (parent : Option NodeId) (b : Bench σ) : List Look :=
  match Imported.asked? b.script id parent with
  | some (name, _) => b.pass.looksAsking b.script name
  | none => []

/-- The looks in the repair of nodes. -/
def looksRepairing (source : Entry) :
    List (NodeId × Option NodeId) → Renames → Bench σ → List Look
  | [], _, _ => []
  | (id, parent) :: rest, renames, b =>
    let (renames', b') := repairNode source renames id parent b
    looksMending id parent b ++ looksRepairing source rest renames' b'

/-- The looks when a tree is repaired. -/
def looksPreparing (copy : NodeId) (source : Entry) (b : Bench σ) : List Look :=
  looksRepairing source (family b.script copy) [] (b.showing (shown copy b))

/-- The looks when a node of an entry is copied and the copy is repaired. -/
def looksBorrowing (source : Entry) (place : NodeId) (b : Bench σ) : List Look :=
  let (copy, script) := Script.copy source.script place b.script
  looksPreparing copy source { b with script }

/-- The looks when a sample is put in the place of a node. -/
def looksSplicing (sampler : Sampler σ) (id : NodeId) (b : Bench σ) : List Look :=
  match sampler (b.script.kind id) b.pass.enclosure b.samples b.stream with
  | ((none, _), _) => []
  | ((some sample, samples), stream) =>
    looksBorrowing sample.entry sample.node { b with samples, stream }

/-- The looks when a node is replaced perhaps. -/
def looksReplacing (sampler : Sampler σ) (chance : Probability) (id : NodeId) (replaceable : Bool)
    (b : Bench σ) : List Look :=
  let (wanted, b) := chosen chance id replaceable b
  if wanted then looksSplicing sampler id b else []

/-- The looks when the imports from a rank on are brought in, as long as the rounds last. -/
def looksFlushing : Nat → Nat → Bench σ → List Look
  | 0, _, _ => []
  | rounds + 1, rank, b =>
    match b.pass.pending[rank]? with
    | none => []
    | some (_, entry) =>
      looksBorrowing entry.source entry.declaration b ++
        looksFlushing rounds (rank + 1) (bringIn entry b).2

end Work

/-- The looks in a turn: those of a splice, and the one when the node is entered. -/
def Moment.looks (sampler : Sampler σ) (chance : Probability) (m : Moment σ) : List Look :=
  match m.turn with
  | .enter id replaceable =>
    looksReplacing sampler chance id replaceable m.before ++
      m.ready.pass.looksEntering m.ready.script id
  | .leave _ => []

/-- All looks of a structural pass: those in its walk, and those when its imports are brought in. -/
def Structural.looks (sampler : Sampler σ) (m : Structural σ) (s : Script)
    (moments : List (Moment σ)) : List Look :=
  moments.flatMap (Moment.looks sampler m.chance) ++
    looksFlushing (flushBound (m.walked sampler s).pass + 1) 0 (m.walked sampler s)

/-! ## Looks are all that the index is used for -/

/-- Passes at work that differ in their indexes at most. -/
def Bench.Alike (b b' : Bench σ) : Prop :=
  ∃ index stale, b' = { b with pass := { b.pass with index, stale } }

namespace Bench.Alike

variable {b' : Bench σ}

theorem script_eq (h : b.Alike b') : b'.script = b.script := by
  obtain ⟨index, stale, rfl⟩ := h
  rfl

theorem pending_eq (h : b.Alike b') : b'.pass.pending = b.pass.pending := by
  obtain ⟨index, stale, rfl⟩ := h
  rfl

end Bench.Alike

namespace Work

/-- What an action does depends on the index through given looks alone: for passes that differ in
their indexes at most it does the same if the looks are the same. -/
def Heeds {α : Type} (looks : Bench σ → List Look) (run : Bench σ → α × Bench σ) : Prop :=
  ∀ b b' more more', b.Alike b' → looks b ++ more = looks b' ++ more' →
    (run b').1 = (run b).1 ∧ (run b).2.Alike (run b').2 ∧ more = more'

/-- What ends at once looks at nothing. -/
theorem heeds_pure {α : Type} (a : α) : Heeds (fun _ : Bench σ => []) fun b => (a, b) :=
  fun _ _ _ _ alike same => ⟨rfl, alike, same⟩

theorem Heeds.bind {α β : Type} {looks : Bench σ → List Look} {run : Work σ α}
    {looks' : α → Bench σ → List Look} {next : α → Work σ β} (h : Heeds looks run)
    (h' : ∀ a, Heeds (looks' a) (next a)) :
    Heeds (fun b => looks b ++ looks' (run b).1 (run b).2) (run >>= next) := by
  intro b b' more more' alike same
  rw [List.append_assoc, List.append_assoc] at same
  obtain ⟨value, alike', rest⟩ := h b b' _ _ alike same
  -- the first action takes its own looks off both logs
  rw [value] at rest
  rw [run_bind, run_bind, value]
  exact h' _ _ _ _ _ alike' rest

theorem heeds_queueImport (name : Sym) (kind : Imported) (source : Entry) :
    Heeds (fun b : Bench σ => b.pass.looksAsking b.script name)
      (onPass fun s p => p.queueImport s name kind source) := by
  rintro b _ more more' ⟨index, stale, rfl⟩ same
  have pending : Pass.isPending { b.pass with index, stale } name = b.pass.isPending name := rfl
  rw [run_onPass, run_onPass, Pass.queueImport_of_looks, Pass.queueImport_of_looks]
  dsimp only at same ⊢
  unfold Pass.looksAsking at same ⊢
  rw [pending] at same ⊢
  by_cases hq : b.pass.scope.isBorrowed name || b.pass.isPending name
  · rw [if_pos hq, if_pos hq] at same ⊢
    exact ⟨rfl, ⟨index, stale, rfl⟩, same⟩
  · rw [if_neg hq, if_neg hq] at same ⊢
    obtain ⟨look, rest⟩ := List.cons.inj same
    obtain ⟨index₁, stale₁, refreshed, -⟩ := Pass.refresh_eq b.script b.pass
    obtain ⟨index₂, stale₂, refreshed', -⟩ :=
      Pass.refresh_eq b.script { b.pass with index, stale }
    dsimp only
    rw [look, refreshed, refreshed']
    refine ⟨rfl, ⟨index₂, stale₂, ?_⟩, rest⟩
    split
    · rfl
    · split <;> rfl

theorem heeds_repairReference (id : NodeId) (name : Sym) (renames : Renames) :
    Heeds (fun _ : Bench σ => []) (repairReference id name renames) := by
  rintro b _ more more' ⟨index, stale, rfl⟩ same
  have resolves : Pass.resolves b.script name { b.pass with index, stale } =
      b.pass.resolves b.script name := rfl
  -- whether a name resolves and how it is renamed depends on layers and queue, not on the index
  have drawn : renamed name renames { b with pass := { b.pass with index, stale } } =
      ((renamed name renames b).1, { (renamed name renames b).2 with
        pass := { (renamed name renames b).2.pass with index, stale } }) := by
    unfold renamed
    cases renames.lookup name <;> rfl
  unfold repairReference
  rw [run_bind, run_get, run_bind, run_get, run_bind, run_get, run_bind, run_get]
  dsimp only
  rw [resolves]
  split
  · exact ⟨rfl, ⟨index, stale, rfl⟩, same⟩
  · rw [run_bind, run_bind, drawn]
    generalize renamed name renames b = r
    obtain ⟨⟨_ | new, renames'⟩, b'⟩ := r <;> exact ⟨rfl, ⟨index, stale, rfl⟩, same⟩

/-- What is done to repair a node depends on the script: it asks for a name, or it renames a
reference perhaps. -/
theorem repairNode_cases (source : Entry) (renames : Renames) (s : Script) (id : NodeId)
    (parent : Option NodeId) : ∃ action : Work σ Renames,
      (∀ b : Bench σ, b.script = s → repairNode source renames id parent b = action b) ∧
      ((∃ name kind, Imported.asked? s id parent = some (name, kind) ∧
          action = do
            onPass fun s p => p.queueImport s name kind source
            return renames) ∨
        Imported.asked? s id parent = none ∧
          (action = pure renames ∨ ∃ name, action = repairReference id name renames)) := by
  unfold Imported.asked?
  refine ⟨_, fun b hb => by rw [repairNode, run_bind, run_get, hb], ?_⟩
  cases s.node id with
  | ident name =>
    dsimp only
    by_cases hb : builtins.contains (s.names.text name)
    · have unsought : ∀ kind : Imported, kind.sought (s.names.text name) = false := fun kind => by
        rw [Imported.sought, hb]
        rfl
      rw [if_pos hb]
      refine .inr ⟨?_, .inl rfl⟩
      cases Imported.ofTarget? s id parent with
      | some kind =>
        dsimp only
        rw [unsought]
        rfl
      | none => rfl
    · rw [if_neg hb]
      cases Imported.ofTarget? s id parent with
      | some kind =>
        have sought : kind.sought (s.names.text name) =
            (kind = .functionDecl || !builtinConstructors.contains (s.names.text name)) := by
          rw [Imported.sought, Bool.eq_false_iff.2 hb]
          rfl
        dsimp only
        rw [sought]
        split
        · exact .inl ⟨name, kind, rfl, rfl⟩
        · exact .inr ⟨rfl, .inl rfl⟩
      | none => exact .inr ⟨rfl, .inr ⟨name, rfl⟩⟩
  | _ => exact .inr ⟨rfl, .inl rfl⟩

theorem heeds_repairNode (source : Entry) (renames : Renames) (id : NodeId)
    (parent : Option NodeId) :
    Heeds (looksMending id parent) (repairNode (σ := σ) source renames id parent) := by
  rintro b b' more more' alike same
  obtain ⟨action, run, cases⟩ := repairNode_cases (σ := σ) source renames b.script id parent
  rw [run b rfl, run b' alike.script_eq]
  unfold looksMending at same
  rw [alike.script_eq] at same
  rcases cases with ⟨name, kind, asked, rfl⟩ | ⟨asked, rfl | ⟨name, rfl⟩⟩
  · rw [asked] at same
    dsimp only at same
    have asking := heeds_queueImport name kind source b b' more more' alike (by
      dsimp only
      rwa [alike.script_eq])
    exact ⟨rfl, asking.2⟩
  · rw [asked] at same
    exact heeds_pure renames b b' more more' alike same
  · rw [asked] at same
    exact heeds_repairReference id name renames b b' more more' alike same

theorem heeds_repairNodes (source : Entry) (nodes : List (NodeId × Option NodeId))
    (renames : Renames) :
    Heeds (looksRepairing source nodes renames) (repairNodes (σ := σ) source nodes renames) := by
  induction nodes generalizing renames with
  | nil => exact heeds_pure ()
  | cons n nodes ih => exact (heeds_repairNode source renames n.1 n.2).bind ih

theorem heeds_prepare (copy : NodeId) (source : Entry) :
    Heeds (looksPreparing copy source) (prepare (σ := σ) copy source) := by
  rintro b _ more more' ⟨index, stale, rfl⟩ same
  obtain ⟨-, ⟨index', stale', alike⟩, rest⟩ :=
    heeds_repairNodes source (family b.script copy) [] (b.showing (shown copy b)) _ more more'
      ⟨index, stale, rfl⟩ same
  rw [run_prepare, run_prepare]
  exact ⟨rfl, ⟨index', stale', congrArg (fun b' : Bench σ => { b' with
    pass := { b'.pass with scope := b'.pass.scope.clearBorrowed } }) alike⟩, rest⟩

theorem heeds_splice (sampler : Sampler σ) (id : NodeId) :
    Heeds (looksSplicing sampler id) (splice sampler id) := by
  rintro b _ more more' ⟨index, stale, rfl⟩ same
  unfold looksSplicing at same
  rw [run_splice, run_splice]
  have enclosure : Pass.enclosure { b.pass with index, stale } = b.pass.enclosure := rfl
  dsimp only at same ⊢
  rw [enclosure] at same ⊢
  generalize sampler (b.script.kind id) b.pass.enclosure b.samples b.stream = asked at same ⊢
  obtain ⟨⟨_ | sample, samples⟩, stream⟩ := asked
  · exact ⟨rfl, ⟨index, stale, rfl⟩, same⟩
  · obtain ⟨-, ⟨index', stale', alike⟩, rest⟩ :=
      heeds_prepare (Script.copy sample.entry.script sample.node b.script).1 sample.entry _ _ more
        more' ⟨index, stale, rfl⟩ same
    exact ⟨rfl, ⟨index', true, congrArg (fun b' : Bench σ => { b' with
      script := b'.script.replace id (Script.copy sample.entry.script sample.node b.script).1
      pass := b'.pass.recordMutation }) alike⟩, rest⟩

theorem heeds_chosen (chance : Probability) (id : NodeId) (replaceable : Bool) :
    Heeds (fun _ : Bench σ => []) (chosen chance id replaceable) := by
  rintro b _ more more' ⟨index, stale, rfl⟩ same
  have budget : Pass.hasBudget { b.pass with index, stale } = b.pass.hasBudget := rfl
  unfold chosen
  rw [run_bind, run_get, run_bind, run_get]
  dsimp only
  rw [budget]
  split <;> exact ⟨rfl, ⟨index, stale, rfl⟩, same⟩

theorem heeds_tryReplace (sampler : Sampler σ) (chance : Probability) (id : NodeId)
    (replaceable : Bool) :
    Heeds (looksReplacing sampler chance id replaceable)
      (tryReplace sampler chance id replaceable) := by
  have next : ∀ wanted : Bool, Heeds (fun b => if wanted then looksSplicing sampler id b else [])
      (if wanted then splice sampler id else pure false : Work σ Bool) := by
    rintro (_ | _)
    · exact heeds_pure false
    · exact heeds_splice sampler id
  exact (heeds_chosen chance id replaceable).bind next

theorem heeds_enter (id : NodeId) :
    Heeds (fun b : Bench σ => b.pass.looksEntering b.script id)
      (onPass fun s p => p.enter s id) := by
  rintro b _ more more' ⟨index, stale, rfl⟩ same
  rw [run_onPass, run_onPass, Pass.enter_of_looks, Pass.enter_of_looks]
  dsimp only at same ⊢
  unfold Pass.looksEntering at same ⊢
  by_cases hk : (b.script.kind id).isFunction
  · rw [if_pos hk, if_pos hk] at same ⊢
    exact ⟨rfl, ⟨index, stale, rfl⟩, same⟩
  · rw [if_neg hk, if_neg hk] at same ⊢
    obtain ⟨look, rest⟩ := List.cons.inj same
    obtain ⟨index₁, stale₁, refreshed, -⟩ := Pass.refresh_eq b.script b.pass
    obtain ⟨index₂, stale₂, refreshed', -⟩ :=
      Pass.refresh_eq b.script { b.pass with index, stale }
    dsimp only
    rw [look, refreshed, refreshed']
    exact ⟨rfl, ⟨index₂, stale₂, rfl⟩, rest⟩

theorem heeds_leave (id : NodeId) :
    Heeds (fun _ : Bench σ => []) (onPass fun s p => p.leave s id) := by
  rintro b _ more more' ⟨index, stale, rfl⟩ same
  rw [run_onPass, run_onPass]
  unfold Pass.leave
  dsimp only
  split <;> exact ⟨rfl, ⟨index, stale, rfl⟩, same⟩

/-- A turn and what it makes due. -/
theorem heeds_take (sampler : Sampler σ) (chance : Probability) (turn : Turn) :
    Heeds (fun b => (take sampler chance turn b).looks sampler chance) fun b =>
      ((take sampler chance turn b).next, (take sampler chance turn b).after) := by
  intro b b' more more' alike same
  obtain ⟨alike', rest⟩ : (take sampler chance turn b).after.Alike
      (take sampler chance turn b').after ∧ more = more' := by
    cases turn with
    | enter id replaceable =>
      exact ((heeds_tryReplace sampler chance id replaceable).bind fun _ => heeds_enter id)
        b b' more more' alike same |>.2
    | leave id => exact (heeds_leave id b b' more more' alike same).2
  refine ⟨?_, alike', rest⟩
  -- what is due depends on the script alone
  have script := alike'.script_eq
  rw [Moment.script_after, Moment.script_after] at script
  change (take sampler chance turn b').next = (take sampler chance turn b).next
  unfold Moment.next
  rw [script]
  rfl

/-- A loop and the turns that it leaves over. -/
theorem heeds_loop (sampler : Sampler σ) (chance : Probability) (rounds : Nat)
    (turns : List Turn) :
    Heeds (fun b => (loop sampler chance rounds turns b).1.flatMap (Moment.looks sampler chance))
      fun b => (loop sampler chance rounds turns b).2 := by
  induction rounds generalizing turns with
  | zero => exact heeds_pure turns
  | succ rounds ih =>
    cases turns with
    | nil => exact heeds_pure []
    | cons turn rest =>
      exact (heeds_take sampler chance turn).bind fun next => ih (next ++ rest)

theorem heeds_bringIn (entry : Import) :
    Heeds (looksBorrowing entry.source entry.declaration) (bringIn (σ := σ) entry) := by
  rintro b _ more more' ⟨index, stale, rfl⟩ same
  obtain ⟨-, ⟨index', stale', alike⟩, rest⟩ :=
    heeds_prepare (Script.copy entry.source.script entry.declaration b.script).1 entry.source _ _
      more more' ⟨index, stale, rfl⟩ same
  rw [run_bringIn, run_bringIn]
  exact ⟨rfl, ⟨index', true, congrArg (fun b' : Bench σ => { b' with
    script := b'.script.push (Script.copy entry.source.script entry.declaration b.script).1
    pass := b'.pass.markStale }) alike⟩, rest⟩

/-- Bringing in imports. -/
theorem heeds_flushFrom (rounds rank : Nat) :
    Heeds (looksFlushing rounds rank) (flushFrom (σ := σ) rounds rank) := by
  induction rounds generalizing rank with
  | zero => exact heeds_pure rank
  | succ rounds ih =>
    intro b b' more more' alike same
    unfold looksFlushing at same
    rw [run_flushFrom, run_flushFrom, alike.pending_eq]
    rw [alike.pending_eq] at same
    cases hq : b.pass.pending[rank]? with
    | none =>
      rw [hq] at same
      exact heeds_pure rank b b' more more' alike same
    | some q =>
      rw [hq] at same
      exact ((heeds_bringIn q.2).bind fun _ => ih (rank + 1)) b b' more more' alike same

theorem heeds_flushImports :
    Heeds (fun b => looksFlushing (flushBound b.pass + 1) 0 b) (flushImports (σ := σ)) := by
  intro b b' more more' alike same
  have bound : flushBound b'.pass = flushBound b.pass := by
    rw [flushBound, alike.pending_eq, flushBound]
  dsimp only at same
  rw [bound] at same
  rw [flushImports, run_bind, run_get, run_bind, run_get]
  dsimp only
  rw [bound]
  exact heeds_flushFrom _ 0 b b' more more' alike same

end Work

/-- A structural pass depends on its index through its looks alone: a pass that starts with another
index, and whose looks are the same, ends with the same script and in the same state, but for the
index. So there is no look that is not among those of `Structural.looks`. -/
theorem Structural.heeds_run {m : Structural σ} {s : Script} {moments moments' : List (Moment σ)}
    (toured : Toured sampler m.chance (m.bench s) moments (m.walked sampler s)) {b b' : Bench σ}
    (alike : (m.bench s).Alike b) {rounds : Nat}
    (ends : loop sampler m.chance rounds [.enter root false] b = (moments', [], b'))
    (same : m.looks sampler s moments =
      moments'.flatMap (Moment.looks sampler m.chance) ++
        looksFlushing (flushBound b'.pass + 1) 0 b') :
    (m.finished sampler s).Alike (flushImports b').2 := by
  obtain ⟨enough, walks⟩ := toured.ends
  have walk := walks rounds
  have walk' : loop sampler m.chance (enough + rounds) [.enter root false] b =
      (moments', [], b') := by
    rw [Nat.add_comm, loop_of_ended enough (by rw [ends]), ends]
  -- both walks, with the same number of rounds, take the looks of the walk off
  have heeds := heeds_loop sampler m.chance (enough + rounds) [.enter root false] (m.bench s) b
    (looksFlushing (flushBound (m.walked sampler s).pass + 1) 0 (m.walked sampler s))
    (looksFlushing (flushBound b'.pass + 1) 0 b') alike (by
      dsimp only
      rw [walk, walk']
      exact same)
  dsimp only at heeds
  rw [walk, walk'] at heeds
  obtain ⟨-, alike', rest⟩ := heeds
  refine (heeds_flushImports _ _ [] [] alike' ?_).2.1
  rw [List.append_nil, List.append_nil]
  exact rest

/-! ## Looks are exact -/

theorem exact_looksRepairing {K : Sym → Prop} (source : Entry)
    {nodes : List (NodeId × Option NodeId)} {renames : Renames} {b : Bench σ}
    (h : b.Mending K nodes renames) : ∀ look ∈ looksRepairing source nodes renames b,
      look.Exact := by
  induction nodes generalizing b renames with
  | nil => exact nofun
  | cons n nodes ih =>
    obtain ⟨id, parent⟩ := n
    refine List.forall_mem_append.2 ⟨?_, ih (h.step source)⟩
    unfold looksMending
    split
    · exact h.exact.looksAsking _
    · exact nofun

theorem exact_looksBorrowing (hb : b.Settled Kept) (sound : b.Sound) (hroot : b.script.Rooted root)
    (source : Entry) (place : NodeId) : ∀ look ∈ looksBorrowing source place b, look.Exact := by
  obtain ⟨sound', exact, rooted, -, apart⟩ := copy_beside hb.exact sound hroot source place
  exact exact_looksRepairing source (mending_showing sound' exact rooted apart)

theorem exact_looksSplicing (hs : sampler.Supplies Kept) (hb : b.Settled Kept) (sound : b.Sound)
    (hroot : b.script.Rooted root) (id : NodeId) :
    ∀ look ∈ looksSplicing sampler id b, look.Exact := by
  unfold looksSplicing
  have kept := hs.kept (b.script.kind id) b.pass.enclosure b.samples b.stream hb.kept
  generalize sampler (b.script.kind id) b.pass.enclosure b.samples b.stream = asked at kept ⊢
  obtain ⟨⟨_ | sample, samples⟩, stream⟩ := asked
  · exact nofun
  · exact exact_looksBorrowing (hb.drawn kept stream) (sound.drawn samples stream) hroot
      sample.entry sample.node

/-- The looks in a turn. -/
theorem exact_looks (hs : sampler.Supplies Kept) (chance : Probability) (hb : b.Settled Kept)
    (sound : b.Sound) (hroot : b.script.Rooted root) (turn : Turn) :
    ∀ look ∈ (take sampler chance turn b).looks sampler chance, look.Exact := by
  cases turn with
  | leave id => exact nofun
  | enter id replaceable =>
    have ready := settled_tryReplace hs chance hb sound hroot id replaceable
    refine List.forall_mem_append.2 ⟨?_, ready.exact.looksEntering id⟩
    obtain ⟨wanted, stream, choice, -⟩ := exists_chosen chance id replaceable b
    change ∀ look ∈ looksReplacing sampler chance id replaceable b, look.Exact
    unfold looksReplacing
    rw [choice]
    dsimp only
    split
    · exact exact_looksSplicing hs (hb.drawn hb.kept stream) (sound.drawn b.samples stream) hroot id
    · exact nofun

theorem exact_looksFlushing (rounds rank : Nat) (hb : b.Settled Kept) (sound : b.Sound)
    (hw : b.script.Wellformed) : ∀ look ∈ looksFlushing rounds rank b, look.Exact := by
  induction rounds generalizing rank b with
  | zero => exact nofun
  | succ rounds ih =>
    unfold looksFlushing
    cases hq : b.pass.pending[rank]? with
    | none => exact nofun
    | some q =>
      have hmem := List.mem_of_getElem? hq
      have completed := completed_bringIn sound hw (sound.pass.vetted q hmem)
      have settled := (settled_bringIn hb sound hw.rooted (hb.provided q hmem).read).1
      exact List.forall_mem_append.2 ⟨exact_looksBorrowing hb sound hw.rooted _ _,
        ih (rank + 1) settled completed.sound completed.wellformed⟩

/-- The looks of all turns so far. -/
theorem carries_looks (hs : sampler.Supplies Kept) (chance : Probability) :
    Carries sampler chance fun moments b => b.Settled Kept ∧
      ∀ look ∈ moments.flatMap (Moment.looks sampler chance), look.Exact := by
  rintro moments b turn ⟨hb, exact⟩ sound hroot place
  refine ⟨carries_settled hs chance moments b turn hb sound hroot place, ?_⟩
  rw [List.flatMap_append, List.flatMap_singleton]
  exact List.forall_mem_append.2 ⟨exact, exact_looks hs chance hb sound hroot turn⟩

/-! ## Passes -/

/-- Whenever a structural pass over a source text looks at its index, in its walk or when it brings
in its imports, that is the index of the script as it is at that moment. -/
theorem looks_run {sampler : Sampler σ} {source : String} {s : Script}
    (hs : Script.read source = .ok s) (m : Structural σ) (hsampler : sampler.Stocked m.samples) :
    ∃ moments, Toured sampler m.chance (m.bench s) moments (m.walked sampler s) ∧
      (m.run sampler s).2.1 = (m.finished sampler s).script ∧
      ∀ look ∈ m.looks sampler s moments, look.index = .ofScript look.script := by
  obtain ⟨Kept, supplies, kept⟩ := hsampler.exists_supplies
  have wellformed := wellformed_read hs
  obtain ⟨moments, toured, carried⟩ := m.toured_walked supplies.legal wellformed
  obtain ⟨settled, exact⟩ := carried _ (carries_looks supplies m.chance)
    ⟨settled_bench hs kept, fun look hl => absurd hl List.not_mem_nil⟩
  have walk := m.completed_walked supplies.legal wellformed
  exact ⟨moments, toured, rfl, List.forall_mem_append.2 ⟨exact,
    exact_looksFlushing _ 0 settled walk.sound walk.wellformed⟩⟩

/-- A block gives way to one that declares a name. -/
theorem looks_run_block : ∃ s t, Script.read "{ a = 1; }" = .ok s ∧
    Script.read "{ var x = 2; }" = .ok t ∧
      let m : Structural Unit := ⟨1, .always, .seeded 0, ()⟩
      let sampler := Sample.pinned ⟨.ofScript "t.js" t, 3⟩
      ∃ moments, Toured sampler m.chance (m.bench s) moments (m.walked sampler s) ∧
        ∃ look ∈ m.looks sampler s moments, look.index.declared ≠ [] ∧
          look.index = .ofScript look.script := by
  obtain ⟨s, t, hs, ht, moments, toured, look, hl, declared⟩ :=
    exists_walked "{ a = 1; }" "{ var x = 2; }" 3 ⟨1, .always, .seeded 0, ()⟩ 60
      (p := fun t moments walked =>
        ∃ look ∈ moments.flatMap (Moment.looks (Sample.pinned ⟨.ofScript "t.js" t, 3⟩) .always) ++
          looksFlushing (flushBound walked.pass + 1) 0 walked, look.index.declared ≠ [])
      (by decide +kernel)
  have stocked : Sampler.Stocked (Sample.pinned ⟨.ofScript "t.js" t, 3⟩) () :=
    .pinned () ⟨_, _, _, ht, rfl⟩
  obtain ⟨moments', toured', -, exact⟩ := looks_run hs ⟨1, .always, .seeded 0, ()⟩ stocked
  obtain rfl := toured.moments_eq toured'
  exact ⟨s, t, hs, ht, moments, toured, look, hl, declared, exact look hl⟩

end Graft
