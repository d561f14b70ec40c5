import Graft.Proofs.Pass.Imports
import Graft.Proofs.Pass.Legality

/-!
# The walk as a loop

A walk can also be done turn by turn, with a list of the turns that are still to be taken: a node is
entered, replaced perhaps, and puts its children as they are then and its own end in front of that
list. The loop comes to an end and does what the recursive walk does, since neither of the bounds of
the walk is ever met: each replacement uses up budget, and below a node that stays there are fewer
nodes than from it on.

The tree that stands when the loop is over tells what the loop did: it entered the nodes of that
tree in preorder and left each behind the nodes below it, and what it knew of the nodes around it
are the kinds of the nodes that are around it in that tree.

* `Work.loop` - the loop, with what happens on its way
* `Tree.tour` - what happens in a loop, as told by a tree
* `follows_visit` - the loop does what a walk does
* `toured_run` - the loop of a structural pass
* `exists_walked` - what happens in a loop that is run
-/

namespace Graft

open Chance (Draw Stream Probability)
open Script (root)
open Work

variable {σ τ : Type}

/-! ## The loop -/

/-- What is still to be done in a walk. -/
inductive Turn where
  | enter (id : NodeId) (replaceable : Bool)
  | leave (id : NodeId)
deriving Repr, DecidableEq

/-- The node that a turn is about. -/
def Turn.place : Turn → NodeId
  | enter id _ => id
  | leave id => id

/-- A turn that is taken: the pass before it, and just before the node is entered or left, when the
node has been replaced perhaps. -/
structure Moment (σ : Type) where
  turn : Turn
  before : Bench σ
  ready : Bench σ

namespace Work

/-- Take a turn. -/
def take (sampler : Sampler σ) (chance : Probability) (turn : Turn) (b : Bench σ) : Moment σ :=
  { turn
    before := b
    ready := match turn with
      | .enter id replaceable => (tryReplace sampler chance id replaceable b).2
      | .leave _ => b }

end Work

namespace Moment

/-- The pass behind a turn. -/
def after (m : Moment σ) : Bench σ :=
  match m.turn with
  | .enter id _ => { m.ready with pass := m.ready.pass.enter m.ready.script id }
  | .leave id => { m.ready with pass := m.ready.pass.leave m.ready.script id }

/-- The turns that have to be taken next: for a node that is entered, its children as they are then,
and its own end. -/
def next (m : Moment σ) : List Turn :=
  match m.turn with
  | .enter id _ => (sites m.ready.script id).map (fun c => .enter c.1 c.2) ++ [.leave id]
  | .leave _ => []

end Moment

/-- Take a number of turns, or all that there are: what happened, the turns that are left over, and
the pass behind them. -/
def Work.loop (sampler : Sampler σ) (chance : Probability) :
    Nat → List Turn → Bench σ → List (Moment σ) × List Turn × Bench σ
  | 0, turns, b => ([], turns, b)
  | _ + 1, [], b => ([], [], b)
  | rounds + 1, turn :: rest, b =>
    let m := take sampler chance turn b
    let (moments, last) := loop sampler chance rounds (m.next ++ rest) m.after
    (m :: moments, last)

/-- What a walk does, without what it does it to. -/
inductive Event where
  /-- A node is entered, with what the pass knows to be around it. -/
  | entered (id : NodeId) (e : Enclosure) (functions : Nat)
  | left (id : NodeId)
deriving Repr, DecidableEq

namespace Event

/-- The node that is entered. -/
def entered? : Event → Option NodeId
  | entered id _ _ => some id
  | left _ => none

/-- The node that is left. -/
def left? : Event → Option NodeId
  | entered _ _ _ => none
  | left id => some id

end Event

/-- What is done in a turn. -/
def Moment.event (m : Moment σ) : Event :=
  match m.turn with
  | .enter id _ => .entered id m.ready.pass.enclosure m.ready.pass.scope.depth
  | .leave id => .left id

/-! ## Tours -/

namespace Tree

/-- The walk through a tree that stands still, under nodes of given kinds, outermost first. -/
def tour (above : List Kind) (t : Tree NodeId) : List Event :=
  .entered t.tag (above.foldl Enclosure.enter .outermost) (above.countP Kind.isFunction) ::
    (t.children.attach.flatMap fun ⟨c, _⟩ => tour (above ++ [t.kind]) c) ++ [.left t.tag]
termination_by t.size
decreasing_by exact size_lt_of_mem_children ‹_›

theorem tour_eq (above : List Kind) (t : Tree NodeId) :
    t.tour above =
      .entered t.tag (above.foldl Enclosure.enter .outermost) (above.countP Kind.isFunction) ::
        t.children.flatMap (tour (above ++ [t.kind])) ++ [.left t.tag] := by
  rw [tour]
  simp

/-- A tour enters the nodes of a tree in preorder. -/
theorem entered_tour (above : List Kind) (t : Tree NodeId) :
    (t.tour above).filterMap Event.entered? = t.tags := by
  induction t using induct generalizing above with
  | step t ih =>
    have below : (t.children.flatMap (tour (above ++ [t.kind]))).filterMap Event.entered? =
        t.children.flatMap tags := by
      rw [List.filterMap_flatMap]
      exact List.flatMap_congr fun c hc => ih c hc _
    obtain ⟨tag, node⟩ := t
    rw [tour_eq, tags_mk, List.filterMap_append, List.filterMap_cons_some (by rfl), below]
    simp [Event.entered?, Tree.tag, Tree.children, Tree.node]

/-- A tour leaves every node that it enters. -/
theorem left_tour (above : List Kind) (t : Tree NodeId) :
    ((t.tour above).filterMap Event.left?).Perm t.tags := by
  induction t using induct generalizing above with
  | step t ih =>
    have below : ((t.children.flatMap (tour (above ++ [t.kind]))).filterMap Event.left?).Perm
        (t.children.flatMap tags) := by
      rw [List.filterMap_flatMap]
      exact .flatMap_left _ fun c hc => ih c hc _
    obtain ⟨tag, node⟩ := t
    rw [tour_eq, tags_mk, List.filterMap_append, List.filterMap_cons_none (by rfl)]
    exact (below.append_right _).trans (List.perm_append_singleton _ _)

end Tree

/-! ## Running the loop -/

/-- The turns of a list, taken one after the other up to some point. -/
inductive Leads (sampler : Sampler σ) (chance : Probability) :
    Bench σ → List Turn → List (Moment σ) → Bench σ → List Turn → Prop where
  | done (b : Bench σ) (turns : List Turn) : Leads sampler chance b turns [] b turns
  | next {b b' : Bench σ} {turn : Turn} {rest last : List Turn} {moments : List (Moment σ)} :
    Leads sampler chance (take sampler chance turn b).after
      ((take sampler chance turn b).next ++ rest) moments b' last →
    Leads sampler chance b (turn :: rest) (take sampler chance turn b :: moments) b' last

namespace Leads

variable {sampler : Sampler σ} {chance : Probability} {b b' b'' : Bench σ}
  {turns turns' turns'' : List Turn} {moments more : List (Moment σ)}

theorem trans (h : Leads sampler chance b turns moments b' turns')
    (h' : Leads sampler chance b' turns' more b'' turns'') :
    Leads sampler chance b turns (moments ++ more) b'' turns'' := by
  induction h with
  | done => exact h'
  | next _ ih => exact .next (ih h')

/-- The loop ends when no turn is left, however many more it might take. -/
theorem exists_loop (h : Leads sampler chance b turns moments b' []) :
    ∃ rounds, ∀ more, loop sampler chance (rounds + more) turns b = (moments, [], b') := by
  generalize hlast : ([] : List Turn) = last at h
  induction h with
  | done b turns =>
    subst hlast
    refine ⟨0, fun more => ?_⟩
    cases more <;> rfl
  | next _ ih =>
    obtain ⟨rounds, hr⟩ := ih hlast
    refine ⟨rounds + 1, fun more => ?_⟩
    rw [Nat.add_right_comm, loop]
    dsimp only
    rw [hr more]

end Leads

/-- A property of what happened and of the pass that every turn keeps whose node is part of the
program. -/
def Work.Carries (sampler : Sampler σ) (chance : Probability)
    (I : List (Moment σ) → Bench σ → Prop) : Prop :=
  ∀ moments b turn, I moments b → b.Sound → b.script.Rooted root →
    turn.place ∈ b.script.preorder root →
      I (moments ++ [take sampler chance turn b]) (take sampler chance turn b).after

/-! ## Budget -/

/-- What a visit does to the counts of a pass, and that it comes out of all functions that it goes
into. -/
structure Tallied (b b' : Bench σ) : Prop where
  maxMutations : b'.pass.maxMutations = b.pass.maxMutations
  mutations : b.pass.mutations ≤ b'.pass.mutations
  functions : b'.pass.scope.functions = b.pass.scope.functions

/-- How many nodes may still be replaced. -/
def Pass.remaining (p : Pass) : Nat :=
  p.maxMutations - p.mutations

namespace Tallied

variable {b b' b'' : Bench σ}

theorem refl (b : Bench σ) : Tallied b b :=
  ⟨rfl, Nat.le_refl _, rfl⟩

theorem trans (h : Tallied b b') (h' : Tallied b' b'') : Tallied b b'' :=
  ⟨h'.maxMutations.trans h.maxMutations, Nat.le_trans h.mutations h'.mutations,
    h'.functions.trans h.functions⟩

theorem remaining_le (h : Tallied b b') : b'.pass.remaining ≤ b.pass.remaining := by
  rw [Pass.remaining, Pass.remaining, h.maxMutations]
  exact Nat.sub_le_sub_left h.mutations _

end Tallied

variable {b b' : Bench σ} {id : NodeId} {sampler : Sampler σ} {chance : Probability}

/-- What an attempt to replace a node does to the counts of a pass. -/
structure Tried (b : Bench σ) (tried : Bool × Bench σ) : Prop where
  tallied : Tallied b tried.2
  counted : tried.1 = true → tried.2.pass.mutations = b.pass.mutations + 1
  same : tried.1 = false → tried.2.script = b.script

theorem tried_splice (sampler : Sampler σ) (id : NodeId) (hs : b.Sound) :
    Tried b (splice sampler id b) := by
  rw [run_splice]
  generalize sampler (b.script.kind id) b.pass.enclosure b.samples b.stream = asked
  obtain ⟨⟨sample, samples⟩, stream⟩ := asked
  have hs₀ := hs.drawn samples stream
  rcases sample with _ | sample
  · exact ⟨⟨rfl, Nat.le_refl _, rfl⟩, nofun, fun _ => rfl⟩
  · have borrowed := borrowed_copy hs₀ sample.entry sample.node
    dsimp only at borrowed ⊢
    generalize (prepare _ sample.entry _).2 = b' at borrowed ⊢
    have counted : b'.pass.mutations = b.pass.mutations := borrowed.mutations
    have functions : b'.pass.scope.functions = b.pass.scope.functions :=
      congrArg (fun scope => scope.functions) borrowed.scope
    refine ⟨⟨borrowed.maxMutations, ?_, functions⟩, fun _ => congrArg (· + 1) counted, nofun⟩
    exact Nat.le_succ_of_le (Nat.le_of_eq counted.symm)

theorem tried_tryReplace (sampler : Sampler σ) (chance : Probability) (id : NodeId)
    (replaceable : Bool) (hs : b.Sound) :
    Tried b (tryReplace sampler chance id replaceable b) := by
  rcases tryReplace_cases sampler chance id replaceable b with h | ⟨-, stream, h⟩
  · rw [h]
    exact ⟨.refl b, nofun, fun _ => rfl⟩
  · have hs' := hs.drawn b.samples stream
    rcases h with h | h <;> rw [h]
    · exact ⟨⟨rfl, Nat.le_refl _, rfl⟩, nofun, fun _ => rfl⟩
    · obtain ⟨⟨max, mutations, functions⟩, counted, same⟩ := tried_splice sampler id hs'
      exact ⟨⟨max, mutations, functions⟩, counted, same⟩

/-- Nothing is replaced without budget. -/
theorem tryReplace_of_remaining (h : b.pass.remaining = 0) (replaceable : Bool) :
    tryReplace sampler chance id replaceable b = (false, b) := by
  rcases tryReplace_cases sampler chance id replaceable b with same | ⟨⟨-, -, left⟩, -⟩
  · exact same
  · rw [Pass.remaining, Nat.sub_eq_zero_iff_le] at h
    exact absurd (of_decide_eq_true left) (Nat.not_lt.2 h)

/-- The bound of the budget is never met. -/
theorem attempt_eq {budget : Nat} (hb : b.pass.remaining ≤ budget) (replaceable : Bool) :
    attempt sampler chance budget id replaceable b =
      tryReplace sampler chance id replaceable b := by
  unfold attempt
  split
  · rename_i h
    exact (tryReplace_of_remaining (Nat.le_zero.1 (h ▸ hb)) replaceable).symm
  · rfl

/-! ## The loop and the walk -/

theorem Pass.functions_enter (s : Script) (id : NodeId) (p : Pass) :
    (p.enter s id).scope.functions =
      if (s.kind id).isFunction then identityOf (s.node id) :: p.scope.functions
      else p.scope.functions := by
  unfold Pass.enter
  dsimp only
  by_cases hf : (s.node id).kind.isFunction
  · have hk : (s.kind id).isFunction := hf
    rw [if_pos hf, if_pos hk]
    rfl
  · have hk : ¬ (s.kind id).isFunction := hf
    rw [if_neg hf, if_neg hk]
    obtain ⟨index, stale, hr, -⟩ := refresh_eq s p
    rw [hr]
    unfold Scope.declare
    split <;> rfl

theorem Pass.functions_leave (s : Script) (id : NodeId) (p : Pass) :
    (p.leave s id).scope.functions =
      if (s.kind id).isFunction then p.scope.functions.tail else p.scope.functions := by
  unfold Pass.leave
  dsimp only
  split <;> rfl

/-- The pass stands under nodes of given kinds, outermost first. -/
structure Bench.Stands (above : List Kind) (b : Bench σ) : Prop where
  enclosure : b.pass.enclosure = above.foldl Enclosure.enter .outermost
  depth : b.pass.scope.depth = above.countP Kind.isFunction

namespace Bench.Stands

variable {above : List Kind}

theorem of_eq (h : b.Stands above) (he : b'.pass.enclosures = b.pass.enclosures)
    (hf : b'.pass.scope.functions = b.pass.scope.functions) : b'.Stands above := by
  refine ⟨(Pass.enclosure_eq he).trans h.enclosure, ?_⟩
  rw [← h.depth, Scope.depth, Scope.depth, hf]

theorem enter (h : b.Stands above) (id : NodeId) :
    Bench.Stands (above ++ [b.script.kind id]) { b with pass := b.pass.enter b.script id } := by
  constructor
  · rw [List.foldl_append, ← h.enclosure, Pass.enclosure, (Pass.enter_eq b.script id b.pass).1]
    rfl
  · rw [List.countP_append, List.countP_singleton, ← h.depth, Scope.depth, Scope.depth,
      Pass.functions_enter]
    split <;> rfl

end Bench.Stands

/-- The visit of a place below the root leaves a tree under the root. -/
theorem Visited.graft (h : Visited id b b') (hr : b.script.Rooted root)
    (hid : id ∈ b.script.preorder root) :
    b'.script.Rooted root ∧ ∀ i, i ∈ b'.script.preorder root ↔
      (i ∈ b.script.preorder root ∧ i ∉ b.script.preorder id) ∨ i ∈ b'.script.preorder id :=
  hr.graft hid h.evolves h.rooted h.places

/-- What a walk does to a pass, and what happens in the loop that does the same. -/
structure Work.Led (sampler : Sampler σ) (chance : Probability) (turns : List Turn)
    (events : List Event) (b b' : Bench σ) (rest : List Turn) (moments : List (Moment σ)) :
    Prop where
  leads : Leads sampler chance b (turns ++ rest) moments b' rest
  events : moments.map Moment.event = events
  carried : ∀ I : List (Moment σ) → Bench σ → Prop, Carries sampler chance I → ∀ {before},
    I before b → b.script.Rooted root → (∀ t ∈ turns, t.place ∈ b.script.preorder root) →
      I (before ++ moments) b'

/-- Visits of places do what the loop does with the turns to enter them. -/
def Work.Follows (sampler : Sampler σ) (chance : Probability) (budget height : Nat)
    (visitChild : NodeId → Bool → Work σ Unit) : Prop :=
  ∀ (b : Bench σ) (c : NodeId) (replaceable : Bool) (above : List Kind) (rest : List Turn),
    b.Sound → b.script.Rooted c → b.pass.remaining ≤ budget →
    (b.script.tree c).size ≤ height → b.Stands above →
    Tallied b (visitChild c replaceable b).2 ∧
      ∃ moments, Led sampler chance [.enter c replaceable]
        (((visitChild c replaceable b).2.script.tree c).tour above) b (visitChild c replaceable b).2
        rest moments

variable {budget height : Nat} {visitChild : NodeId → Bool → Work σ Unit} {above : List Kind}

theorem led_forM (cs : List (NodeId × Bool))
    (visited : ∀ c r (b : Bench σ), b.Sound → b.script.Rooted c → Visited c b (visitChild c r b).2)
    (follows : Follows sampler chance budget height visitChild) (rest : List Turn)
    (hs : b.Sound) (hr : ∀ c ∈ cs.map Prod.fst, b.script.Rooted c)
    (hd : ((cs.map Prod.fst).flatMap b.script.preorder).Nodup) (hb : b.pass.remaining ≤ budget)
    (hh : ∀ c ∈ cs.map Prod.fst, (b.script.tree c).size ≤ height) (stands : b.Stands above)
    (run : (cs.forM (fun c => visitChild c.1 c.2) b).2 = b') :
    Tallied b b' ∧ ∃ moments, Led sampler chance (cs.map fun c => .enter c.1 c.2)
      ((cs.map Prod.fst).flatMap fun c => (b'.script.tree c).tour above) b b' rest moments := by
  induction cs generalizing b with
  | nil =>
    obtain rfl : b = b' := run
    exact ⟨.refl b, [], .done b rest, rfl, fun _ _ _ hI _ _ => by rwa [List.append_nil]⟩
  | cons c cs ih =>
    rw [List.map_cons, List.flatMap_cons, List.nodup_append] at hd
    obtain ⟨-, hrest, hapart⟩ := hd
    rw [List.map_cons, List.forall_mem_cons] at hr hh
    obtain ⟨hc, hcs⟩ := hr
    replace run : (cs.forM (fun c => visitChild c.1 c.2) (visitChild c.1 c.2 b).2).2 = b' := run
    have first := visited c.1 c.2 b hs hc
    obtain ⟨tallied, moments, leads, events, carried⟩ := follows b c.1 c.2 above
      (cs.map (fun c => .enter c.1 c.2) ++ rest) hs hc hb hh.1 stands
    generalize (visitChild c.1 c.2 b).2 = b₁ at first tallied leads events carried run
    -- the siblings that follow are as they were, and so is the child while they are visited
    obtain ⟨kept, same, clear⟩ := first.siblings hcs fun i hi hm => hapart i hi i hm rfl
    have hr₁ : ∀ d ∈ cs.map Prod.fst, b₁.script.Rooted d := fun d hd => (kept d hd).1
    have walked := walked_forM cs (fun d _ => visited d.1 d.2) first.sound hr₁ (same ▸ hrest)
    rw [run] at walked
    have hh₁ : ∀ d ∈ cs.map Prod.fst, (b₁.script.tree d).size ≤ height :=
      fun d hd => (kept d hd).2 ▸ hh.2 d hd
    obtain ⟨tallied', more, leads', events', carried'⟩ := ih first.sound hr₁ (same ▸ hrest)
      (Nat.le_trans tallied.remaining_le hb) hh₁
      (stands.of_eq first.enclosures tallied.functions) run
    have evolves := walked.evolves
    rw [same] at evolves
    obtain ⟨-, tree⟩ := first.rooted.frame evolves clear
    refine ⟨tallied.trans tallied', moments ++ more, leads.trans leads', ?_,
      fun I hI before now hroot reached => ?_⟩
    · rw [List.map_append, events, events', List.map_cons, List.flatMap_cons, tree]
    · rw [List.map_cons, List.forall_mem_cons] at reached
      obtain ⟨hroot₁, places⟩ := first.graft hroot reached.1
      rw [← List.append_assoc]
      refine carried' I hI (carried I hI now hroot (List.forall_mem_singleton.2 reached.1)) hroot₁
        fun t ht => (places _).2 (.inl ⟨reached.2 t ht, fun hm => ?_⟩)
      obtain ⟨d, hd, rfl⟩ := List.mem_map.1 ht
      have below : d.1 ∈ (cs.map Prod.fst).flatMap b.script.preorder :=
        List.mem_flatMap.2 ⟨d.1, List.mem_map_of_mem hd, Script.mem_preorder_self _ _⟩
      exact hapart d.1 hm d.1 below rfl

/-- Walking through the children of a node and out of it, behind the turn that enters the node. -/
theorem led_within
    (visited : ∀ c r (b : Bench σ), b.Sound → b.script.Rooted c → Visited c b (visitChild c r b).2)
    (follows : Follows sampler chance budget height visitChild) (rest : List Turn)
    (hs : b.Sound) (hr : b.script.Rooted id) (hb : b.pass.remaining ≤ budget)
    (hh : (b.script.tree id).size ≤ height + 1) (stands : b.Stands above) :
    Tallied b (within visitChild id b).2 ∧ ∃ moments, Led sampler chance
      ((sites b.script id).map (fun c => .enter c.1 c.2) ++ [.leave id])
      ((b.script.node id).children.flatMap (fun c =>
        ((within visitChild id b).2.script.tree c).tour (above ++ [b.script.kind id])) ++
          [.left id])
      { b with pass := b.pass.enter b.script id } (within visitChild id b).2 rest moments := by
  obtain ⟨whole, hnode⟩ := visited_within visited hs hr
  generalize run : (within visitChild id b).2 = b' at *
  have hkind : b'.script.kind id = b.script.kind id := congrArg Node.kind hnode
  have below : ∀ c ∈ (sites b.script id).map Prod.fst, (b.script.tree c).size ≤ height := by
    intro c hc
    rw [map_fst_sites] at hc
    have hlt := Tree.size_lt_of_mem_children (t := b.script.tree id) (c := b.script.tree c) (by
      rw [hr.children_eq]
      exact List.mem_map_of_mem hc)
    omega
  have hs₁ : Bench.Sound { b with pass := b.pass.enter b.script id } :=
    ⟨hs.closed, Pass.sound_enter hs.pass hs.closed id⟩
  obtain ⟨-, -, hmutations, hmax⟩ := Pass.enter_eq b.script id b.pass
  have hb₁ : (b.pass.enter b.script id).remaining ≤ budget := by
    rwa [Pass.remaining, hmutations, hmax]
  have apart := (List.nodup_cons.1 hr.branches.apart).2
  rw [← map_fst_sites] at apart
  have children : ∀ c ∈ (sites b.script id).map Prod.fst, b.script.Rooted c :=
    fun c hc => hr.child (by rwa [map_fst_sites] at hc)
  -- the walk through the children, between the turns that enter and leave the node
  obtain ⟨b₂, between⟩ : ∃ b₂, ((sites b.script id).forM (fun c => visitChild c.1 c.2)
      { b with pass := b.pass.enter b.script id }).2 = b₂ := ⟨_, rfl⟩
  obtain ⟨tallied, moments, leads, events, carried⟩ := led_forM (sites b.script id) visited follows
    (.leave id :: rest) hs₁ children apart hb₁ below (stands.enter id) between
  have walked := walked_forM (sites b.script id) (fun c _ => visited c.1 c.2) hs₁ children apart
  rw [between] at walked
  have out : (take sampler chance (.leave id) b₂).after = b' := by
    rw [← run, ← between]
    rfl
  have hscript : b₂.script = b'.script := by rw [← out]; rfl
  have hpass : b'.pass = b₂.pass.leave b₂.script id := by rw [← out]; rfl
  rw [map_fst_sites, hscript] at events
  obtain ⟨-, -, lmutations, lmax⟩ := Pass.leave_eq b₂.script id b₂.pass
  refine ⟨⟨?_, ?_, ?_⟩, moments ++ [take sampler chance (.leave id) b₂], ?_, ?_,
    fun I hI before now hroot reached => ?_⟩
  · rw [hpass, lmax, tallied.maxMutations, hmax]
  · rw [hpass, lmutations, ← hmutations]
    exact tallied.mutations
  · rw [hpass, Pass.functions_leave, tallied.functions, Pass.functions_enter, hscript, hkind]
    split <;> rfl
  · have last : Leads sampler chance b₂ (.leave id :: rest) [take sampler chance (.leave id) b₂]
        b' rest :=
      .next (by
        rw [out]
        exact .done b' rest)
    rw [List.append_assoc]
    exact leads.trans last
  · rw [List.map_append, events]
    rfl
  · obtain ⟨entering, leaving⟩ := List.forall_mem_append.1 reached
    have hid : id ∈ b.script.preorder root := leaving _ (List.mem_singleton_self _)
    obtain ⟨hroot₂, places⟩ := whole.graft hroot hid
    rw [← hscript] at hroot₂ places
    rw [← List.append_assoc, ← out]
    refine hI _ _ (.leave id) (carried I hI now hroot entering) walked.sound hroot₂ ?_
    exact (places id).2 (.inr (Script.mem_preorder_self _ _))

theorem tour_tree {s : Script} (h : s.Rooted id) (above : List Kind) :
    (s.tree id).tour above =
      .entered id (above.foldl Enclosure.enter .outermost) (above.countP Kind.isFunction) ::
        (s.node id).children.flatMap (fun c => (s.tree c).tour (above ++ [s.kind id])) ++
          [.left id] := by
  rw [Tree.tour_eq, Script.tag_tree, h.kind_eq, h.children_eq, List.flatMap_map]

/-- Entering a node, which puts a tree in its place perhaps, and walking through the children that
it has then. -/
theorem led_entered {b₁ : Bench σ} {replaceable : Bool}
    (visited : ∀ c r (b : Bench σ), b.Sound → b.script.Rooted c → Visited c b (visitChild c r b).2)
    (follows : Follows sampler chance budget height visitChild) (rest : List Turn) (hs : b.Sound)
    (ready : (take sampler chance (.enter id replaceable) b).ready = b₁) (first : Visited id b b₁)
    (tallied : Tallied b b₁) (hb : b₁.pass.remaining ≤ budget)
    (hh : (b₁.script.tree id).size ≤ height + 1) (stands : b.Stands above) :
    Tallied b (within visitChild id b₁).2 ∧ ∃ moments, Led sampler chance [.enter id replaceable]
      (((within visitChild id b₁).2.script.tree id).tour above) b (within visitChild id b₁).2 rest
      moments := by
  have stands₁ := stands.of_eq first.enclosures tallied.functions
  obtain ⟨whole, hnode⟩ := visited_within visited first.sound first.rooted
  obtain ⟨tallied', moments, leads, events, carried⟩ := led_within visited follows rest first.sound
    first.rooted hb hh stands₁
  have after : (take sampler chance (.enter id replaceable) b).after =
      { b₁ with pass := b₁.pass.enter b₁.script id } := by
    rw [Moment.after, ready]
    rfl
  have next : (take sampler chance (.enter id replaceable) b).next =
      (sites b₁.script id).map (fun c => .enter c.1 c.2) ++ [.leave id] := by
    rw [Moment.next, ready]
    rfl
  rw [← after, ← next] at leads
  refine ⟨tallied.trans tallied', _ :: moments, .next leads, ?_,
    fun I hI before now hroot reached => ?_⟩
  · rw [tour_tree whole.rooted, hnode, Script.kind, hnode, ← stands₁.enclosure, ← stands₁.depth,
      List.map_cons, events, Moment.event, ready]
    rfl
  · have hid := List.forall_mem_singleton.1 reached
    obtain ⟨hroot₁, places⟩ := first.graft hroot hid
    have hid₁ : id ∈ b₁.script.preorder root := (places id).2 (.inr (Script.mem_preorder_self _ _))
    have entered := hI _ _ (.enter id replaceable) now hs hroot hid
    rw [after] at entered
    rw [List.append_cons]
    refine carried I hI entered hroot₁ (List.forall_mem_append.2 ⟨fun t ht => ?_, ?_⟩)
    · obtain ⟨c, hc, rfl⟩ := List.mem_map.1 ht
      refine hroot₁.preorder_subset hid₁ (first.rooted.mem_preorder_child ?_
        (Script.mem_preorder_self _ _))
      rw [← map_fst_sites]
      exact List.mem_map_of_mem hc
    · exact List.forall_mem_singleton.2 hid₁

/-- The loop does what a walk does whose bounds are large enough. -/
theorem follows_visit (hl : sampler.Legal) (chance : Probability) (budget height : Nat) :
    Follows sampler chance budget height (visit sampler chance budget height) := by
  intro b id replaceable above rest hs hr hb hh stands
  rw [run_visit, attempt_eq hb]
  have first := visited_tryReplace hl chance replaceable hs hr
  have tried := tried_tryReplace sampler chance id replaceable hs
  have none_left : b.pass.remaining = 0 → (tryReplace sampler chance id replaceable b).1 = false :=
    fun h => by rw [tryReplace_of_remaining h]
  have ready : (take sampler chance (.enter id replaceable) b).ready =
    (tryReplace sampler chance id replaceable b).2 := rfl
  generalize tryReplace sampler chance id replaceable b = r at *
  obtain ⟨replaced, b₁⟩ := r
  dsimp only at first tried none_left ready ⊢
  have visited := fun budget height c r (b : Bench σ) (hs : b.Sound) (hr : b.script.Rooted c) =>
    visited_visit hl chance budget height r hs hr
  by_cases hreplaced : replaced = true ∧ 0 < budget
  · -- the tree that came in may have any size, but less may be replaced in it
    rw [if_pos hreplaced]
    refine led_entered (visited _ _) (follows_visit hl chance (budget - 1) b₁.script.nodes.size)
      rest hs ready first tried.tallied ?_ (Nat.le_succ_of_le first.rooted.size_le) stands
    rw [Pass.remaining, tried.tallied.maxMutations, tried.counted hreplaced.1, Nat.sub_add_eq]
    exact Nat.sub_le_sub_right hb 1
  · -- the node is as it was, and what is below it is smaller
    rw [if_neg hreplaced]
    have kept : replaced = false := by
      by_contra h
      have replaced_true : replaced = true := by simpa using h
      have out : budget = 0 := Nat.eq_zero_of_not_pos fun hpos => hreplaced ⟨replaced_true, hpos⟩
      exact h (none_left (Nat.le_zero.1 (out ▸ hb)))
    have same : b₁.script = b.script := tried.same kept
    rw [← same] at hh
    have remaining := Nat.le_trans tried.tallied.remaining_le hb
    cases height with
    | zero => exact absurd hh (Nat.not_le.2 (Tree.size_pos _))
    | succ height =>
      exact led_entered (visited _ _) (follows_visit hl chance budget height) rest hs ready first
        tried.tallied remaining hh stands
termination_by (budget, height)

/-- The loop that starts at the root has come to its end: what happened is a tour of the tree that
stands now. It entered the places of that tree in preorder, each once, and left each of them behind
those below it; it is outside of everything again. -/
structure Work.Toured (sampler : Sampler σ) (chance : Probability) (b : Bench σ)
    (moments : List (Moment σ)) (b' : Bench σ) : Prop where
  ends : ∃ rounds, ∀ more,
    loop sampler chance (rounds + more) [.enter root false] b = (moments, [], b')
  tour : moments.map Moment.event = (b'.script.tree root).tour []
  entered : (moments.map Moment.event).filterMap Event.entered? = b'.script.preorder root
  left : ((moments.map Moment.event).filterMap Event.left?).Perm (b'.script.preorder root)
  once : (b'.script.preorder root).Nodup
  enclosure : b'.pass.enclosure = .outermost
  depth : b'.pass.scope.depth = 0

/-- What happens in a loop that comes to its end is determined. -/
theorem Work.Toured.moments_eq {moments moments' : List (Moment σ)} {b₁ b₂ : Bench σ}
    (h : Toured sampler chance b moments b₁) (h' : Toured sampler chance b moments' b₂) :
    moments = moments' := by
  obtain ⟨rounds, ends⟩ := h.ends
  obtain ⟨rounds', ends'⟩ := h'.ends
  exact (Prod.mk.inj ((ends rounds').symm.trans (Nat.add_comm rounds rounds' ▸ ends' rounds))).1

/-- The walk through a whole program, as a loop. -/
theorem toured_visit {sampler : Sampler σ} (hl : sampler.Legal) (chance : Probability)
    (hs : b.Sound) (hr : b.script.Rooted root) (henc : b.pass.enclosures = [])
    (hf : b.pass.scope.functions = []) :
    let b' := (visit sampler chance b.pass.maxMutations b.script.nodes.size root false b).2
    ∃ moments, Toured sampler chance b moments b' ∧
      ∀ I : List (Moment σ) → Bench σ → Prop, Carries sampler chance I → I [] b → I moments b' := by
  intro b'
  have walk := visited_visit hl chance b.pass.maxMutations b.script.nodes.size false hs hr
  have remaining : b.pass.remaining ≤ b.pass.maxMutations := Nat.sub_le _ _
  have stands : b.Stands [] := by
    constructor
    · rw [Pass.enclosure, henc]
      rfl
    · rw [Scope.depth, hf]
      rfl
  obtain ⟨tallied, moments, leads, events, carried⟩ := follows_visit hl chance b.pass.maxMutations
    b.script.nodes.size b root false [] [] hs hr remaining hr.size_le stands
  refine ⟨moments, ⟨leads.exists_loop, events, ?_, ?_, walk.rooted.nodup, ?_, ?_⟩,
    fun I hI now => ?_⟩
  · rw [events]
    exact Tree.entered_tour _ _
  · rw [events]
    exact Tree.left_tour _ _
  · rw [Pass.enclosure_eq walk.enclosures, Pass.enclosure, henc]
    rfl
  · rw [Scope.depth, tallied.functions, hf]
    rfl
  · exact carried I hI now hr (List.forall_mem_singleton.2 (Script.mem_preorder_self _ _))

namespace Structural

/-- A pass before its walk. -/
def bench (m : Structural σ) (s : Script) : Bench σ :=
  ⟨s, .start s m.maxMutations, m.stream, m.samples⟩

/-- A pass whose walk is over. -/
def walked (sampler : Sampler σ) (m : Structural σ) (s : Script) : Bench σ :=
  (visit sampler m.chance m.maxMutations s.nodes.size root false (m.bench s)).2

/-- A pass that has brought in its imports. -/
def finished (sampler : Sampler σ) (m : Structural σ) (s : Script) : Bench σ :=
  (flushImports (m.walked sampler s)).2

theorem sound_bench (m : Structural σ) {s : Script} (hs : s.Wellformed) : (m.bench s).Sound :=
  ⟨hs.closed, Pass.sound_start hs.closed _⟩

theorem completed_walked {sampler : Sampler σ} (hl : sampler.Legal) (m : Structural σ) {s : Script}
    (hs : s.Wellformed) : Completed (m.bench s) (m.walked sampler s) :=
  completed_walk hl m.chance m.maxMutations s.nodes.size (m.sound_bench hs) hs rfl

/-- The walk of a pass, as a loop, with what every turn of it keeps. -/
theorem toured_walked {sampler : Sampler σ} (hl : sampler.Legal) (m : Structural σ) {s : Script}
    (hs : s.Wellformed) :
    ∃ moments, Toured sampler m.chance (m.bench s) moments (m.walked sampler s) ∧
      ∀ I : List (Moment σ) → Bench σ → Prop, Carries sampler m.chance I → I [] (m.bench s) →
        I moments (m.walked sampler s) :=
  toured_visit hl m.chance (m.sound_bench hs) hs.rooted rfl rfl

end Structural

/-- The loop of a structural pass over a program ends where its imports are brought in, and is a
tour of the tree that stands there. -/
theorem toured_run {sampler : Sampler σ} (hsampler : sampler.Supplied) {s : Script}
    (hs : s.Obtained) (m : Structural σ) :
    (∃ moments, Toured sampler m.chance (m.bench s) moments (m.walked sampler s)) ∧
      (m.run sampler s).2.1 = (flushImports (m.walked sampler s)).2.script := by
  obtain ⟨moments, toured, -⟩ := m.toured_walked hsampler.legal hs.wellformed
  exact ⟨⟨moments, toured⟩, rfl⟩

/-- A block inside a loop, with two nodes to be replaced at most. -/
theorem toured_run_block : ∃ s t : Script, Script.read "while (a) { b(); }" = .ok s ∧
    Script.read "do { break; } while (c);" = .ok t ∧
      let sampler : Sampler Unit := Sample.pinned ⟨.ofScript "t.js" t, 2⟩
      let m : Structural Unit := ⟨2, .always, .seeded 0, ()⟩
      (∃ moments, Toured sampler m.chance (m.bench s) moments (m.walked sampler s)) ∧
        (m.run sampler s).2.1 = (flushImports (m.walked sampler s)).2.script := by
  obtain ⟨s, hs, -⟩ : ∃ s, Script.read "while (a) { b(); }" = .ok s ∧ s.isLegal :=
    exists_read (by decide +kernel)
  obtain ⟨t, ht, -⟩ : ∃ t, Script.read "do { break; } while (c);" = .ok t ∧ t.isLegal :=
    exists_read (by decide +kernel)
  exact ⟨s, t, hs, ht,
    toured_run (.pinned ⟨_, _, _, ht, rfl⟩) (.read hs) ⟨2, .always, .seeded 0, ()⟩⟩

/-! ## Loops that are run -/

/-- A loop that has come to its end stays there. -/
theorem loop_of_ended {rounds : Nat} {turns : List Turn} (more : Nat)
    (h : (loop sampler chance rounds turns b).2.1 = []) :
    loop sampler chance (rounds + more) turns b = loop sampler chance rounds turns b := by
  induction rounds generalizing turns b with
  | zero =>
    obtain rfl : turns = [] := h
    cases more <;> rfl
  | succ rounds ih =>
    rw [Nat.add_right_comm]
    cases turns with
    | nil => rfl
    | cons turn rest =>
      rw [loop, loop, ih h]

/-- What happened in the walk of a pass and the pass behind it, if the loop ends within so many
turns. -/
def Structural.walkedWithin (sampler : Sampler σ) (m : Structural σ) (s : Script) (rounds : Nat) :
    Option (List (Moment σ) × Bench σ) :=
  let (moments, turns, b) := loop sampler m.chance rounds [.enter root false] (m.bench s)
  if turns.isEmpty then some (moments, b) else none

theorem toured_of_walkedWithin {sampler : Sampler σ} (hl : sampler.Legal) {m : Structural σ}
    {s : Script} (hs : s.Wellformed) {rounds : Nat} {moments : List (Moment σ)} {b : Bench σ}
    (h : m.walkedWithin sampler s rounds = some (moments, b)) :
    Toured sampler m.chance (m.bench s) moments (m.walked sampler s) ∧ m.walked sampler s = b := by
  obtain ⟨happened, toured, -⟩ := m.toured_walked hl hs
  obtain ⟨enough, ends⟩ := toured.ends
  unfold Structural.walkedWithin at h
  generalize hr : loop sampler m.chance rounds [.enter root false] (m.bench s) = r at h
  obtain ⟨moments', turns, b'⟩ := r
  dsimp only at h
  split at h
  · rename_i hturns
    obtain ⟨rfl, rfl⟩ := Prod.mk.inj (Option.some.inj h)
    have same := ends rounds
    have stays := loop_of_ended enough (by rw [hr]; exact List.isEmpty_iff.1 hturns)
    rw [Nat.add_comm, stays, hr] at same
    obtain ⟨rfl, he⟩ := Prod.mk.inj same
    exact ⟨toured, (Prod.mk.inj he).2.symm⟩
  · cases h

/-- A test of what happens in the walk of a structural pass with one sample over a source text. -/
theorem exists_walked (first second : String) (place : NodeId) (m : Structural Unit) (rounds : Nat)
    {p : Script → List (Moment Unit) → Bench Unit → Prop} [∀ t moments b, Decidable (p t moments b)]
    (h : (Script.read first).toOption.any (fun s => (Script.read second).toOption.any fun t =>
      (m.walkedWithin (Sample.pinned ⟨.ofScript "t.js" t, place⟩) s rounds).any
        fun r => decide (p t r.1 r.2)) = true) :
    ∃ s t, Script.read first = .ok s ∧ Script.read second = .ok t ∧
      let sampler := Sample.pinned ⟨.ofScript "t.js" t, place⟩
      ∃ moments, Toured sampler m.chance (m.bench s) moments (m.walked sampler s) ∧
        p t moments (m.walked sampler s) := by
  obtain ⟨s, t, hs, ht, h⟩ := exists_read_both h
  refine ⟨s, t, hs, ht, ?_⟩
  intro sampler
  generalize hrun : m.walkedWithin sampler s rounds = found at h
  cases found with
  | none => cases h
  | some r =>
    obtain ⟨toured, walked⟩ := toured_of_walkedWithin (legal_pinned _) (wellformed_read hs) hrun
    exact ⟨r.1, toured, walked ▸ of_decide_eq_true h⟩

end Graft
