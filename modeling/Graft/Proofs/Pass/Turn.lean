import Graft.Proofs.Pass.Coverage

/-!
# What a turn changes

A turn of a walk leaves the script alone, or it puts a sample in the place of the node that it
enters. Then the sample is copied to new places, and the node of the copy overwrites that one place.
So the kinds of the nodes that there are never change, and a node is what it was unless it has been
replaced since. Nothing is entered twice, and therefore nothing changes that has been entered.

* `Spliced` - what a sample in the place of a node does
* `take_cases` - what a turn does
* `Since` - what has changed since a moment
* `Bench.Traced` - what every turn keeps
* `exists_recorded` - what holds at every moment of a loop
-/

namespace Graft

open Chance (Probability)
open Script (Evolves root)
open Work

variable {σ : Type} {Kept : σ → Prop} {sampler : Sampler σ} {chance : Probability}
  {b b' b₀ : Bench σ} {id i : NodeId}

/-! ## Replacements -/

/-- What a sample in the place of a node does: all that was there stays, and the place gets the node
of a copy, which is of the kind of the old one. -/
structure Spliced (id : NodeId) (b b' : Bench σ) : Prop where
  overwritten : ∃ script copy, Evolves [] b.script script ∧ b.script.nodes.size ≤ copy ∧
    script.kind copy = b.script.kind id ∧ b'.script = script.replace id copy
  scope : b'.pass.scope = b.pass.scope
  mutations : b'.pass.mutations = b.pass.mutations + 1
  maxMutations : b'.pass.maxMutations = b.pass.maxMutations

namespace Spliced

theorem size_le (h : Spliced id b b') : b.script.nodes.size ≤ b'.script.nodes.size := by
  obtain ⟨script, copy, evolves, -, -, he⟩ := h.overwritten
  rw [he]
  simpa [Script.replace, Script.setNode] using evolves.size_le

theorem getElem?_eq (h : Spliced id b b') (hi : i < b.script.nodes.size) (hne : i ≠ id) :
    b'.script.nodes[i]? = b.script.nodes[i]? := by
  obtain ⟨script, copy, evolves, -, -, he⟩ := h.overwritten
  rw [he, Script.replace, Script.setNode, Array.getElem?_setIfInBounds_ne hne.symm,
    evolves.getElem?_eq hi]

theorem kind_eq (h : Spliced id b b') (hi : i < b.script.nodes.size) :
    b'.script.kind i = b.script.kind i := by
  obtain ⟨script, copy, evolves, -, kind, he⟩ := h.overwritten
  rw [he, Script.kind, Script.replace]
  by_cases hid : i = id
  · subst hid
    rw [Script.node_eq (Script.node?_setNode (Nat.lt_of_lt_of_le hi evolves.size_le))]
    exact kind
  · rw [Script.node_setNode_of_ne _ hid, evolves.node_eq hi]
    rfl

end Spliced

/-- A splice for which the sampler finds nothing changes neither script nor pass. -/
theorem splice_of_none
    (h : (sampler (b.script.kind id) b.pass.enclosure b.samples b.stream).1.1 = none) :
    (splice sampler id b).2.script = b.script ∧ (splice sampler id b).2.pass = b.pass := by
  rw [run_splice]
  generalize sampler (b.script.kind id) b.pass.enclosure b.samples b.stream = asked at h ⊢
  obtain ⟨⟨sample, samples⟩, stream⟩ := asked
  obtain rfl : sample = none := h
  exact ⟨rfl, rfl⟩

theorem spliced_splice (hs : sampler.Supplies Kept) (hb : b.Settled Kept) (sound : b.Sound)
    (hroot : b.script.Rooted root) {sample : Sample}
    (h : (sampler (b.script.kind id) b.pass.enclosure b.samples b.stream).1.1 = some sample) :
    Spliced id b (splice sampler id b).2 := by
  rw [run_splice]
  have kept := hs.kept (b.script.kind id) b.pass.enclosure b.samples b.stream hb.kept
  obtain ⟨hread, hkind⟩ :=
    hs.read (b.script.kind id) b.pass.enclosure b.samples b.stream hb.kept sample h
  generalize sampler (b.script.kind id) b.pass.enclosure b.samples b.stream = asked at kept h ⊢
  obtain ⟨⟨found, samples⟩, stream⟩ := asked
  obtain rfl : found = some sample := h
  have hb₀ := hb.drawn kept stream
  have sound₀ := sound.drawn samples stream
  have borrowed := borrowed_copy sound₀ sample.entry sample.node
  have kinds := kind_copy sound₀ sample.entry sample.node
  obtain ⟨settled, -⟩ := settled_copy hb₀ sound₀ hroot hread sample.node
  dsimp only at borrowed kinds settled ⊢
  generalize (prepare _ sample.entry _).2 = b' at borrowed kinds settled ⊢
  refine ⟨⟨b'.script, _, borrowed.evolves, borrowed.fresh _ (Script.mem_preorder_self _ _),
    kinds.trans hkind, rfl⟩, ?_, congrArg (· + 1) borrowed.mutations, borrowed.maxMutations⟩
  -- before the copy and behind it nothing is shown to a borrowed tree
  have scope := borrowed.scope
  have before : b.pass.scope.clearBorrowed = b.pass.scope := by
    rw [Scope.clearBorrowed, ← hb.alone]
  have behind : b'.pass.scope.clearBorrowed = b'.pass.scope := by
    rw [Scope.clearBorrowed, ← settled.alone]
  exact behind.symm.trans (scope.trans before)

/-- A turn leaves script and pass alone, or it enters a site, while there is budget, and puts a
sample in its place. -/
theorem take_cases (hs : sampler.Supplies Kept) (chance : Probability) (hb : b.Settled Kept)
    (sound : b.Sound) (hroot : b.script.Rooted root) (turn : Turn) :
    let m := take sampler chance turn b
    (m.sample? sampler chance = none ∧ m.ready.script = b.script ∧ m.ready.pass = b.pass) ∨
      (m.sample? sampler chance).isSome ∧ ∃ id, turn = .enter id true ∧
        (b.script.kind id).isSite ∧ b.pass.hasBudget ∧ Spliced id b m.ready := by
  cases turn with
  | leave id => exact .inl ⟨rfl, rfl, rfl⟩
  | enter id replaceable =>
    obtain ⟨wanted, stream, may, ready, sample⟩ := take_enter sampler chance id replaceable b
    dsimp only
    rw [ready, sample]
    cases wanted with
    | false => exact .inl ⟨rfl, rfl, rfl⟩
    | true =>
      rw [if_pos rfl, if_pos rfl]
      obtain ⟨rfl, site, budget⟩ := may rfl
      have hb' := hb.drawn hb.kept stream
      have sound' := sound.drawn b.samples stream
      cases found : (sampler (b.script.kind id) b.pass.enclosure b.samples stream).1.1 with
      | none => exact .inl ⟨rfl, splice_of_none found⟩
      | some sample =>
        obtain ⟨overwritten, scope, mutations, maxMutations⟩ :=
          spliced_splice hs hb' sound' hroot found
        exact .inr ⟨rfl, id, rfl, site, budget, overwritten, scope, mutations, maxMutations⟩

namespace Moment

/-- Entering and leaving a node leave the script alone. -/
theorem script_after (m : Moment σ) : m.after.script = m.ready.script := by
  unfold after
  split <;> rfl

/-- Entering and leaving a node leave the counts and the queue alone. -/
theorem counts_after (m : Moment σ) : m.after.pass.mutations = m.ready.pass.mutations ∧
    m.after.pass.maxMutations = m.ready.pass.maxMutations ∧
    m.after.pass.pending = m.ready.pass.pending := by
  unfold after
  split
  · obtain ⟨-, pending, mutations, maxMutations⟩ := Pass.enter_eq m.ready.script _ m.ready.pass
    exact ⟨mutations, maxMutations, pending⟩
  · obtain ⟨-, pending, mutations, maxMutations⟩ := Pass.leave_eq m.ready.script _ m.ready.pass
    exact ⟨mutations, maxMutations, pending⟩

end Moment

/-- The node of a turn stays part of the program when another takes its place. -/
theorem rooted_take (hs : sampler.Supplies Kept) (chance : Probability) (sound : b.Sound)
    (hroot : b.script.Rooted root) {turn : Turn} (place : turn.place ∈ b.script.preorder root) :
    (take sampler chance turn b).ready.script.Rooted root ∧
      turn.place ∈ (take sampler chance turn b).ready.script.preorder root := by
  cases turn with
  | leave id => exact ⟨hroot, place⟩
  | enter id replaceable =>
    obtain ⟨rooted, places⟩ := (visited_tryReplace hs.legal chance replaceable sound
      (hroot.of_mem_preorder place)).graft hroot place
    exact ⟨rooted, (places id).2 (.inr (Script.mem_preorder_self _ _))⟩

/-- A turn does not bring back what is out of the program. -/
theorem mem_preorder_before (hs : sampler.Supplies Kept) (chance : Probability) (sound : b.Sound)
    (hroot : b.script.Rooted root) {turn : Turn} (place : turn.place ∈ b.script.preorder root)
    (hi : i < b.script.nodes.size)
    (hm : i ∈ (take sampler chance turn b).after.script.preorder root) :
    i ∈ b.script.preorder root := by
  rw [Moment.script_after] at hm
  cases turn with
  | leave id => exact hm
  | enter id replaceable =>
    have visited := visited_tryReplace hs.legal chance replaceable sound
      (hroot.of_mem_preorder place)
    rcases ((visited.graft hroot place).2 i).1 hm with ⟨hm, -⟩ | below
    · exact hm
    · have old := (visited.places i below).resolve_right (Nat.not_le.2 hi)
      exact hroot.preorder_subset place old

/-! ## What happened -/

namespace Work

/-- The places that have been entered. -/
def entered (moments : List (Moment σ)) : List NodeId :=
  (moments.map Moment.event).filterMap Event.entered?

/-- The places that got a sample. -/
def replaced (sampler : Sampler σ) (chance : Probability) (moments : List (Moment σ)) :
    List NodeId :=
  moments.filterMap fun m => (m.sample? sampler chance).map fun _ => m.turn.place

theorem entered_append (front back : List (Moment σ)) :
    entered (front ++ back) = entered front ++ entered back := by
  rw [entered, List.map_append, List.filterMap_append]
  rfl

theorem replaced_append (front back : List (Moment σ)) :
    replaced sampler chance (front ++ back) =
      replaced sampler chance front ++ replaced sampler chance back :=
  List.filterMap_append

theorem mem_entered_singleton {m : Moment σ} :
    i ∈ entered [m] ↔ ∃ replaceable, m.turn = .enter i replaceable := by
  rw [entered, List.map_singleton, Moment.event]
  cases m.turn with
  | enter id replaceable => simp [Event.entered?, eq_comm]
  | leave id => simp [Event.entered?]

/-- What gets a sample is entered. -/
theorem entered?_of_sample {m : Moment σ} (h : (m.sample? sampler chance).isSome) :
    m.event.entered? = some m.turn.place := by
  unfold Moment.sample? at h
  unfold Moment.event
  cases hturn : m.turn with
  | enter id replaceable => rfl
  | leave id =>
    rw [hturn] at h
    cases h

theorem mem_entered_of_sample {m : Moment σ} (h : (m.sample? sampler chance).isSome) :
    m.turn.place ∈ entered [m] := by
  rw [entered, List.map_singleton, List.filterMap_cons_some (entered?_of_sample h)]
  exact List.mem_singleton_self _

theorem replaced_sublist (moments : List (Moment σ)) :
    (replaced sampler chance moments).Sublist (entered moments) := by
  induction moments with
  | nil => exact .slnil
  | cons m moments ih =>
    rw [replaced, List.filterMap_cons, entered, List.map_cons, List.filterMap_cons]
    cases hm : m.sample? sampler chance with
    | none =>
      cases m.event.entered? with
      | none => exact ih
      | some id => exact ih.cons id
    | some sample =>
      rw [entered?_of_sample (Option.isSome_iff_exists.2 ⟨sample, hm⟩)]
      exact ih.cons_cons _

end Work

/-- What has changed since a moment: nodes that got a sample are of the kinds that they were of, and
other nodes are what they were. -/
structure Since (sampler : Sampler σ) (chance : Probability) (b₀ : Bench σ)
    (later : List (Moment σ)) (b : Bench σ) : Prop where
  size_le : b₀.script.nodes.size ≤ b.script.nodes.size
  kind_eq : ∀ i < b₀.script.nodes.size, b.script.kind i = b₀.script.kind i
  getElem?_eq : ∀ i < b₀.script.nodes.size, i ∉ replaced sampler chance later →
    b.script.nodes[i]? = b₀.script.nodes[i]?
  /-- What is out of the program does not come back. -/
  reached : ∀ i < b₀.script.nodes.size, i ∈ b.script.preorder root → i ∈ b₀.script.preorder root

namespace Since

variable {later : List (Moment σ)}

theorem of_script_eq (h : b.script = b₀.script) : Since sampler chance b₀ [] b :=
  ⟨Nat.le_of_eq (h ▸ rfl), fun _ _ => h ▸ rfl, fun _ _ _ => h ▸ rfl, fun _ _ hi => h ▸ hi⟩

/-- What a turn changes adds to what has changed before. -/
theorem step (h : Since sampler chance b₀ later b) (hs : sampler.Supplies Kept)
    (hb : b.Settled Kept) (sound : b.Sound) (hroot : b.script.Rooted root) {turn : Turn}
    (place : turn.place ∈ b.script.preorder root) :
    Since sampler chance b₀ (later ++ [take sampler chance turn b])
      (take sampler chance turn b).after := by
  have reached := fun i hi hm => h.reached i hi (mem_preorder_before hs chance sound hroot
    place (Nat.lt_of_lt_of_le hi h.size_le) hm)
  rcases take_cases hs chance hb sound hroot turn with
    ⟨-, same, -⟩ | ⟨sample, id, rfl, -, -, spliced⟩
  · have same' := (Moment.script_after _).trans same
    refine ⟨same' ▸ h.size_le, fun i hi => same' ▸ h.kind_eq i hi, fun i hi hr => ?_, reached⟩
    rw [replaced_append, List.mem_append, not_or] at hr
    rw [same']
    exact h.getElem?_eq i hi hr.1
  · refine ⟨?_, fun i hi => ?_, fun i hi hr => ?_, reached⟩
    · rw [Moment.script_after]
      exact Nat.le_trans h.size_le spliced.size_le
    · rw [Moment.script_after, spliced.kind_eq (Nat.lt_of_lt_of_le hi h.size_le), h.kind_eq i hi]
    · rw [replaced_append, List.mem_append, not_or] at hr
      have other : i ≠ id := by
        rintro rfl
        obtain ⟨sample, hs⟩ := Option.isSome_iff_exists.1 sample
        refine hr.2 (List.mem_filterMap.2 ⟨_, List.mem_singleton_self _, ?_⟩)
        rw [hs]
        rfl
      rw [Moment.script_after, spliced.getElem?_eq (Nat.lt_of_lt_of_le hi h.size_le) other,
        h.getElem?_eq i hi hr.1]

/-- Nothing changes that has been entered, if nothing is entered twice. -/
theorem getElem?_eq_of_entered {front back : List (Moment σ)} {m : Moment σ}
    (h : Since sampler chance m.after back b) (once : (entered (front ++ m :: back)).Nodup)
    (hi : i ∈ entered (front ++ [m])) (hlt : i < m.after.script.nodes.size) :
    b.script.nodes[i]? = m.after.script.nodes[i]? := by
  rw [List.append_cons, entered_append, List.nodup_append] at once
  refine h.getElem?_eq i hlt fun hr => ?_
  exact once.2.2 i hi i ((replaced_sublist back).subset hr) rfl

end Since

/-- What every turn keeps: the nodes change as the samples say, and there are no more samples than
there may be. -/
structure Bench.Traced (Kept : σ → Prop) (sampler : Sampler σ) (chance : Probability)
    (start : Bench σ) (moments : List (Moment σ)) (b : Bench σ) : Prop where
  settled : b.Settled Kept
  started : Since sampler chance start moments b
  since : ∀ front m back, moments = front ++ m :: back → Since sampler chance m.after back b
  known : ∀ i ∈ entered moments, i < b.script.nodes.size
  counted : b.pass.mutations = start.pass.mutations + (replaced sampler chance moments).length
  maxMutations : b.pass.maxMutations = start.pass.maxMutations
  bounded : b.pass.mutations ≤ b.pass.maxMutations
  untouched : replaced sampler chance moments = [] →
    b.script = start.script ∧ b.pass.pending = start.pass.pending

/-- What is done behind a list of moments splits where the list does, or at its end. -/
theorem eq_or_exists_of_append_singleton {α : Type} {xs front back : List α} {x m : α}
    (h : xs ++ [x] = front ++ m :: back) :
    (front = xs ∧ m = x ∧ back = []) ∨ ∃ more, back = more ++ [x] ∧ xs = front ++ m :: more := by
  rcases List.eq_nil_or_concat back with rfl | ⟨more, z, rfl⟩
  · obtain ⟨rfl, he⟩ := List.append_inj' h rfl
    exact .inl ⟨rfl, (List.singleton_inj.1 he).symm, rfl⟩
  · rw [List.concat_eq_append, ← List.cons_append, ← List.append_assoc] at h
    obtain ⟨rfl, he⟩ := List.append_inj' h rfl
    obtain rfl := List.singleton_inj.1 he
    exact .inr ⟨more, List.concat_eq_append, rfl⟩

theorem carries_traced (hs : sampler.Supplies Kept) (chance : Probability) (start : Bench σ) :
    Carries sampler chance (Bench.Traced Kept sampler chance start) := by
  intro moments b turn h sound hroot place
  have settled := carries_settled hs chance moments b turn h.settled sound hroot place
  have cases := take_cases hs chance h.settled sound hroot turn
  have started := h.started.step hs h.settled sound hroot place
  have since := fun front m back he =>
    (h.since front m back he).step hs h.settled sound hroot place
  have size_le : b.script.nodes.size ≤ (take sampler chance turn b).after.script.nodes.size :=
    ((Since.of_script_eq rfl).step hs h.settled sound hroot place).size_le
  obtain ⟨mutations, maxMutations, pending⟩ := (take sampler chance turn b).counts_after
  have script := (take sampler chance turn b).script_after
  have hturn : (take sampler chance turn b).turn = turn := rfl
  generalize take sampler chance turn b = m at *
  refine ⟨settled, started, fun front m' back he => ?_, fun i hi => ?_, ?_, ?_, ?_, fun none => ?_⟩
  · -- the moment is the one of this turn, behind which nothing has happened, or an earlier one
    rcases eq_or_exists_of_append_singleton he with ⟨rfl, rfl, rfl⟩ | ⟨more, rfl, before⟩
    · exact .of_script_eq rfl
    · exact since front m' more before
  · rw [entered_append, List.mem_append, mem_entered_singleton] at hi
    rcases hi with hi | ⟨replaceable, hi⟩
    · exact Nat.lt_of_lt_of_le (h.known i hi) size_le
    · obtain rfl : turn = .enter i replaceable := hturn.symm.trans hi
      exact Nat.lt_of_lt_of_le (hroot.places_lt i place) size_le
  · -- a splice is counted, and it is the only turn with a sample
    rw [mutations, replaced_append, List.length_append, ← Nat.add_assoc, ← h.counted, replaced]
    rcases cases with ⟨sample, -, same⟩ | ⟨sample, id, -, -, -, spliced⟩
    · rw [same, List.filterMap_cons_none (by rw [sample]; rfl)]
      rfl
    · obtain ⟨found, hs⟩ := Option.isSome_iff_exists.1 sample
      rw [spliced.mutations, List.filterMap_cons_some (by rw [hs]; rfl)]
      rfl
  · rw [maxMutations, ← h.maxMutations]
    rcases cases with ⟨-, -, same⟩ | ⟨-, id, -, -, -, spliced⟩
    · rw [same]
    · exact spliced.maxMutations
  · -- there was budget in front of the splice
    rw [mutations, maxMutations]
    rcases cases with ⟨-, -, same⟩ | ⟨-, id, -, -, budget, spliced⟩
    · rw [same]
      exact h.bounded
    · rw [spliced.mutations, spliced.maxMutations]
      exact of_decide_eq_true budget
  · rw [replaced_append, List.append_eq_nil_iff] at none
    obtain ⟨before, none⟩ := none
    rcases cases with ⟨-, same, pass⟩ | ⟨sample, -⟩
    · rw [script, same, pending, pass]
      exact h.untouched before
    · obtain ⟨found, hs⟩ := Option.isSome_iff_exists.1 sample
      rw [replaced, List.filterMap_cons_some (by rw [hs]; rfl)] at none
      cases none

theorem traced_bench {source : String} {s : Script} (h : Script.read source = .ok s)
    {m : Structural σ} (kept : Kept m.samples) :
    Bench.Traced Kept sampler chance (m.bench s) [] (m.bench s) := by
  refine ⟨settled_bench h kept, .of_script_eq rfl, fun front m back he => ?_,
    fun i hi => absurd hi List.not_mem_nil, rfl, rfl, Nat.zero_le _, fun _ => ⟨rfl, rfl⟩⟩
  exact absurd (congrArg List.length he) (by simp)

/-! ## Moments of a loop -/

/-- A moment of a loop behind what happened before it: it is that of a turn at a place of the
program, and what every turn keeps holds before and after it. -/
structure Met (sampler : Sampler σ) (chance : Probability)
    (I : List (Moment σ) → Bench σ → Prop) (front : List (Moment σ)) (m : Moment σ) : Prop where
  taken : m = take sampler chance m.turn m.before
  before : I front m.before
  after : I (front ++ [m]) m.after
  sound : m.before.Sound
  rooted : m.before.script.Rooted root
  place : m.turn.place ∈ m.before.script.preorder root

/-- What a turn leaves is a tree that the node of the turn is part of. -/
theorem Met.rooted_after {I : List (Moment σ) → Bench σ → Prop} {front : List (Moment σ)}
    {m : Moment σ} (h : Met sampler chance I front m) (hs : sampler.Supplies Kept) :
    m.after.script.Rooted root ∧ m.turn.place ∈ m.after.script.preorder root := by
  have ready := rooted_take hs chance h.sound h.rooted h.place
  rwa [← h.taken, ← m.script_after] at ready

/-- What every turn keeps holds at every moment. -/
theorem carries_met {I : List (Moment σ) → Bench σ → Prop} (hI : Carries sampler chance I) :
    Carries sampler chance fun moments b => I moments b ∧
      ∀ front m back, moments = front ++ m :: back → Met sampler chance I front m := by
  rintro moments b turn ⟨now, met⟩ sound hroot place
  have next := hI moments b turn now sound hroot place
  refine ⟨next, fun front m back he => ?_⟩
  rcases eq_or_exists_of_append_singleton he with ⟨rfl, rfl, rfl⟩ | ⟨more, rfl, before⟩
  · exact ⟨rfl, now, next, sound, hroot, place⟩
  · exact met front m more before

/-- A turn of a loop was due from the beginning, or an earlier one made it so. -/
theorem turn_of_loop {rounds : Nat} {turns : List Turn} {front back : List (Moment σ)}
    {m : Moment σ} (h : (loop sampler chance rounds turns b).1 = front ++ m :: back) :
    m.turn ∈ turns ∨ ∃ m' ∈ front, m.turn ∈ m'.next := by
  induction rounds generalizing turns b front with
  | zero => exact absurd (congrArg List.length h) (by simp [loop])
  | succ rounds ih =>
    cases turns with
    | nil => exact absurd (congrArg List.length h) (by simp [loop])
    | cons turn rest =>
      rw [loop] at h
      dsimp only at h
      -- the rest of the loop starts with the turns that the first one made due
      rcases List.cons_eq_append_iff.1 h with ⟨rfl, he⟩ | ⟨front, rfl, he⟩
      · obtain ⟨rfl, -⟩ := List.cons.inj he
        exact .inl List.mem_cons_self
      · rcases ih he with due | ⟨m', hm', due⟩
        · rcases List.mem_append.1 due with due | due
          · exact .inr ⟨_, List.mem_cons_self, due⟩
          · exact .inl (List.mem_cons_of_mem _ due)
        · exact .inr ⟨m', List.mem_cons_of_mem _ hm', due⟩

/-- What may be replaced is not the left side of a loop through a collection. -/
theorem mem_sites_iff {s : Script} {p : NodeId} {replaceable : Bool} :
    (i, replaceable) ∈ sites s p ↔
      i ∈ (s.node p).children ∧ replaceable = (some i != (s.node p).each?) := by
  constructor
  · intro h
    obtain ⟨c, hc, he⟩ := List.mem_map.1 h
    obtain ⟨rfl, rfl⟩ := Prod.mk.inj he
    refine ⟨hc, ?_⟩
    cases s.node p <;> rfl
  · rintro ⟨hc, rfl⟩
    exact mem_sites hc

/-- The turn to enter a node comes from the turn that entered its parent. -/
theorem Moment.enter_mem_next {m : Moment σ} {replaceable : Bool}
    (h : Turn.enter i replaceable ∈ m.next) :
    m.turn.place ∈ entered [m] ∧ (i, replaceable) ∈ sites m.after.script m.turn.place := by
  rw [Moment.script_after]
  unfold Moment.next at h
  cases hturn : m.turn with
  | leave id =>
    rw [hturn] at h
    exact absurd h List.not_mem_nil
  | enter id r =>
    rw [hturn] at h
    refine ⟨mem_entered_singleton.2 ⟨r, hturn⟩, ?_⟩
    rcases List.mem_append.1 h with h | h
    · obtain ⟨c, hc, he⟩ := List.mem_map.1 h
      obtain ⟨rfl, rfl⟩ := Turn.enter.inj he
      exact hc
    · exact Turn.noConfusion (List.mem_singleton.1 h)

/-- A loop that has come to its end, with what its turns kept. -/
structure Work.Recorded (Kept : σ → Prop) (sampler : Sampler σ) (chance : Probability)
    (start : Bench σ) (moments : List (Moment σ)) (b : Bench σ) : Prop where
  toured : Toured sampler chance start moments b
  traced : Bench.Traced Kept sampler chance start moments b
  met : ∀ front m back, moments = front ++ m :: back →
    Met sampler chance (Bench.Traced Kept sampler chance start) front m

namespace Work.Recorded

variable {start : Bench σ} {moments front back : List (Moment σ)} {m : Moment σ}
  {replaceable : Bool}

theorem nodup_entered (h : Recorded Kept sampler chance start moments b) :
    (entered moments).Nodup := by
  rw [entered, h.toured.entered]
  exact h.toured.once

/-- What has been entered at some moment is what it was then when the loop is over, and it was part
of the program at that moment. -/
theorem standing (h : Recorded Kept sampler chance start moments b)
    (he : moments = front ++ m :: back) (hi : i ∈ entered (front ++ [m])) :
    b.script.nodes[i]? = m.after.script.nodes[i]? ∧ i ∈ m.after.script.preorder root := by
  have since := h.traced.since front m back he
  have hlt := (h.met front m back he).after.known i hi
  refine ⟨since.getElem?_eq_of_entered (he ▸ h.nodup_entered) hi hlt, since.reached i hlt ?_⟩
  rw [← h.toured.entered]
  change i ∈ entered moments
  rw [he, List.append_cons, entered_append]
  exact List.mem_append_left _ hi

/-- A node that is entered is the root, which is not replaced, or it is a child of a node that was
entered before, and is replaced at most if it is not the left side of a loop through a
collection. -/
theorem exists_parent (hs : sampler.Supplies Kept)
    (h : Recorded Kept sampler chance start moments b) (he : moments = front ++ m :: back)
    (hturn : m.turn = .enter i replaceable) :
    (i = root ∧ replaceable = false) ∨ ∃ p ∈ entered front, p ∈ m.before.script.preorder root ∧
      i ∈ (m.before.script.node p).children ∧
      replaceable = (some i != (m.before.script.node p).each?) := by
  obtain ⟨rounds, ends⟩ := h.toured.ends
  rcases turn_of_loop ((congrArg Prod.fst (ends 0)).trans he) with due | ⟨m', hm', due⟩
  · rw [hturn, List.mem_singleton] at due
    obtain ⟨rfl, rfl⟩ := Turn.enter.inj due
    exact .inl ⟨rfl, rfl⟩
  · rw [hturn] at due
    obtain ⟨entering, site⟩ := Moment.enter_mem_next due
    obtain ⟨f, more, rfl⟩ := List.append_of_mem hm'
    have now := h.met _ m back he
    have before := h.met f m' (more ++ m :: back) (by rw [he, List.append_assoc]; rfl)
    have hp : m'.turn.place ∈ entered (f ++ [m']) := by
      rw [entered_append]
      exact List.mem_append_right _ entering
    have hlt := before.after.known _ hp
    have once := h.nodup_entered
    rw [he, entered_append] at once
    -- the parent is as it was when it was entered
    have same := (now.before.since f m' more rfl).getElem?_eq_of_entered
      (List.nodup_append.1 once).1 hp hlt
    have hp' : m'.turn.place ∈ entered (f ++ m' :: more) := by
      rw [List.append_cons, entered_append]
      exact List.mem_append_left _ hp
    have later := (h.standing he (entered_append _ [m] ▸ List.mem_append_left _ hp')).2
    rw [now.taken] at later
    have reached := mem_preorder_before hs chance now.sound now.rooted now.place
      (now.before.known _ hp') later
    rw [mem_sites_iff, ← Script.node_congr same] at site
    exact .inr ⟨_, hp', reached, site⟩

end Work.Recorded

/-- What happens in the loop of a pass, with all that its turns keep. -/
theorem exists_recorded (hs : sampler.Supplies Kept) {source : String} {s : Script}
    (h : Script.read source = .ok s) {m : Structural σ} (kept : Kept m.samples) :
    ∃ moments, Recorded Kept sampler m.chance (m.bench s) moments (m.walked sampler s) ∧
      ∀ I : List (Moment σ) → Bench σ → Prop, Carries sampler m.chance I → I [] (m.bench s) →
        I moments (m.walked sampler s) := by
  obtain ⟨moments, toured, carried⟩ := m.toured_walked hs.legal (wellformed_read h)
  obtain ⟨traced, met⟩ := carried _ (carries_met (carries_traced hs m.chance (m.bench s)))
    ⟨traced_bench h kept, fun front m back he => absurd (congrArg List.length he) (by simp)⟩
  exact ⟨moments, ⟨toured, traced, met⟩, carried⟩

end Graft
