import Graft.Proofs.Pass.Repair

/-!
# What a walk changes

A visit of a node changes nothing but what hangs under it, and leaves a tree there that may stand
where the old one could. What hangs under a child is apart from what hangs under its siblings, so
that the visits of the children are put together to that of the node.

* `Visited` - what a visit does to a pass at work
* `visited_splice` - a replacement is a visit
* `visited_visit` - a walk is a visit, whatever its bounds
-/

namespace Graft

open Chance (Draw Stream Probability)
open Script (Evolves)
open Work

variable {σ : Type} {b b' b'' : Bench σ} {id : NodeId}

/-- A sampler whose samples may stand where they are asked for. -/
def Sampler.Legal (sampler : Sampler σ) : Prop :=
  ∀ kind e samples stream, ∀ sample ∈ (sampler kind e samples stream).1.1,
    sample.entry.script.admissible sample.node e

/-- What a visit of a node does: it leaves a tree of old and new places there, legal if it was, and
leaves alone what is elsewhere. -/
structure Visited (id : NodeId) (b b' : Bench σ) : Prop where
  rooted : b'.script.Rooted id
  places : ∀ i ∈ b'.script.preorder id, i ∈ b.script.preorder id ∨ b.script.nodes.size ≤ i
  evolves : Evolves (b.script.preorder id) b.script b'.script
  legal : b.script.admissible id b.pass.enclosure → b'.script.admissible id b.pass.enclosure
  enclosures : b'.pass.enclosures = b.pass.enclosures
  pending : b.pass.pending <+: b'.pass.pending
  sound : b'.Sound

theorem Pass.enclosure_eq {p p' : Pass} (h : p'.enclosures = p.enclosures) :
    p'.enclosure = p.enclosure := by
  rw [Pass.enclosure, Pass.enclosure, h]

namespace Visited

theorem refl (hs : b.Sound) (hr : b.script.Rooted id) : Visited id b b :=
  ⟨hr, fun _ => .inl, (Evolves.refl _).mono (List.nil_subset _), fun h => h, rfl,
    List.prefix_refl _, hs⟩

/-- A visit that starts after a draw. -/
theorem of_drawn (h : Visited id b' b'') (hs : b'.script = b.script) (hp : b'.pass = b.pass) :
    Visited id b b'' := by
  obtain ⟨rooted, places, evolves, legal, enclosures, pending, sound⟩ := h
  rw [hs] at places evolves legal
  rw [hp] at legal enclosures pending
  exact ⟨rooted, places, evolves, legal, enclosures, pending, sound⟩

theorem trans (h : Visited id b b') (h' : Visited id b' b'') : Visited id b b'' := by
  have he := Pass.enclosure_eq h.enclosures
  refine ⟨h'.rooted, fun i hi => ?_, h.evolves.trans h'.evolves fun i hi hlt => ?_, fun hl => ?_,
    h'.enclosures.trans h.enclosures, h.pending.trans h'.pending, h'.sound⟩
  · rcases h'.places i hi with hi | hi
    · exact h.places i hi
    · exact .inr (Nat.le_trans h.evolves.size_le hi)
  · exact (h.places i hi).resolve_right (Nat.not_le.2 hlt)
  · exact he ▸ h'.legal (he.symm ▸ h.legal hl)

end Visited

/-! ## Replacing a node -/

theorem Pass.sound_recordMutation {s : Script} {p : Pass} (h : p.Sound s) :
    p.recordMutation.Sound s :=
  ⟨h.visible, h.indexed, h.vetted⟩

/-- A tree that was copied into the script and repaired, and is not yet part of the program. -/
structure Borrowed (source : Script) (place copy : NodeId) (b b' : Bench σ) : Prop where
  rooted : b'.script.Rooted copy
  fresh : ∀ i ∈ b'.script.preorder copy, b.script.nodes.size ≤ i
  admissible : ∀ e, b'.script.admissible copy e = source.admissible place e
  evolves : Evolves [] b.script b'.script
  scope : b'.pass.scope.clearBorrowed = b.pass.scope.clearBorrowed
  enclosures : b'.pass.enclosures = b.pass.enclosures
  mutations : b'.pass.mutations = b.pass.mutations
  maxMutations : b'.pass.maxMutations = b.pass.maxMutations
  pending : b.pass.pending <+: b'.pass.pending
  sound : b'.Sound

/-- A tree is copied to new places, and references of the copy are renamed. -/
theorem repaired_copy (hs : b.Sound) (source : Entry) (place : NodeId) :
    let made := Script.copy source.script place b.script
    let b₁ : Bench σ := { b with script := made.2 }
    Script.Planted (source.script.tree place) b.script made.1 made.2 ∧ b₁.Sound ∧
      Repaired made.2.Knows source (made.2.preorder made.1) b₁ (prepare made.1 source b₁).2 := by
  intro made b₁
  have planted : Script.Planted _ b.script made.1 made.2 :=
    Script.copy_spec source.script place b.script
  have sound : b₁.Sound :=
    ⟨planted.evolves.closed hs.closed, hs.pass.mono planted.evolves⟩
  exact ⟨planted, sound,
    repaired_prepare sound.pass.sees (Pass.knows_of_declared sound.closed) made.1 source⟩

theorem borrowed_copy (hs : b.Sound) (source : Entry) (place : NodeId) :
    let made := Script.copy source.script place b.script
    Borrowed source.script place made.1 b
      (prepare made.1 source ({ b with script := made.2 } : Bench σ)).2 := by
  intro made
  obtain ⟨planted, hs₁, repaired⟩ := repaired_copy hs source place
  have known : ∀ x, Script.Knows made.2 x → Script.Knows made.2 x := fun _ hx => hx
  have renamed := repaired.renamed
  obtain ⟨rooted, places⟩ := renamed.rooted known planted.rooted
  have grown := renamed.evolves known
  have sound := (repaired.sees.mono fun _ => grown.knows).sound (repaired.vetted hs₁.pass.vetted)
  refine ⟨rooted, fun i hi => planted.fresh i (places ▸ hi), fun e => ?_, ?_, repaired.scope,
    repaired.enclosures, repaired.mutations, repaired.maxMutations, repaired.pending,
    grown.closed hs₁.closed, sound⟩
  · rw [renamed.admissible known planted.rooted]
    exact planted.admissible e
  · refine planted.evolves.trans grown fun i hi hlt => ?_
    exact absurd (planted.fresh i hi) (Nat.not_le.2 hlt)

/-- A borrowed tree in the place of a node. -/
theorem Borrowed.visited {source : Script} {place copy : NodeId}
    (h : Borrowed source place copy b b') (hr : b.script.Rooted id)
    (hl : source.admissible place b.pass.enclosure) :
    Visited id b
      { b' with script := b'.script.replace id copy, pass := b'.pass.recordMutation } := by
  have apart : id ∉ b'.script.preorder copy := fun hi => Nat.not_le.2 hr.lt (h.fresh id hi)
  have hlt : id < b'.script.nodes.size := Nat.lt_of_lt_of_le hr.lt h.evolves.size_le
  have after : Evolves [id] b'.script (b'.script.replace id copy) :=
    Script.evolves_setNode id h.rooted.named
  obtain ⟨rooted, tree⟩ := Script.replace_spec hlt h.rooted apart
  refine ⟨rooted, fun i hi => ?_, ?_, fun _ => ?_, h.enclosures, h.pending,
    after.closed h.sound.closed, (Pass.sound_recordMutation h.sound.pass).mono after⟩
  · dsimp only at hi
    rw [Script.preorder_eq_tags, tree, Tree.tags_mk, List.mem_cons] at hi
    rcases hi with rfl | hi
    · exact .inl (Script.mem_preorder_self _ _)
    · refine .inr (h.fresh i ?_)
      rw [Script.preorder_eq_tags]
      generalize b'.script.tree copy = t at hi ⊢
      obtain ⟨tag, node⟩ := t
      rw [Tree.tags_mk]
      exact List.mem_cons_of_mem _ hi
  · refine (h.evolves.mono (List.nil_subset _)).trans after fun i hi _ => ?_
    exact List.mem_singleton.1 hi ▸ Script.mem_preorder_self _ _
  · exact (Script.admissible_replace hlt h.rooted apart _).trans ((h.admissible _).trans hl)

/-- A splice asks the sampler, and copies, repairs and puts in place what it gives. -/
theorem run_splice (sampler : Sampler σ) (id : NodeId) (b : Bench σ) :
    splice sampler id b =
      match sampler (b.script.kind id) b.pass.enclosure b.samples b.stream with
      | ((none, samples), stream) => (false, { b with samples, stream })
      | ((some sample, samples), stream) =>
        let made := Script.copy sample.entry.script sample.node b.script
        let b' := (prepare made.1 sample.entry { b with script := made.2, samples, stream }).2
        (true, { b' with
          script := b'.script.replace id made.1, pass := b'.pass.recordMutation }) := by
  unfold splice
  rw [run_bind, run_get, run_bind, run_ask]
  dsimp only
  rcases sampler (b.script.kind id) b.pass.enclosure b.samples b.stream with
    ⟨⟨_ | sample, samples⟩, stream⟩ <;> rfl

/-- A sample in the place of a node is a visit of it. -/
theorem visited_splice {sampler : Sampler σ} (hl : sampler.Legal) (hs : b.Sound)
    (hr : b.script.Rooted id) : Visited id b (splice sampler id b).2 := by
  rw [run_splice]
  have fits := hl (b.script.kind id) b.pass.enclosure b.samples b.stream
  generalize sampler (b.script.kind id) b.pass.enclosure b.samples b.stream = asked at *
  obtain ⟨⟨sample, samples⟩, stream⟩ := asked
  have hs₀ := hs.drawn samples stream
  rcases sample with _ | sample
  · exact ⟨hr, fun _ => .inl, (Evolves.refl _).mono (List.nil_subset _), fun h => h, rfl,
      List.prefix_refl _, hs₀⟩
  · have put := (borrowed_copy hs₀ sample.entry sample.node).visited hr (fits sample rfl)
    exact put.of_drawn rfl rfl

/-- Where a node may be replaced, a draw decides whether it is to be. Nothing else is done for the
choice. -/
theorem chosen_cases (chance : Probability) (id : NodeId) (replaceable : Bool) (b : Bench σ) :
    chosen chance id replaceable b = (false, b) ∨
      (replaceable = true ∧ (b.script.kind id).isSite ∧ b.pass.hasBudget) ∧
        ∃ wanted stream, chosen chance id replaceable b = (wanted, { b with stream }) := by
  unfold chosen
  rw [run_bind, run_get]
  dsimp only
  by_cases hc : replaceable && (b.script.kind id).isSite && b.pass.hasBudget
  · rw [if_pos hc, run_draw]
    rw [Bool.and_eq_true, Bool.and_eq_true, and_assoc] at hc
    exact .inr ⟨hc, _, _, rfl⟩
  · rw [if_neg hc]
    exact .inl rfl

/-- The choice to replace a node draws from the stream alone. -/
theorem exists_chosen (chance : Probability) (id : NodeId) (replaceable : Bool) (b : Bench σ) :
    ∃ wanted stream, chosen chance id replaceable b = (wanted, { b with stream }) ∧
      (wanted = true → replaceable = true ∧ (b.script.kind id).isSite ∧ b.pass.hasBudget) := by
  rcases chosen_cases chance id replaceable b with h | ⟨may, wanted, stream, h⟩
  · exact ⟨false, b.stream, h, nofun⟩
  · exact ⟨wanted, stream, h, fun _ => may⟩

/-- An attempt to replace a node does nothing, or it makes a draw, behind which the sampler may be
asked. -/
theorem tryReplace_cases (sampler : Sampler σ) (chance : Probability) (id : NodeId)
    (replaceable : Bool) (b : Bench σ) :
    tryReplace sampler chance id replaceable b = (false, b) ∨
      (replaceable = true ∧ (b.script.kind id).isSite ∧ b.pass.hasBudget) ∧ ∃ stream,
        (tryReplace sampler chance id replaceable b = (false, { b with stream }) ∨
          tryReplace sampler chance id replaceable b = splice sampler id { b with stream }) := by
  unfold tryReplace
  rw [run_bind]
  rcases chosen_cases chance id replaceable b with h | ⟨may, wanted, stream, h⟩
  · rw [h]
    exact .inl rfl
  · rw [h]
    refine .inr ⟨may, stream, ?_⟩
    cases wanted with
    | false => exact .inl rfl
    | true => exact .inr rfl

theorem visited_tryReplace {sampler : Sampler σ} (hl : sampler.Legal) (chance : Probability)
    (replaceable : Bool) (hs : b.Sound) (hr : b.script.Rooted id) :
    Visited id b (tryReplace sampler chance id replaceable b).2 := by
  rcases tryReplace_cases sampler chance id replaceable b with h | ⟨-, stream, h⟩
  · rw [h]
    exact .refl hs hr
  · have hs' := hs.drawn b.samples stream
    rcases h with h | h <;> rw [h]
    · exact (Visited.refl hs' hr).of_drawn rfl rfl
    · exact (visited_splice hl hs' hr).of_drawn rfl rfl

/-! ## Children in turn -/

/-- What visits of places in turn do, when the trees there are apart from each other. -/
structure Walked (cs : List NodeId) (b b' : Bench σ) : Prop where
  rooted : ∀ c ∈ cs, b'.script.Rooted c
  apart : (cs.flatMap b'.script.preorder).Nodup
  places : ∀ i ∈ cs.flatMap b'.script.preorder,
    i ∈ cs.flatMap b.script.preorder ∨ b.script.nodes.size ≤ i
  evolves : Evolves (cs.flatMap b.script.preorder) b.script b'.script
  legal : ∀ c ∈ cs, b.script.admissible c b.pass.enclosure →
    b'.script.admissible c b.pass.enclosure
  enclosures : b'.pass.enclosures = b.pass.enclosures
  pending : b.pass.pending <+: b'.pass.pending
  sound : b'.Sound

/-- The visit of a place leaves the trees alone that are apart from its tree. -/
theorem Visited.frame (h : Visited id b b') {c : NodeId} (hr : b.script.Rooted c)
    (apart : ∀ i ∈ b.script.preorder c, i ∉ b.script.preorder id) :
    b'.script.Rooted c ∧ b'.script.tree c = b.script.tree c :=
  hr.frame h.evolves apart

/-- The visit of a place leaves its siblings alone, and its tree stays apart from theirs. -/
theorem Visited.siblings (h : Visited id b b') {cs : List NodeId}
    (hr : ∀ c ∈ cs, b.script.Rooted c)
    (apart : ∀ i ∈ b.script.preorder id, i ∉ cs.flatMap b.script.preorder) :
    (∀ c ∈ cs, b'.script.Rooted c ∧ b'.script.tree c = b.script.tree c) ∧
      cs.flatMap b'.script.preorder = cs.flatMap b.script.preorder ∧
      ∀ i ∈ b'.script.preorder id, i ∉ cs.flatMap b.script.preorder := by
  have kept : ∀ c ∈ cs, b'.script.Rooted c ∧ b'.script.tree c = b.script.tree c :=
    fun c hc => h.frame (hr c hc) fun i hi hid => apart i hid (List.mem_flatMap.2 ⟨c, hc, hi⟩)
  refine ⟨kept, List.flatMap_congr fun c hc => ?_, fun i hi hm => ?_⟩
  · rw [Script.preorder_eq_tags, Script.preorder_eq_tags, (kept c hc).2]
  · rcases h.places i hi with hi | hi
    · exact apart i hi hm
    · obtain ⟨c, hc, hm⟩ := List.mem_flatMap.1 hm
      exact Nat.not_lt.2 hi ((hr c hc).places_lt i hm)

theorem walked_forM {visitChild : NodeId → Bool → Work σ Unit} (cs : List (NodeId × Bool))
    (step : ∀ c ∈ cs, ∀ b : Bench σ, b.Sound → b.script.Rooted c.1 →
      Visited c.1 b (visitChild c.1 c.2 b).2)
    (hs : b.Sound) (hr : ∀ c ∈ cs.map Prod.fst, b.script.Rooted c)
    (hd : ((cs.map Prod.fst).flatMap b.script.preorder).Nodup) :
    Walked (cs.map Prod.fst) b (cs.forM (fun c => visitChild c.1 c.2) b).2 := by
  induction cs generalizing b with
  | nil =>
    exact ⟨by simp, by simp, by simp, Evolves.refl _, by simp, rfl, List.prefix_refl _, hs⟩
  | cons c cs ih =>
    rw [List.map_cons, List.flatMap_cons, List.nodup_append] at hd
    obtain ⟨-, hrest, hapart⟩ := hd
    rw [List.map_cons, List.forall_mem_cons] at hr
    obtain ⟨hc, hcs⟩ := hr
    change Walked _ b (cs.forM (fun c => visitChild c.1 c.2) (visitChild c.1 c.2 b).2).2
    have first := step c (List.mem_cons_self ..) b hs hc
    generalize (visitChild c.1 c.2 b).2 = b₁ at first ⊢
    -- the siblings that follow are as they were, and so is the child while they are visited
    obtain ⟨kept, same, clear⟩ := first.siblings hcs fun i hi hm => hapart i hi i hm rfl
    have rest := ih (fun d hd => step d (List.mem_cons_of_mem _ hd)) first.sound
      (fun d hd => (kept d hd).1) (same ▸ hrest)
    generalize (cs.forM (fun c => visitChild c.1 c.2) b₁).2 = b₂ at rest ⊢
    obtain ⟨rooted, apart, places, evolves, legal, enclosures, pending, sound⟩ := rest
    rw [same] at places evolves
    have places' : ∀ i ∈ (cs.map Prod.fst).flatMap b₂.script.preorder,
        i ∈ (cs.map Prod.fst).flatMap b.script.preorder ∨ b₁.script.nodes.size ≤ i := places
    obtain ⟨hc₂, ht₂⟩ := first.rooted.frame evolves clear
    have pre₂ : b₂.script.preorder c.1 = b₁.script.preorder c.1 := by
      rw [Script.preorder_eq_tags, Script.preorder_eq_tags, ht₂]
    have henc := Pass.enclosure_eq first.enclosures
    refine ⟨?_, ?_, ?_, ?_, ?_, enclosures.trans first.enclosures, first.pending.trans pending,
      sound⟩
    · exact List.forall_mem_cons.2 ⟨hc₂, rooted⟩
    · rw [List.map_cons, List.flatMap_cons, pre₂, List.nodup_append]
      refine ⟨first.rooted.nodup, apart, fun i hi j hj hij => ?_⟩
      subst hij
      rcases places' i hj with hj | hj
      · exact clear i hi hj
      · exact Nat.not_lt.2 hj (first.rooted.places_lt i hi)
    · rw [List.map_cons, List.flatMap_cons, List.flatMap_cons, pre₂]
      intro i hi
      rcases List.mem_append.1 hi with hi | hi
      · exact (first.places i hi).imp_left (List.mem_append_left _)
      · rcases places' i hi with hi | hi
        · exact .inl (List.mem_append_right _ hi)
        · exact .inr (Nat.le_trans first.evolves.size_le hi)
    · rw [List.map_cons, List.flatMap_cons]
      refine (first.evolves.mono (List.subset_append_left ..)).trans evolves fun i hi _ => ?_
      exact List.mem_append_right _ hi
    · refine List.forall_mem_cons.2 ⟨fun hl => ?_, fun d hd hl => ?_⟩
      · rw [Script.admissible_of_tree_eq ht₂]
        exact first.legal hl
      · rw [← henc]
        refine legal d hd ?_
        rwa [henc, Script.admissible_of_tree_eq (kept d hd).2]

/-! ## Walking through a tree -/

theorem map_fst_sites (s : Script) (id : NodeId) :
    (sites s id).map Prod.fst = (s.node id).children := by
  rw [sites, List.map_map]
  exact List.map_id _

/-- A walk through the children of a node is a visit of it and leaves the node itself alone. -/
theorem visited_within {visitChild : NodeId → Bool → Work σ Unit}
    (step : ∀ c r (b : Bench σ), b.Sound → b.script.Rooted c → Visited c b (visitChild c r b).2)
    (hs : b.Sound) (hr : b.script.Rooted id) :
    Visited id b (within visitChild id b).2 ∧
      (within visitChild id b).2.script.node id = b.script.node id := by
  unfold within
  rw [run_bind, run_onPass, run_bind, run_bind, run_get, run_onPass]
  dsimp only
  obtain ⟨henc, hpend, -, -⟩ := Pass.enter_eq b.script id b.pass
  have entered := Pass.sound_enter hs.pass hs.closed id
  generalize b.pass.enter b.script id = p at henc hpend entered ⊢
  have hs₁ : Bench.Sound { b with pass := p } := ⟨hs.closed, entered⟩
  have walk := walked_forM (sites b.script id) (fun c _ b => step c.1 c.2 b) hs₁
  rw [map_fst_sites] at walk
  obtain ⟨hid, apart⟩ := List.nodup_cons.1 hr.branches.apart
  obtain ⟨rooted, apart, places, evolves, legal, enclosures, pending, sound⟩ :=
    walk (fun c hc => hr.child hc) apart
  generalize ((sites b.script id).forM (fun c => visitChild c.1 c.2) { b with pass := p }).2 = b₂
    at *
  have hid₂ : id ∉ (b.script.node id).children.flatMap b₂.script.preorder := fun hm =>
    (places id hm).elim hid fun h => Nat.not_le.2 hr.lt h
  have branches : b₂.script.Branches id (b.script.node id) :=
    ⟨evolves.node? hr.node? hid, evolves.named hr.named, rooted, List.nodup_cons.2 ⟨hid₂, apart⟩⟩
  have hr₂ := branches.rooted_and_tree.1
  have hnode : b₂.script.node id = b.script.node id := Script.node_eq branches.node?
  obtain ⟨lenc, lpend, -, -⟩ := Pass.leave_eq b₂.script id b₂.pass
  refine ⟨⟨hr₂, fun i hi => ?_, ?_, fun hl => ?_, ?_, ?_, sound.closed,
    Pass.sound_leave sound.pass id⟩, hnode⟩
  · change i ∈ b₂.script.preorder id at hi
    rw [hr₂.preorder_eq, hnode, List.mem_cons] at hi
    rcases hi with rfl | hi
    · exact .inl (Script.mem_preorder_self _ _)
    · refine (places i hi).imp_left fun hi => ?_
      rw [hr.preorder_eq]
      exact List.mem_cons_of_mem _ hi
  · rw [hr.preorder_eq]
    exact evolves.mono (List.subset_cons_self _ _)
  · have hin : p.enclosure = b.pass.enclosure.enter (b.script.kind id) := by
      rw [Pass.enclosure, henc]
      rfl
    change b₂.script.admissible id b.pass.enclosure
    have hkind : b₂.script.kind id = b.script.kind id := congrArg Node.kind hnode
    rw [hr.acyclic.admissible_eq, Bool.and_eq_true, List.all_eq_true] at hl
    rw [hr₂.acyclic.admissible_eq, Bool.and_eq_true, List.all_eq_true, hkind, hnode]
    exact ⟨hl.1, fun c hc => hin ▸ legal c hc (hin ▸ hl.2 c hc)⟩
  · exact lenc.trans (by rw [enclosures, henc]; rfl)
  · change b.pass.pending <+: (b₂.pass.leave b₂.script id).pending
    rw [lpend, ← hpend]
    exact pending

/-- Replace a node while there is budget. -/
def attempt (sampler : Sampler σ) (chance : Probability) (budget : Nat) (id : NodeId)
    (replaceable : Bool) : Work σ Bool :=
  if budget = 0 then pure false else tryReplace sampler chance id replaceable

/-- One step of a walk: the attempt, and then the walk through what stands there. -/
theorem run_visit (sampler : Sampler σ) (chance : Probability) (budget height : Nat) (id : NodeId)
    (replaceable : Bool) (b : Bench σ) :
    visit sampler chance budget height id replaceable b =
      let tried := attempt sampler chance budget id replaceable b
      if tried.1 = true ∧ 0 < budget then
        within (visit sampler chance (budget - 1) tried.2.script.nodes.size) id tried.2
      else
        match height with
        | 0 => ((), tried.2)
        | height + 1 => within (visit sampler chance budget height) id tried.2 := by
  rw [visit.eq_def, attempt]
  by_cases hb : budget = 0
  · simp only [if_pos hb]
    cases height <;> simp [hb, run_bind, run_pure]
  · simp only [if_neg hb]
    rw [run_bind]
    generalize tryReplace sampler chance id replaceable b = tried
    by_cases hr : tried.1 = true ∧ 0 < budget
    · rw [if_pos hr, if_pos hr]
      rfl
    · rw [if_neg hr, if_neg hr]
      cases height <;> rfl

theorem visited_attempt {sampler : Sampler σ} (hl : sampler.Legal) (chance : Probability)
    (budget : Nat) (replaceable : Bool) (hs : b.Sound) (hr : b.script.Rooted id) :
    Visited id b (attempt sampler chance budget id replaceable b).2 := by
  unfold attempt
  split
  · exact .refl hs hr
  · exact visited_tryReplace hl chance replaceable hs hr

/-- A walk is a visit, whatever its bounds are. -/
theorem visited_visit {sampler : Sampler σ} (hl : sampler.Legal) (chance : Probability)
    (budget height : Nat) {b : Bench σ} {id : NodeId} (replaceable : Bool) (hs : b.Sound)
    (hr : b.script.Rooted id) :
    Visited id b (visit sampler chance budget height id replaceable b).2 := by
  rw [run_visit]
  have first := visited_attempt hl chance budget replaceable hs hr
  generalize attempt sampler chance budget id replaceable b = tried at first ⊢
  dsimp only
  by_cases hreplaced : tried.1 = true ∧ 0 < budget
  · rw [if_pos hreplaced]
    refine first.trans (visited_within (fun c r b hs hr => ?_) first.sound first.rooted).1
    exact visited_visit hl chance (budget - 1) _ r hs hr
  · rw [if_neg hreplaced]
    cases height with
    | zero => exact first
    | succ height =>
      refine first.trans (visited_within (fun c r b hs hr => ?_) first.sound first.rooted).1
      exact visited_visit hl chance budget height r hs hr
termination_by (budget, height)

/-- A walk through a tree whose root is not to be replaced leaves its root alone. -/
theorem node_visit {sampler : Sampler σ} (hl : sampler.Legal) (chance : Probability)
    (budget height : Nat) (hs : b.Sound) (hr : b.script.Rooted id) :
    (visit sampler chance budget height id false b).2.script.node id = b.script.node id := by
  have untouched : attempt sampler chance budget id false b = (false, b) := by
    unfold attempt
    split <;> rfl
  rw [run_visit, untouched]
  cases height with
  | zero => rfl
  | succ height =>
    exact (visited_within (fun c r b hs hr => visited_visit hl chance budget height r hs hr)
      hs hr).2

end Graft
