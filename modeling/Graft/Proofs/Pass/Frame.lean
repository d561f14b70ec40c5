import Graft.Proofs.Pass.Grammar
import Graft.Proofs.Pass.Turn

/-!
# The frame of a structural pass

A structural pass counts the places that it overwrites, and overwrites none twice. What it puts
there is of the kind of what was there, and it leaves the root and the left sides of loops through
collections alone. All other nodes of the program are what they were, but for the statements that
the imports add to the root.

* `Script.Overwrites` - a node gives way to another
* `Extended` - what bringing in imports does
* `frame_run` - what a structural pass changes
-/

namespace Graft

open Chance (Probability)
open Script (Evolves root)
open Work

variable {σ : Type} {Kept : σ → Prop} {sampler : Sampler σ} {chance : Probability}
  {b b₀ : Bench σ} {i : NodeId}

/-! ## Places that are overwritten -/

/-- A place of the program gets the node at a new place, and nothing that was there changes
otherwise. The node is of the kind of the one that gives way, which is a site, and the place is
neither the root nor the left side of the loop through a collection in which it stands. -/
structure Script.Overwrites (s : Script) (id : NodeId) (s' : Script) : Prop where
  overwritten : ∃ (grown : Script) (copy : NodeId), (∀ i < s.nodes.size,
    grown.nodes[i]? = s.nodes[i]?) ∧ s.nodes.size ≤ copy ∧ s' = grown.replace id copy
  kind : s'.kind id = s.kind id
  site : (s.kind id).isSite
  inner : id ≠ root
  free : ∀ p ∈ s.preorder root, (s.node p).each? ≠ some id

/-- A turn leaves the script alone or overwrites the place that it is about. -/
theorem overwrites_of_sample (hs : sampler.Supplies Kept) {start : Bench σ}
    {moments front back : List (Moment σ)} {m : Moment σ}
    (h : Recorded Kept sampler chance start moments b) (he : moments = front ++ m :: back) :
    if (m.sample? sampler chance).isSome then
      m.before.script.Overwrites m.turn.place m.after.script
    else m.after.script = m.before.script := by
  have now := h.met front m back he
  have cases := take_cases hs chance now.before.settled now.sound now.rooted m.turn
  rw [← now.taken] at cases
  rw [Moment.script_after]
  rcases cases with ⟨none, same, -⟩ | ⟨sampled, id, hturn, site, -, spliced⟩
  · rw [none]
    exact same
  · rw [if_pos sampled]
    have hid : id ∈ m.before.script.preorder root := by
      have place := now.place
      rwa [hturn] at place
    have place : m.turn.place = id := by
      rw [hturn]
      rfl
    rcases h.exists_parent hs he hturn with ⟨-, fixed⟩ | ⟨p, -, hp, child, free⟩
    · cases fixed
    · obtain ⟨script, copy, evolves, fresh, -, written⟩ := spliced.overwritten
      rw [place]
      refine ⟨⟨script, copy, fun i hi => evolves.getElem?_eq hi, fresh, written⟩,
        spliced.kind_eq (now.rooted.places_lt id hid), site, now.rooted.ne_of_child hp child,
        fun q hq each => ?_⟩
      -- the place stands in no other node than in its parent
      obtain rfl := now.rooted.parent_eq hp hq child (Node.mem_children_of_each? each)
      rw [each] at free
      simp at free

/-! ## Imports -/

theorem Script.Wellformed.node_root {s : Script} (h : s.Wellformed) :
    s.node root = .program s.body := by
  obtain ⟨body, hbody⟩ := h.program
  rw [hbody, Script.body, hbody]

/-- What bringing in imports does to a script: it has all that it had, and the root gets statements
at new places, which are of the kinds of the declarations that were brought in. -/
structure Extended (b₀ : Bench σ) (imports : List Import) (b : Bench σ) : Prop where
  size_le : b₀.script.nodes.size ≤ b.script.nodes.size
  getElem?_eq : ∀ i < b₀.script.nodes.size, i ≠ root → b.script.nodes[i]? = b₀.script.nodes[i]?
  reached : ∀ i ∈ b₀.script.preorder root, i ∈ b.script.preorder root
  mutations : b.pass.mutations = b₀.pass.mutations
  body : ∃ added, b.script.node root = .program (b₀.script.body ++ added) ∧
    List.Forall₂ (fun entry c => b₀.script.nodes.size ≤ c ∧ c < b.script.nodes.size ∧
      b.script.kind c = entry.source.script.kind entry.declaration) imports added

namespace Extended

theorem refl (hw : b.script.Wellformed) : Extended b [] b :=
  ⟨Nat.le_refl _, fun _ _ _ => rfl, fun _ hi => hi, rfl,
    [], by rw [hw.node_root, List.append_nil], .nil⟩

theorem trans {b₁ b₂ : Bench σ} {imports more : List Import} (h : Extended b₀ imports b₁)
    (h' : Extended b₁ more b₂) (hroot : root < b₀.script.nodes.size) :
    Extended b₀ (imports ++ more) b₂ := by
  obtain ⟨added, hbody, hadded⟩ := h.body
  obtain ⟨added', hbody', hadded'⟩ := h'.body
  refine ⟨Nat.le_trans h.size_le h'.size_le, fun i hi hne => ?_,
    fun i hi => h'.reached i (h.reached i hi), h'.mutations.trans h.mutations,
    added ++ added', ?_, List.rel_append ?_ ?_⟩
  · rw [h'.getElem?_eq i (Nat.lt_of_lt_of_le hi h.size_le) hne, h.getElem?_eq i hi hne]
  · rw [hbody', Script.body, hbody, List.append_assoc]
  · refine hadded.imp fun entry c ⟨fresh, hlt, kind⟩ => ?_
    have hne : c ≠ root := fun he => Nat.not_lt.2 fresh (he ▸ hroot)
    have same := Script.node_congr (h'.getElem?_eq c hlt hne)
    exact ⟨fresh, Nat.lt_of_lt_of_le hlt h'.size_le, (congrArg Node.kind same).trans kind⟩
  · exact hadded'.imp fun entry c ⟨fresh, hlt, kind⟩ => ⟨Nat.le_trans h.size_le fresh, hlt, kind⟩

end Extended

/-- An import adds one statement to the program. -/
theorem extended_bringIn (sound : b.Sound) (hw : b.script.Wellformed) (entry : Import) :
    Extended b [entry] (bringIn entry b).2 := by
  rw [run_bringIn]
  have borrowed := borrowed_copy sound entry.source entry.declaration
  have kinds := kind_copy sound entry.source entry.declaration
  dsimp only at borrowed kinds ⊢
  generalize (prepare _ entry.source _).2 = b₁ at borrowed kinds ⊢
  generalize (Script.copy entry.source.script entry.declaration b.script).1 = copy at *
  obtain ⟨hw₁, htree, apart⟩ := borrowed.beside hw
  have hbody := hw₁.node_root
  have run := Script.push_eq hbody copy
  have body : b₁.script.body = b.script.body := by
    rw [Script.body, borrowed.evolves.node_eq hw.rooted.lt, Script.body]
  have fresh := borrowed.fresh copy (Script.mem_preorder_self _ _)
  have hne : copy ≠ root := fun he => Nat.not_lt.2 fresh (he ▸ hw.rooted.lt)
  refine ⟨?_, fun i hi hi' => ?_, fun i hi => ?_, borrowed.mutations,
    [copy], ?_, .cons ⟨fresh, ?_, ?_⟩ .nil⟩
  · dsimp only
    rw [run]
    simpa [Script.setNode] using borrowed.evolves.size_le
  · dsimp only
    rw [run, Script.setNode, Array.getElem?_setIfInBounds_ne (Ne.symm hi'),
      borrowed.evolves.getElem?_eq hi]
  · dsimp only
    rw [Script.preorder_push hbody hw₁.rooted borrowed.rooted apart, Script.preorder_eq_tags, htree]
    exact List.mem_append_left _ hi
  · dsimp only
    rw [run, Script.node_eq (Script.node?_setNode hw₁.rooted.lt), body]
  · dsimp only
    rw [run]
    simpa [Script.setNode] using borrowed.rooted.lt
  · dsimp only
    rw [Script.kind, run, Script.node_setNode_of_ne _ hne]
    exact kinds

theorem extended_flushImports (hb : b.Settled Kept) (sound : b.Sound) (hw : b.script.Wellformed) :
    Extended b ((flushImports b).2.pass.pending.map Prod.snd) (flushImports b).2 := by
  obtain ⟨-, extended⟩ := flushImports_induct
    (P := fun rank b' => Extended b ((b'.pass.pending.take rank).map Prod.snd) b')
    (fun rank b' q now _ sound hw' hq => by
      have completed := completed_bringIn sound hw'
        (sound.pass.vetted q (List.mem_of_getElem? hq))
      have step := now.trans (extended_bringIn sound hw' q.2) hw.rooted.lt
      rwa [take_succ_of_grown completed.pending hq, List.map_append])
    hb sound hw (.refl hw)
  rwa [List.take_length] at extended

theorem flushImports_of_nil (h : b.pass.pending = []) : (flushImports b).2 = b := by
  rw [flushImports, run_bind, run_get, run_flushFrom, h]
  rfl

/-! ## Passes -/

/-- What a structural pass over a source text changes. It overwrites as many places as it counts, at
most those of its budget, and none twice; they hold in the end what they were given. Every other
place of the source text holds its own node in the end, but for the root, whose statements are the
old ones and, behind them, those that were imported. A pass that overwrites nothing gives the very
script back. -/
theorem frame_run {sampler : Sampler σ} {source : String} {s : Script}
    (hs : Script.read source = .ok s) (m : Structural σ) (hsampler : sampler.Stocked m.samples) :
    ∃ moments, Toured sampler m.chance (m.bench s) moments (m.walked sampler s) ∧
      let done := m.finished sampler s
      let sites := replaced sampler m.chance moments
      (m.run sampler s).2.1 = done.script ∧
      (m.run sampler s).1 = sites.length ∧ sites.length ≤ m.maxMutations ∧ sites.Nodup ∧
      (∀ moment ∈ moments,
        if (moment.sample? sampler m.chance).isSome then
          moment.before.script.Overwrites moment.turn.place moment.after.script ∧
            done.script.nodes[moment.turn.place]? = moment.after.script.nodes[moment.turn.place]?
        else moment.after.script = moment.before.script) ∧
      (∀ i < s.nodes.size, i ∉ sites → i ≠ root → done.script.nodes[i]? = s.nodes[i]?) ∧
      (∃ added, done.script.node root = .program (s.body ++ added) ∧
        List.Forall₂ (fun q c => s.nodes.size ≤ c ∧
          done.script.kind c = q.2.source.script.kind q.2.declaration) done.pass.pending added) ∧
      ((m.run sampler s).1 = 0 → (m.run sampler s).2.1 = s) := by
  obtain ⟨Kept, supplies, kept⟩ := hsampler.exists_supplies
  have wellformed := wellformed_read hs
  obtain ⟨moments, recorded, -⟩ := exists_recorded supplies hs kept
  have traced := recorded.traced
  have walk := m.completed_walked supplies.legal wellformed
  have extended := extended_flushImports traced.settled walk.sound walk.wellformed
  have started := traced.started
  have counted : (m.walked sampler s).pass.mutations =
      (replaced sampler m.chance moments).length := traced.counted.trans (Nat.zero_add _)
  have count : (m.run sampler s).1 = (replaced sampler m.chance moments).length :=
    extended.mutations.trans counted
  -- the root is never replaced, so it still has its statements when the imports come
  have inner : root ∉ replaced sampler m.chance moments := by
    intro hr
    obtain ⟨moment, hm, hplace⟩ := List.mem_filterMap.1 hr
    obtain ⟨sample, sampled, hplace⟩ := Option.map_eq_some_iff.1 hplace
    obtain ⟨front, back, he⟩ := List.append_of_mem hm
    have overwrites := overwrites_of_sample supplies recorded he
    rw [if_pos (sampled ▸ rfl), hplace] at overwrites
    exact overwrites.inner rfl
  refine ⟨moments, recorded.toured, rfl, count, ?_, ?_, fun moment hm => ?_, fun i hi hr hne => ?_,
    ?_, fun none => ?_⟩
  · rw [← counted]
    exact Nat.le_trans traced.bounded (Nat.le_of_eq traced.maxMutations)
  · exact recorded.nodup_entered.sublist (replaced_sublist moments)
  · obtain ⟨front, back, he⟩ := List.append_of_mem hm
    have overwrites := overwrites_of_sample supplies recorded he
    split
    · rename_i sampled
      rw [if_pos sampled] at overwrites
      have entered : moment.turn.place ∈ entered (front ++ [moment]) :=
        entered_append front [moment] ▸ List.mem_append_right _ (mem_entered_of_sample sampled)
      -- what was put there is not replaced again, nor touched by the imports
      obtain ⟨standing, -⟩ := recorded.standing he entered
      have hlt := (recorded.met front moment back he).after.known _ entered
      have hlt' := Nat.lt_of_lt_of_le hlt (traced.since front moment back he).size_le
      exact ⟨overwrites, (extended.getElem?_eq _ hlt' overwrites.inner).trans standing⟩
    · rename_i sampled
      rwa [if_neg sampled] at overwrites
  · exact (extended.getElem?_eq i (Nat.lt_of_lt_of_le hi started.size_le) hne).trans
      (started.getElem?_eq i hi hr)
  · obtain ⟨added, hbody, hadded⟩ := extended.body
    have same := Script.node_congr (started.getElem?_eq root wellformed.rooted.lt inner)
    have body : (m.walked sampler s).script.body = s.body := by
      rw [Script.body, same]
      rfl
    refine ⟨added, hbody.trans (by rw [body]), ?_⟩
    rw [List.forall₂_map_left_iff] at hadded
    exact hadded.imp fun q c ⟨fresh, _, kind⟩ => ⟨Nat.le_trans started.size_le fresh, kind⟩
  · -- without a sample nothing is borrowed, and nothing is asked for
    rw [count, List.length_eq_zero_iff] at none
    obtain ⟨same, pending⟩ := traced.untouched none
    change (flushImports (m.walked sampler s)).2.script = s
    rw [flushImports_of_nil pending, same]
    rfl

/-- A block gives way to one that calls a function of its source, which is imported. -/
theorem frame_run_helper : ∃ s t, Script.read "{ a = 1; }" = .ok s ∧
    Script.read "{ helper(); }\nfunction helper() { return 1; }" = .ok t ∧
      let m : Structural Unit := ⟨5, .always, .seeded 0, ()⟩
      let sampler := Sample.pinned ⟨.ofScript "t.js" t, 4⟩
      let done := m.finished sampler s
      ∃ moments, Toured sampler m.chance (m.bench s) moments (m.walked sampler s) ∧
        (m.run sampler s).1 = 1 ∧ (replaced sampler m.chance moments).length = 1 ∧
        (∀ i < s.nodes.size, i ∉ replaced sampler m.chance moments → i ≠ root →
          done.script.nodes[i]? = s.nodes[i]?) ∧
        ∃ c, done.script.node root = .program (s.body ++ [c]) ∧
          done.script.kind c = .functionDecl := by
  obtain ⟨s, t, hs, ht, moments, toured, one, pending⟩ :=
    exists_walked "{ a = 1; }" "{ helper(); }\nfunction helper() { return 1; }" 4
      ⟨5, .always, .seeded 0, ()⟩ 60 (p := fun t moments walked =>
        (replaced (Sample.pinned ⟨.ofScript "t.js" t, 4⟩) .always moments).length = 1 ∧
          ((flushImports walked).2.pass.pending.map fun q =>
            q.2.source.script.kind q.2.declaration) = [.functionDecl]) (by decide +kernel)
  have stocked : Sampler.Stocked (Sample.pinned ⟨.ofScript "t.js" t, 4⟩) () :=
    .pinned () ⟨_, _, _, ht, rfl⟩
  obtain ⟨moments', toured', -, count, -, -, -, frame, ⟨added, body, hadded⟩, -⟩ :=
    frame_run hs ⟨5, .always, .seeded 0, ()⟩ stocked
  obtain rfl := toured.moments_eq toured'
  refine ⟨s, t, hs, ht, moments, toured, count.trans one, one, frame, ?_⟩
  generalize hpending :
    (Structural.finished (Sample.pinned ⟨.ofScript "t.js" t, 4⟩) _ s).pass.pending = queue at hadded
  change (Structural.finished _ _ s).pass.pending.map _ = _ at pending
  rw [hpending] at pending
  cases hadded with
  | nil => cases pending
  | cons first rest =>
    obtain ⟨kind, none⟩ := List.cons.inj pending
    cases rest with
    | nil => exact ⟨_, body, first.2.trans kind⟩
    | cons _ _ => cases none

end Graft
