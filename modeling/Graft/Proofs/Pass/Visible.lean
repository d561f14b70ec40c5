import Graft.Proofs.Pass.Frame
import Graft.Proofs.Pass.Layers

/-!
# What is visible in a walk

A walk changes the program while it keeps its layers of names. But it declares names of nodes that
it has entered alone, and these stay as they are. So at every moment the layers are those of the
part of the program that has been entered, as it is then, and all of that part is there when the
pass is over.

* `Script.declaredBy_ofScript` - what an index tells about a node of the program
* `Pass.scope_enter` - what entering a node does to the layers
* `carries_scope` - the layers are what the events make of them
* `scope_run` - the layers behind every turn of a structural pass
-/

namespace Graft

open Chance (Probability)
open Script (root)
open Work

variable {σ : Type} {Kept : σ → Prop} {sampler : Sampler σ} {chance : Probability}
  {b start : Bench σ} {s : Script} {id : NodeId}

/-! ## Entering nodes -/

/-- The index of a script tells what a node of the program declares. -/
theorem Script.declaredBy_ofScript (h : id ∈ s.preorder root) :
    (ScopeIndex.ofScript s).declaredBy id = (s.node id).declaredNames := by
  -- the induction asks what is found under a node that is not listed, too
  suffices found : (ScopeIndex.ofScript s).declaredBy id =
      if id ∈ s.preorder root then (s.node id).declaredNames else [] from found.trans (if_pos h)
  unfold ScopeIndex.declaredBy ScopeIndex.ofScript
  dsimp only
  generalize s.preorder root = ids
  induction ids with
  | nil => rfl
  | cons i ids ih =>
    by_cases hi : id = i
    · subst hi
      rw [if_pos List.mem_cons_self, List.filterMap_cons]
      cases hn : (s.node id).declaredNames with
      | nil =>
        -- what declares nothing is not listed
        rw [hn, ite_self] at ih
        exact ih
      | cons x xs => simp
    · have other : (id == i) = false := beq_false_of_ne hi
      have same : id ∈ i :: ids ↔ id ∈ ids := by simp [hi]
      rw [List.filterMap_cons]
      simp only [same, ← ih]
      cases (s.node i).declaredNames with
      | nil => rfl
      | cons x xs => simp [List.lookup_cons, other]

/-- Entering a node of the program makes visible what it declares, or opens a layer. -/
theorem Pass.scope_enter {p : Pass} (exact : p.Exact s) (h : id ∈ s.preorder root)
    (e : Enclosure) (n : Nat) : (p.enter s id).scope = p.scope.follow s (.entered id e n) := by
  unfold Pass.enter Scope.follow Script.kind
  dsimp only
  by_cases hk : (s.node id).kind.isFunction
  · rw [if_pos hk, if_pos hk]
  · rw [if_neg hk, if_neg hk, exact.refresh_eq, Script.declaredBy_ofScript h]

theorem Pass.scope_leave (s : Script) (id : NodeId) (p : Pass) :
    (p.leave s id).scope = p.scope.follow s (.left id) := by
  unfold Pass.leave Scope.follow
  dsimp only
  split <;> rfl

/-- What a turn does to the layers is what its event does. -/
theorem scope_after (hs : sampler.Supplies Kept) (chance : Probability) (hb : b.Settled Kept)
    (sound : b.Sound) (hroot : b.script.Rooted root) {turn : Turn}
    (place : turn.place ∈ b.script.preorder root) :
    let m := take sampler chance turn b
    m.after.pass.scope = b.pass.scope.follow m.after.script m.event := by
  intro m
  have before : m.ready.pass.scope = b.pass.scope := by
    rcases take_cases hs chance hb sound hroot turn with ⟨-, -, same⟩ | ⟨-, _, -, -, -, spliced⟩
    · exact congrArg Pass.scope same
    · exact spliced.scope
  rw [m.script_after, ← before]
  cases turn with
  | enter id replaceable =>
    have settled := settled_tryReplace hs chance hb sound hroot id replaceable
    exact Pass.scope_enter settled.exact (rooted_take hs chance sound hroot place).2 _ _
  | leave id => exact Pass.scope_leave b.script id b.pass

/-! ## Layers of a loop -/

/-- What the events of a loop make of the layers, each with the script that it left. -/
def Work.layers (moments : List (Moment σ)) : Scope :=
  moments.foldl (fun scope m => scope.follow m.after.script m.event) .empty

theorem carries_scope (hs : sampler.Supplies Kept) (chance : Probability) :
    Carries sampler chance fun moments b => b.Settled Kept ∧ b.pass.scope = layers moments := by
  rintro moments b turn ⟨hb, now⟩ sound hroot place
  refine ⟨carries_settled hs chance moments b turn hb sound hroot place, ?_⟩
  rw [scope_after hs chance hb sound hroot place, now, layers, layers, List.foldl_append]
  rfl

/-- What an event does to the layers depends on the node that it is about. -/
theorem Scope.follow_congr {s' : Script} {scope : Scope} {event : Event}
    (entered : ∀ id ∈ event.entered?, s'.node id = s.node id)
    (left : ∀ id ∈ event.left?, s'.kind id = s.kind id) :
    scope.follow s' event = scope.follow s event := by
  cases event with
  | entered id e n =>
    have same := entered id rfl
    rw [follow, follow, Script.kind, Script.kind, same]
  | left id => rw [follow, follow, left id rfl]

namespace Work.Recorded

variable {moments front back : List (Moment σ)} {m : Moment σ}

/-- The nodes that have been entered come first in the program that there is in the end, and are
what they will be then. -/
theorem entered_first (h : Recorded Kept sampler chance start moments b)
    (he : moments = front ++ m :: back) :
    b.script.preorder root = entered (front ++ [m]) ++ entered back ∧
      ∀ j ∈ entered (front ++ [m]), m.after.script.node j = b.script.node j := by
  refine ⟨?_, fun j hj => (Script.node_congr (h.standing he hj).1).symm⟩
  rw [← entered_append, ← List.append_cons, ← he]
  exact h.toured.entered.symm

/-- The layers at some moment are those that the events up to there make in the program that there
is in the end. -/
theorem layers_eq (hs : sampler.Supplies Kept) (h : Recorded Kept sampler chance start moments b)
    (he : moments = front ++ back) :
    layers front = (front.map Moment.event).foldl (Scope.follow b.script) .empty := by
  rw [layers, List.foldl_map]
  refine List.foldl_ext _ _ _ fun scope m hm => ?_
  obtain ⟨before, behind, rfl⟩ := List.append_of_mem hm
  rw [List.append_assoc, List.cons_append] at he
  -- entering reads the node, which stays; leaving reads its kind, which no sample changes
  refine Scope.follow_congr (fun id hid => ?_) fun id hid => ?_
  · have hm : id ∈ entered (before ++ [m]) := by
      rw [entered_append]
      exact List.mem_append_right _ (List.mem_filterMap.2 ⟨_, List.mem_singleton_self _, hid⟩)
    exact (h.entered_first he).2 id hm
  · have place : m.turn.place = id := by
      unfold Moment.event at hid
      cases hturn : m.turn <;> rw [hturn] at hid <;> cases hid
      rfl
    obtain ⟨rooted, listed⟩ := (h.met before m _ he).rooted_after hs
    exact ((h.traced.since before m _ he).kind_eq id (rooted.places_lt id (place ▸ listed))).symm

end Work.Recorded

/-- A function that has been entered and not been left. -/
def Work.Opened (s : Script) (moments : List (Moment σ)) (f : NodeId) : Prop :=
  f ∈ entered moments ∧ (s.kind f).isFunction ∧ .left f ∉ moments.map Moment.event

/-- The layers at a moment, in the program that there is then. -/
theorem scope_at (hs : sampler.Supplies Kept) {moments front back : List (Moment σ)} {m : Moment σ}
    (h : Recorded Kept sampler chance start moments b) (hroot : b.script.Rooted root)
    (he : moments = front ++ m :: back) (scope : m.after.pass.scope = layers (front ++ [m])) :
    let now := m.after.script
    let seen := entered (front ++ [m])
    (∀ x, x ∈ m.after.pass.scope.global ↔ now.DeclaresIn seen (· = none) x) ∧
      ∀ x, x ∈ m.after.pass.scope.inner ↔
        now.DeclaresIn seen (fun f => ∃ g ∈ f, Opened now (front ++ [m]) g) x := by
  intro now seen
  obtain ⟨first, same⟩ := h.entered_first he
  have rooted := ((h.met front m back he).rooted_after hs).1
  have congr : ∀ F x, now.DeclaresIn seen F x ↔ b.script.DeclaresIn seen F x := fun F x =>
    Script.declaresIn_congr hroot rooted first same
  have he' : moments = (front ++ [m]) ++ back := he.trans (List.append_cons ..)
  -- the events up to here are the first part of a walk through what stands in the end
  have whole := Trail.nil.tour hroot .outermost []
  rw [List.nil_append, ← h.toured.tour, he', List.map_append] at whole
  obtain ⟨opened, trail⟩ := whole.exists_front
  have once := h.nodup_entered
  rw [he', entered_append] at once
  have layered := layered_foldl trail hroot (List.nodup_append.1 once).1
  rw [scope, h.layers_eq hs he']
  have open_iff : ∀ p, p ∈ opened ↔ Opened now (front ++ [m]) p := by
    intro p
    rw [layered.isOpen, Opened]
    refine and_congr_right fun hp => ?_
    rw [Script.kind, Script.kind, same p hp]
  refine ⟨fun x => (layered.global x).trans (congr _ x).symm, fun x => ?_⟩
  refine (layered.stacked.head x).trans (Iff.trans ?_ (congr _ x).symm)
  simp only [open_iff]
  rfl

/-! ## Passes -/

/-- What is visible behind every turn of a structural pass over a source text. Global are the names
that are declared outside of all functions by nodes that have been entered, and local are those that
are declared in functions that have been entered and not been left; nothing is borrowed. What
declares these names is in the program in the end, as it is then. -/
theorem scope_run {sampler : Sampler σ} {source : String} {s : Script}
    (hs : Script.read source = .ok s) (m : Structural σ) (hsampler : sampler.Stocked m.samples) :
    ∃ moments, Toured sampler m.chance (m.bench s) moments (m.walked sampler s) ∧
      let done := m.finished sampler s
      (m.run sampler s).2.1 = done.script ∧
      ∀ front moment back, moments = front ++ moment :: back →
        let now := moment.after.script
        let scope := moment.after.pass.scope
        let seen := entered (front ++ [moment])
        (∀ x, x ∈ scope.global ↔ now.DeclaresIn seen (· = none) x) ∧
        (∀ x, x ∈ scope.inner ↔
          now.DeclaresIn seen (fun f => ∃ g ∈ f, Opened now (front ++ [moment]) g) x) ∧
        scope.borrowed = [] ∧
        ∀ j ∈ seen, j ∈ done.script.preorder root ∧
          ((now.node j).declaredNames ≠ [] → done.script.nodes[j]? = now.nodes[j]?) := by
  obtain ⟨Kept, supplies, kept⟩ := hsampler.exists_supplies
  have wellformed := wellformed_read hs
  obtain ⟨moments, recorded, carried⟩ := exists_recorded supplies hs kept
  obtain ⟨-, met⟩ := carried _ (carries_met (carries_scope supplies m.chance))
    ⟨⟨settled_bench hs kept, rfl⟩,
      fun front m back he => absurd (congrArg List.length he) (by simp)⟩
  have walk := m.completed_walked supplies.legal wellformed
  have extended := extended_flushImports recorded.traced.settled walk.sound walk.wellformed
  have rooted := walk.wellformed.rooted
  refine ⟨moments, recorded.toured, rfl, fun front moment back he => ?_⟩
  obtain ⟨settled, scope⟩ := (met front moment back he).after
  obtain ⟨global, inner⟩ := scope_at supplies recorded rooted he scope
  refine ⟨global, inner, settled.alone, fun j hj => ?_⟩
  obtain ⟨first, same⟩ := recorded.entered_first he
  have listed : j ∈ (m.walked sampler s).script.preorder root := first ▸ List.mem_append_left _ hj
  refine ⟨extended.reached j listed, fun declares => ?_⟩
  -- the imports change the root, but that declares nothing
  have inner : j ≠ root := by
    rintro rfl
    rw [same root hj, walk.wellformed.node_root] at declares
    exact declares rfl
  exact (extended.getElem?_eq j (rooted.places_lt j listed) inner).trans
    (recorded.standing he hj).1

/-- A block with a declaration gives way to another inside of a function. -/
theorem scope_run_function : ∃ s t, Script.read "function f(a) { { var b = 1; } }" = .ok s ∧
    Script.read "{ var x = 2; }" = .ok t ∧
      let m : Structural Unit := ⟨1, .always, .seeded 0, ()⟩
      let sampler := Sample.pinned ⟨.ofScript "t.js" t, 3⟩
      ∃ moments, Toured sampler m.chance (m.bench s) moments (m.walked sampler s) ∧
        ∃ front moment back, moments = front ++ moment :: back ∧
          ∃ x ∈ moment.after.pass.scope.inner, moment.after.script.names.text x = "x" ∧
            moment.after.script.DeclaresIn (entered (front ++ [moment]))
              (fun f => ∃ g ∈ f, Opened moment.after.script (front ++ [moment]) g) x := by
  obtain ⟨s, t, hs, ht, moments, toured, moment, hm, x, hx, text⟩ :=
    exists_walked "function f(a) { { var b = 1; } }" "{ var x = 2; }" 3
      ⟨1, .always, .seeded 0, ()⟩ 60 (p := fun t moments walked =>
        ∃ moment ∈ moments, ∃ x ∈ moment.after.pass.scope.inner,
          moment.after.script.names.text x = "x") (by decide +kernel)
  have stocked : Sampler.Stocked (Sample.pinned ⟨.ofScript "t.js" t, 3⟩) () :=
    .pinned () ⟨_, _, _, ht, rfl⟩
  obtain ⟨moments', toured', -, law⟩ := scope_run hs ⟨1, .always, .seeded 0, ()⟩ stocked
  obtain rfl := toured.moments_eq toured'
  obtain ⟨front, back, he⟩ := List.append_of_mem hm
  exact ⟨s, t, hs, ht, moments, toured, front, moment, back, he, x, hx, text,
    ((law front moment back he).2.1 x).1 hx⟩

end Graft
