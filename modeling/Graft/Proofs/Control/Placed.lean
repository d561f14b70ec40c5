import Graft.Proofs.Control

/-!
# Where transfers of control stand

What is around a place is made by the kinds of the nodes on the way to it. So a place may stand
where an enclosure holds if every transfer of control below it is permitted at the end of each way
that leads there, and whatever has a loop, a switch and a function where the enclosure has them will
do as well. The candidates of a kind are the places of the program that may stand where they are.

* `enclosureAlong` - what is around the end of a way
* `admissible_iff_transfers` - admissible is what finds its transfers permitted on every way
* `mem_placed_iff` - the places under a place with what is around them
* `mem_candidates_iff` - the candidates of a kind
-/

namespace Graft

open Script (root)

variable {s : Script} {id i last : NodeId} {e e' : Enclosure} {above inside : List NodeId}

/-! ## Enclosures that permit more -/

namespace Enclosure

/-- Where one enclosure has a loop, a switch or a function, the other one has it, too. -/
structure Le (e e' : Enclosure) : Prop where
  inLoop : e.inLoop → e'.inLoop
  inSwitch : e.inSwitch → e'.inSwitch
  inFunction : e.inFunction → e'.inFunction

namespace Le

/-- A function starts over in both, and all else adds the same to both. -/
theorem enter (h : e.Le e') (kind : Kind) : (e.enter kind).Le (e'.enter kind) := by
  unfold Enclosure.enter
  by_cases hf : kind.isFunction
  · rw [if_pos hf, if_pos hf]
    exact ⟨fun hl => hl, fun hs => hs, fun _ => by simp [Enclosure.inFunction]⟩
  · rw [if_neg hf, if_neg hf]
    by_cases hl : kind.isLoop
    · rw [if_pos hl, if_pos hl]
      exact ⟨fun _ => by simp [Enclosure.inLoop], h.inSwitch, h.inFunction⟩
    · rw [if_neg hl, if_neg hl]
      by_cases hs : kind.isSwitch
      · rw [if_pos hs, if_pos hs]
        exact ⟨h.inLoop, fun _ => by simp [Enclosure.inSwitch], h.inFunction⟩
      · rw [if_neg hs, if_neg hs]
        exact h

theorem permits (h : e.Le e') {kind : Kind} (hp : e.permits kind) : e'.permits kind := by
  cases kind with
  | breakStmt =>
    rw [Enclosure.permits, Bool.or_eq_true] at hp ⊢
    exact hp.imp h.inLoop h.inSwitch
  | continueStmt => exact h.inLoop hp
  | returnStmt => exact h.inFunction hp
  | _ => rfl

end Le

/-- No more than the transfers of control needs anything around it. -/
theorem permits_of_not_mem {kind : Kind} (h : kind ∉ [.breakStmt, .continueStmt, .returnStmt]) :
    e.permits kind := by
  cases kind <;> first | rfl | exact absurd (by decide) h

end Enclosure

namespace Script

/-! ## Enclosures along ways -/

/-- What is around the end of a way that starts where an enclosure holds. -/
def enclosureAlong (s : Script) (e : Enclosure) (above : List NodeId) : Enclosure :=
  (above.map s.kind).foldl Enclosure.enter e

theorem enclosureAlong_append (e : Enclosure) (above inside : List NodeId) :
    s.enclosureAlong e (above ++ inside) = s.enclosureAlong (s.enclosureAlong e above) inside := by
  simp [enclosureAlong]

theorem enclosureAlong_le (h : e.Le e') (above : List NodeId) :
    (s.enclosureAlong e above).Le (s.enclosureAlong e' above) := by
  induction above generalizing e e' with
  | nil => exact h
  | cons id above ih => exact ih (h.enter _)

/-- A place is admissible if every node below it is permitted on every way that leads there. -/
theorem Acyclic.admissible_iff (h : s.Acyclic id) (e : Enclosure) :
    s.admissible id e ↔ ∀ above last, s.Way id above last →
      (s.enclosureAlong e above).permits (s.kind last) := by
  induction h using Acyclic.induct generalizing e with
  | step id h ih =>
    rw [h.admissible_eq, Bool.and_eq_true, List.all_eq_true]
    constructor
    · rintro ⟨here, below⟩ above last hw
      cases hw with
      | here => exact here
      | down hc hw => exact (ih _ hc _).1 (below _ hc) _ _ hw
    · intro permitted
      refine ⟨permitted [] id (.here id), fun c hc => ?_⟩
      exact (ih c hc _).2 fun above last hw => permitted (id :: above) last (.down hc hw)

/-- What is admissible where a way starts is admissible where it ends. -/
theorem Acyclic.admissible_of_way (h : s.Acyclic id) (ha : s.admissible id e)
    (hw : s.Way id above i) : s.admissible i (s.enclosureAlong e above) := by
  rw [(h.of_way hw).admissible_iff]
  intro inside last hi
  rw [← enclosureAlong_append]
  exact (h.admissible_iff e).1 ha _ _ (hw.trans hi)

/-- No more than the transfers of control need be looked at. -/
theorem Acyclic.admissible_iff_transfers (h : s.Acyclic id) (e : Enclosure) :
    s.admissible id e ↔ ∀ above last, s.Way id above last →
      s.kind last ∈ [.breakStmt, .continueStmt, .returnStmt] →
        (s.enclosureAlong e above).permits (s.kind last) := by
  rw [h.admissible_iff]
  refine forall₃_congr fun above last _ => ⟨fun hp _ => hp, fun hp => ?_⟩
  by_cases hk : s.kind last ∈ [.breakStmt, .continueStmt, .returnStmt]
  · exact hp hk
  · exact Enclosure.permits_of_not_mem hk

/-- What may stand where an enclosure holds may stand wherever there is as much around it. -/
theorem Acyclic.admissible_mono (h : s.Acyclic id) (hle : e.Le e') (ha : s.admissible id e) :
    s.admissible id e' := by
  rw [h.admissible_iff] at ha ⊢
  intro above last hw
  exact (enclosureAlong_le hle above).permits (ha above last hw)

/-! ## Candidates -/

/-- What is placed under a place: the places where ways lead, with what is around them there. -/
theorem Acyclic.mem_placed_iff (h : s.Acyclic id) {e e' : Enclosure} {t : Tree NodeId} :
    (t, e') ∈ (s.tree id).placed e ↔
      ∃ above i, s.Way id above i ∧ t = s.tree i ∧ e' = s.enclosureAlong e above := by
  induction h using Acyclic.induct generalizing e with
  | step id h ih =>
    have kind : (s.tree id).kind = s.kind id := by
      rw [h.tree_eq]
      exact Node.kind_map _ _ _
    rw [Tree.placed_eq, h.children_eq, List.flatMap_map, kind, List.mem_cons, List.mem_flatMap]
    constructor
    · rintro (he | ⟨c, hc, hm⟩)
      · obtain ⟨rfl, rfl⟩ := Prod.mk.inj he
        exact ⟨[], id, .here id, rfl, rfl⟩
      · obtain ⟨above, i, hw, rfl, rfl⟩ := (ih c hc).1 hm
        exact ⟨id :: above, i, .down hc hw, rfl, rfl⟩
    · rintro ⟨above, i, hw, rfl, rfl⟩
      cases hw with
      | here => exact .inl rfl
      | down hc hw => exact .inr ⟨_, hc, (ih _ hc).2 ⟨_, _, hw, rfl, rfl⟩⟩

/-- The candidates of a kind: the places where ways lead that are of the kind and admissible at
the end of the way. -/
theorem Acyclic.mem_candidates_iff (h : s.Acyclic root) {kind : Kind} :
    (i, e) ∈ s.candidates kind ↔ ∃ above, s.Way root above i ∧ s.kind i = kind ∧
      e = s.enclosureAlong .outermost above ∧ s.admissible i e := by
  have kinds : ∀ {above i}, s.Way root above i → (s.tree i).kind = s.kind i := fun hw => by
    rw [(h.of_way hw).tree_eq]
    exact Node.kind_map _ _ _
  unfold candidates Tree.candidates
  simp only [List.mem_map, List.mem_filter, Prod.exists, Prod.mk.injEq, Bool.and_eq_true,
    beq_iff_eq, h.mem_placed_iff]
  constructor
  · rintro ⟨t, _, ⟨⟨above, i, hw, rfl, rfl⟩, hk, ha⟩, rfl, rfl⟩
    rw [tag_tree]
    exact ⟨above, hw, (kinds hw).symm.trans hk, rfl, ha⟩
  · rintro ⟨above, hw, hk, rfl, ha⟩
    exact ⟨s.tree i, _, ⟨⟨above, i, hw, rfl, rfl⟩, (kinds hw).trans hk, ha⟩, tag_tree s i, rfl⟩

/-- Candidates are listed in preorder. -/
theorem candidates_sublist (s : Script) (kind : Kind) :
    ((s.candidates kind).map Prod.fst).Sublist (s.preorder root) := by
  have tags : (s.candidates kind).map Prod.fst =
      (((s.tree root).candidates kind).map Prod.fst).map Tree.tag := by
    rw [candidates, List.map_map, List.map_map]
    rfl
  rw [tags, preorder, ← Tree.map_fst_placed (s.tree root) .outermost]
  exact (List.filter_sublist.map Prod.fst).map Tree.tag

/-- A program is legal if all of its places are candidates. -/
theorem Acyclic.isLegal_iff (h : s.Acyclic root) :
    s.isLegal ↔ ∀ above i, s.Way root above i → ∃ e, (i, e) ∈ s.candidates (s.kind i) := by
  constructor
  · intro legal above i hw
    refine ⟨_, h.mem_candidates_iff.2 ⟨above, hw, rfl, rfl, h.admissible_of_way legal hw⟩⟩
  · intro all
    obtain ⟨e, he⟩ := all [] root (.here root)
    obtain ⟨above, hw, -, rfl, ha⟩ := h.mem_candidates_iff.1 he
    -- no way but the empty one leads back to the root
    obtain rfl := h [] root above (.here root) hw
    exact ha

end Script

end Graft
