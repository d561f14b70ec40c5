import Graft.Control.Search
import Graft.Proofs.Control.Placed
import Graft.Proofs.Reading.Program

/-!
# What the searches for transfers of control find

A place on top of a stack is judged, with all that hangs under it, before the next one is, in
whatever order the children come to stand there. So where no way down comes back, the searches end:
the one whether something may stand somewhere with what the tree under the place says, and the one
for the places of a kind with the candidates of that kind, in preorder.

* `Acyclic.check_eq`, `Acyclic.search_eq` - the loops find what the recursions do
* `check_iff_ways` - what is found admissible has its transfers permitted on every way
* `search_read` - the places that are found in a script that was read
-/

namespace Graft

open Script (root)

variable {s : Script} {id : NodeId} {e : Enclosure} {kind : Kind}

namespace Script

/-! ## The search for what is out of place -/

/-- A place on top of the stack is judged with all that hangs under it before the next one is. -/
theorem Acyclic.checkStack_cons (h : s.Acyclic id) (e : Enclosure) (stack : List Placement) :
    s.checkStack ((id, e) :: stack) =
      if s.admissible id e then s.checkStack stack else some false := by
  induction h using Acyclic.induct generalizing e stack with
  | step id h ih =>
    -- the first of the children that is not admissible ends the search
    have children : ∀ cs ⊆ (s.node id).children, ∀ e,
        s.checkStack (cs.map (·, e) ++ stack) =
          if cs.all (s.admissible · e) then s.checkStack stack else some false := by
      intro cs
      induction cs with
      | nil => exact fun _ _ => rfl
      | cons c cs ihcs =>
        intro hsub e
        obtain ⟨hc, hcs⟩ := List.cons_subset.1 hsub
        rw [List.map_cons, List.cons_append, ih c hc, ihcs hcs, List.all_cons]
        cases s.admissible c e <;> rfl
    rw [checkStack, pushPlaced_eq, children _ fun c hc => List.mem_reverse.1 hc, List.all_reverse,
      h.admissible_eq]
    cases e.permits (s.kind id) <;> rfl

/-- The search ends, and finds what the tree under the place says. -/
theorem Acyclic.check_eq (h : s.Acyclic id) (e : Enclosure) :
    s.check id e = some (s.admissible id e) := by
  rw [check, h.checkStack_cons, checkStack]
  cases s.admissible id e <;> rfl

theorem Acyclic.checkProgram_eq (h : s.Acyclic root) : s.checkProgram = some s.isLegal :=
  h.check_eq .outermost

/-- Whether a place may stand where an enclosure holds is found out: whether each way down from it
that ends at a `break`, a `continue` or a `return` finds this permitted by what the enclosure and
the nodes on the way are around it. What may stand there may stand wherever there is as much around
it. -/
theorem check_iff_ways (h : s.Acyclic id) (e : Enclosure) :
    ∃ fits, s.check id e = some fits ∧
      (fits = true ↔ ∀ above last, s.Way id above last →
        s.kind last ∈ [.breakStmt, .continueStmt, .returnStmt] →
          ((above.map s.kind).foldl Enclosure.enter e).permits (s.kind last)) ∧
      ∀ e' : Enclosure, (e.inLoop → e'.inLoop) → (e.inSwitch → e'.inSwitch) →
        (e.inFunction → e'.inFunction) → fits = true → s.check id e' = some true := by
  refine ⟨s.admissible id e, h.check_eq e, h.admissible_iff_transfers e, ?_⟩
  intro e' inLoop inSwitch inFunction fits
  rw [h.check_eq]
  exact congrArg some (h.admissible_mono ⟨inLoop, inSwitch, inFunction⟩ fits)

/-- A `break` that two ways lead to, one of them through a loop: it is out of place on the other
one, unless a switch is around them both. -/
theorem check_iff_ways_shared :
    let s : Script := ⟨#[.program [3], .breakStmt, .whileStmt 4 1, .block [2, 1], .thisExpr], .empty⟩
    s.Acyclic 3 ∧ s.check 3 .outermost = some false ∧
    (∃ above last, s.Way 3 above last ∧
      s.kind last ∈ [.breakStmt, .continueStmt, .returnStmt] ∧
      ¬ ((above.map s.kind).foldl Enclosure.enter .outermost).permits (s.kind last)) ∧
    ∀ e : Enclosure, e.inSwitch → s.check 3 e = some true := by
  intro s
  have acyclic : s.Acyclic 3 := acyclic_of_rank (fun i => [9, 0, 1, 2, 0].getD i 0) (by decide) 3
  have refused : s.admissible 3 .outermost = false := by decide +kernel
  have inSwitch : s.admissible 3 ⟨0, 1, 0⟩ := by decide +kernel
  obtain ⟨outside, found, permitted, -⟩ := check_iff_ways acyclic .outermost
  obtain ⟨within, found', -, wider⟩ := check_iff_ways acyclic ⟨0, 1, 0⟩
  obtain rfl : false = outside := by
    rw [← refused]
    exact Option.some.inj ((acyclic.check_eq _).symm.trans found)
  obtain rfl : true = within := by
    rw [← inSwitch]
    exact Option.some.inj ((acyclic.check_eq _).symm.trans found')
  refine ⟨acyclic, found, ?_, fun e he => wider e nofun (fun _ => he) nofun rfl⟩
  have misplaced := mt permitted.2 nofun
  simp only [not_forall] at misplaced
  obtain ⟨above, last, hw, hk, hp⟩ := misplaced
  exact ⟨above, last, hw, hk, hp⟩

/-! ## The search for the places of a kind -/

/-- The places of a kind under a place that are admissible where they stand, if an enclosure holds
at that place. -/
def candidatesUnder (s : Script) (kind : Kind) (id : NodeId) (e : Enclosure) : List Placement :=
  (((s.tree id).placed e).filter fun (t, e) => t.kind == kind && t.admissible e).map
    fun (t, e) => (t.tag, e)

theorem Acyclic.candidatesUnder_eq (h : s.Acyclic id) (kind : Kind) (e : Enclosure) :
    s.candidatesUnder kind id e =
      (if s.kind id = kind ∧ s.admissible id e then [(id, e)] else []) ++
        (s.node id).children.flatMap (s.candidatesUnder kind · (e.enter (s.kind id))) := by
  have here : ((s.tree id).kind == kind && (s.tree id).admissible e) = true ↔
      s.kind id = kind ∧ s.admissible id e := by
    rw [kind_tree, Bool.and_eq_true, beq_iff_eq]
    rfl
  rw [candidatesUnder, Tree.placed_eq, h.children_eq, kind_tree, List.flatMap_map, List.filter_cons,
    List.filter_flatMap]
  unfold candidatesUnder
  rw [← List.map_flatMap]
  dsimp only
  by_cases fits : s.kind id = kind ∧ s.admissible id e
  · rw [if_pos fits, if_pos (here.2 fits), List.map_cons, tag_tree]
    rfl
  · rw [if_neg fits, if_neg (mt here.1 fits)]
    rfl

theorem Acyclic.checkKind_eq (h : s.Acyclic id) (kind : Kind) (e : Enclosure) :
    s.checkKind kind id e = some (decide (s.kind id = kind ∧ s.admissible id e)) := by
  rw [checkKind, h.check_eq]
  by_cases hk : s.kind id = kind
  · simp [hk]
  · simp [hk]

/-- Below a place on top of the stack, all that fits is found before the next one is looked at. -/
theorem Acyclic.searchStack_cons (h : s.Acyclic id) (kind : Kind) (e : Enclosure)
    (found : Array Placement) (stack : List Placement) :
    s.searchStack kind found ((id, e) :: stack) =
      s.searchStack kind (found ++ s.candidatesUnder kind id e) stack := by
  induction h using Acyclic.induct generalizing e found stack with
  | step id h ih =>
    have children : ∀ cs ⊆ (s.node id).children, ∀ e (found : Array Placement),
        s.searchStack kind found (cs.map (·, e) ++ stack) =
          s.searchStack kind (found ++ cs.flatMap (s.candidatesUnder kind · e)) stack := by
      intro cs
      induction cs with
      | nil => intro _ e found; simp
      | cons c cs ihcs =>
        intro hsub e found
        obtain ⟨hc, hcs⟩ := List.cons_subset.1 hsub
        rw [List.map_cons, List.cons_append, ih c hc, ihcs hcs, List.flatMap_cons]
        exact congrArg (s.searchStack kind · stack) (Array.ext' (by simp))
    rw [searchStack, h.checkKind_eq, h.candidatesUnder_eq, pushPlaced_eq, List.reverse_reverse]
    dsimp only [Option.bind_eq_bind, Option.bind_some]
    rw [children _ (List.Subset.refl _)]
    refine congrArg (s.searchStack kind · stack) ?_
    by_cases fits : s.kind id = kind ∧ s.admissible id e
    · rw [if_pos fits, if_pos (decide_eq_true fits)]
      exact Array.ext' (by simp)
    · rw [if_neg fits, if_neg (by simpa using fits)]
      rfl

/-- The search ends with the candidates of the kind. -/
theorem Acyclic.search_eq (h : s.Acyclic root) (kind : Kind) :
    s.search kind = some (s.candidates kind) := by
  rw [search, h.searchStack_cons, searchStack]
  simp [candidatesUnder, candidates, Tree.candidates]

end Script

/-- What is found in a script that was read: for each kind, in preorder and each once, the places of
the kind that may stand, with all that hangs under them, where the nodes above are around them,
beside what is around them there. The program is found legal just when all of its places are
found. -/
theorem search_read {source : String} (h : Script.read source = .ok s) :
    (∀ kind, ∃ found, s.search kind = some found ∧
      (found.map Prod.fst).Sublist (s.preorder root) ∧ (found.map Prod.fst).Nodup ∧
      ∀ i e, (i, e) ∈ found ↔ ∃ above, s.Way root above i ∧ s.kind i = kind ∧
        e = (above.map s.kind).foldl Enclosure.enter .outermost ∧ s.check i e = some true) ∧
    ∃ legal, s.checkProgram = some legal ∧
      (legal = true ↔ ∀ kind above i, s.Way root above i → s.kind i = kind →
        ∃ found e, s.search kind = some found ∧ (i, e) ∈ found) := by
  obtain ⟨body, shows, -⟩ := shows_read h
  have acyclic := shows.rooted.acyclic
  refine ⟨fun kind => ⟨_, acyclic.search_eq kind, ?_⟩, s.isLegal, acyclic.checkProgram_eq, ?_⟩
  · have sublist := s.candidates_sublist kind
    refine ⟨sublist, sublist.nodup shows.rooted.nodup, fun i e => ?_⟩
    rw [acyclic.mem_candidates_iff]
    refine exists_congr fun above => and_congr_right fun hw => and_congr_right fun _ =>
      and_congr_right fun _ => ?_
    rw [(acyclic.of_way hw).check_eq, Option.some_inj]
  · rw [acyclic.isLegal_iff]
    constructor
    · rintro all kind above i hw rfl
      obtain ⟨e, he⟩ := all above i hw
      exact ⟨_, e, acyclic.search_eq _, he⟩
    · intro all above i hw
      obtain ⟨found, e, hfound, he⟩ := all _ above i hw rfl
      obtain rfl := Option.some.inj ((acyclic.search_eq _).symm.trans hfound)
      exact ⟨e, he⟩

/-- A `break` in a conditional is out of place, and another one is in a loop. -/
theorem search_read_if : ∃ s,
    Script.read "if (a) { break; } while (b) { if (c) { break; } }" = .ok s ∧
      s.checkProgram = some false ∧
      (∃ above i, s.Way root above i ∧
        ∀ found e, s.search (s.kind i) = some found → (i, e) ∉ found) ∧
      ∃ above i e, s.search .ifStmt = some [(i, e)] ∧ s.Way root above i ∧ e.inLoop ∧
        e = (above.map s.kind).foldl Enclosure.enter .outermost := by
  obtain ⟨s, hs, shown⟩ : ∃ s,
      Script.read "if (a) { break; } while (b) { if (c) { break; } }" = .ok s ∧
        decide (¬ s.isLegal ∧ (s.candidates .ifStmt).map Prod.snd = [⟨1, 0, 0⟩]) = true :=
    exists_read (by decide +kernel)
  obtain ⟨illegal, around⟩ := of_decide_eq_true shown
  obtain ⟨body, shows, -⟩ := shows_read hs
  have acyclic := shows.rooted.acyclic
  obtain ⟨places, legal, checked, all⟩ := search_read hs
  obtain rfl : false = legal := by
    rw [← Bool.eq_false_iff.2 illegal]
    exact Option.some.inj (acyclic.checkProgram_eq.symm.trans checked)
  refine ⟨s, hs, checked, ?_, ?_⟩
  · by_contra none
    refine Bool.false_ne_true (all.2 fun kind above i hw hk => ?_)
    by_contra refused
    exact none ⟨above, i, hw, fun found e hf he => refused ⟨found, e, hk ▸ hf, he⟩⟩
  · obtain ⟨⟨i, e⟩, hc, rfl⟩ := List.map_eq_singleton_iff.1 around
    obtain ⟨found, hfound, -, -, mem⟩ := places .ifStmt
    obtain rfl : [(i, (⟨1, 0, 0⟩ : Enclosure))] = found := by
      rw [← hc]
      exact Option.some.inj ((acyclic.search_eq _).symm.trans hfound)
    obtain ⟨above, hw, -, he, -⟩ := (mem i _).1 (List.mem_singleton_self _)
    exact ⟨above, i, _, hfound, hw, rfl, he⟩

end Graft
