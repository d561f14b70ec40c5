import Graft.Proofs.Building.Progress
import Graft.Proofs.Reading.Program

/-!
# A builder behind an error

A builder may be used again, for the rest of the program or for an expression, however often and
whatever has failed before. Every call leaves what was stored, and puts behind the statements of
the program those that it completes; what an error leaves unfinished, and an expression by itself,
stay in the table and out of the script for good.

* `Steady` - a builder between two calls
* `Grows` - what may become of the script
* `grows_call` - what a call does
* `usable_behind_calls` - any number of calls, one after the other
-/

namespace Graft

open Building

namespace Builder

open Script (root)

variable {b b' b'' : Builder} {id : NodeId} {ids ids' : List NodeId}

/-! ## Between two calls -/

/-- A builder that stands among the tokens, takes `in` for an operator and has a program. -/
structure Steady (b : Builder) : Prop where
  inBounds : b.InBounds
  noIn : b.noIn = false
  program : b.script.node root = .program b.script.body
  rooted : b.script.Rooted root

theorem steady_ofTokens (tokens : Tokens) : (ofTokens tokens).Steady :=
  ⟨inBounds_ofTokens tokens, rfl, rfl, Script.shows_empty.rooted⟩

/-- The later builder has what the earlier one had, and the given statements behind those of the
program. -/
structure Grows (b : Builder) (ids : List NodeId) (b' : Builder) : Prop where
  size_le : b.script.nodes.size ≤ b'.script.nodes.size
  kept : ∀ i < b.script.nodes.size, i ≠ root → b'.script.nodes[i]? = b.script.nodes[i]?
  names : b.script.names.Within b'.script.names
  body : b'.script.body = b.script.body ++ ids
  preorder : b'.script.preorder root = b.script.preorder root ++ ids.flatMap b'.script.preorder
  fresh : ∀ id ∈ ids, ∀ i ∈ b'.script.preorder id, b.script.nodes.size ≤ i

theorem Leads.node?_eq (h : b.Leads b') {i : NodeId} (hi : i < b.script.nodes.size) :
    b'.script.nodes[i]? = b.script.nodes[i]? := by
  obtain ⟨more, hm⟩ := h.nodes
  rw [← Array.getElem?_toList, ← Array.getElem?_toList, ← hm, List.getElem?_append_left hi]

theorem Leads.size_le (h : b.Leads b') : b.script.nodes.size ≤ b'.script.nodes.size :=
  h.nodes.length_le

/-- A tree that was stored is stored unchanged. -/
theorem Leads.tree_eq (h : b.Leads b') (hr : b.script.Rooted id) :
    b'.script.Rooted id ∧ b'.script.tree id = b.script.tree id :=
  hr.of_kept (fun i hi _ hn => h.node?_eq (hr.places_lt i hi) ▸ hn) (h.names _ _)

/-- What is stored without entering the program. -/
theorem Steady.leads (hs : b.Steady) (stays : b.Stays b') (h : b.Leads b') :
    b'.Steady ∧ b.Grows [] b' := by
  have hroot : b'.script.node root = b.script.node root :=
    Script.node_congr (h.node?_eq hs.rooted.lt)
  have hbody : b'.script.body = b.script.body := by rw [Script.body, Script.body, hroot]
  obtain ⟨hr, ht⟩ := h.tree_eq hs.rooted
  refine ⟨⟨stays.inBounds, h.noIn.trans hs.noIn, ?_, hr⟩, h.size_le, fun i hi _ => h.node?_eq hi,
    h.names, ?_, ?_, by simp⟩
  · rw [hroot, hs.program, hbody]
  · rw [hbody, List.append_nil]
  · rw [Script.preorder_eq_tags, Script.preorder_eq_tags, ht, List.flatMap_nil, List.append_nil]

/-- What is planted behind a program is apart from it. -/
theorem Steady.planted (hs : b.Steady) (h : b.Leads b') {t : Reading}
    (hp : Plants t id ⟨b.script.nodes, b'.script.names⟩ b'.script) :
    Script.Planted t ⟨b.script.nodes, b'.script.names⟩ id b'.script ∧
      ∀ i ∈ b'.script.preorder id, i ∉ b'.script.preorder root := by
  have planted : Script.Planted t ⟨b.script.nodes, b'.script.names⟩ id b'.script := by
    have planted := Script.plant_spec t ⟨b.script.nodes, b'.script.names⟩
    rwa [show Script.plant t _ = (id, b'.script) from hp] at planted
  refine ⟨planted, fun i hi hm => ?_⟩
  rw [Script.preorder_eq_tags, (h.tree_eq hs.rooted).2] at hm
  exact Nat.not_lt.2 (planted.fresh i hi) (hs.rooted.places_lt i hm)

/-- A statement enters the program. -/
theorem Steady.entered (hs : b.Steady) (stays : b.Stays b') (h : b.Leads b') {t : Reading}
    (hp : Plants t id ⟨b.script.nodes, b'.script.names⟩ b'.script) :
    (b'.entered id).Steady ∧ b.Grows [id] (b'.entered id) := by
  obtain ⟨hs', hg⟩ := hs.leads stays h
  obtain ⟨planted, apart⟩ := hs.planted h hp
  have places : b'.script.preorder root = b.script.preorder root := by
    simpa using hg.preorder
  obtain ⟨hr, -, he⟩ := Script.push_spec hs'.program hs'.rooted planted.rooted apart
  have other : ∀ i ∈ b'.script.preorder id, i ∉ [root] := fun i hi hm =>
    apart i hi (List.mem_singleton.1 hm ▸ Script.mem_preorder_self _ _)
  have same : (b'.script.push id).preorder id = b'.script.preorder id := by
    rw [Script.preorder_eq_tags, Script.preorder_eq_tags, (planted.rooted.frame he other).2]
  have hnode : (b'.script.push id).node root = .program (b.script.body ++ [id]) := by
    rw [Script.push_eq hs'.program, Script.node_eq (Script.node?_setNode hs'.rooted.lt), hg.body,
      List.append_nil]
  have hbody : (b'.script.push id).body = b.script.body ++ [id] := by rw [Script.body, hnode]
  refine ⟨⟨hs'.inBounds, hs'.noIn, hnode.trans (hbody ▸ rfl), hr⟩,
    ⟨Nat.le_trans hg.size_le he.size_le, fun i hi hne => ?_,
      fun x name hx => he.text? (hg.names x name hx), hbody, ?_, ?_⟩⟩
  · have hi' := Nat.lt_of_lt_of_le hi hg.size_le
    rw [← hg.kept i hi hne, Script.getElem?_of_lt hi']
    exact he.node? (Script.getElem?_of_lt hi') (by simpa using hne)
  · change (b'.script.push id).preorder root = _
    rw [Script.preorder_push hs'.program hs'.rooted planted.rooted apart, places,
      List.flatMap_singleton]
    exact congrArg _ same.symm
  · intro c hc i hi
    rw [List.mem_singleton.1 hc] at hi
    exact planted.fresh i (same ▸ hi)

/-- A statement of the program stays as it is. -/
theorem Grows.tree_eq (h : b.Grows ids b') (hs : b.Steady) (hid : id ∈ b.script.body) :
    b'.script.tree id = b.script.tree id := by
  have child : id ∈ (b.script.node root).children := by
    rw [hs.program]
    exact hid
  refine ((hs.rooted.child child).of_kept (fun i hi _ hn => ?_) (h.names _ _)).2
  have hne : i ≠ root := by
    rintro rfl
    have := hs.rooted.nodup
    rw [hs.rooted.preorder_eq, List.nodup_cons] at this
    exact this.1 (List.mem_flatMap.2 ⟨id, child, hi⟩)
  rwa [h.kept i (hs.rooted.places_lt i (hs.rooted.mem_preorder_child child hi)) hne]

theorem Grows.trans (h : b.Grows ids b') (hs : b'.Steady) (h' : b'.Grows ids' b'') :
    b.Grows (ids ++ ids') b'' := by
  have same : ∀ id ∈ ids, b''.script.preorder id = b'.script.preorder id := by
    intro id hid
    have := h'.tree_eq hs (h.body ▸ List.mem_append_right _ hid)
    rw [Script.preorder_eq_tags, Script.preorder_eq_tags, this]
  refine ⟨Nat.le_trans h.size_le h'.size_le, fun i hi hne => ?_, h.names.trans h'.names, ?_, ?_, ?_⟩
  · rw [h'.kept i (Nat.lt_of_lt_of_le hi h.size_le) hne, h.kept i hi hne]
  · rw [h'.body, h.body, List.append_assoc]
  · rw [h'.preorder, h.preorder, List.flatMap_append, List.append_assoc, List.flatMap_congr same]
  · intro id hid i hi
    rcases List.mem_append.1 hid with hid | hid
    · exact h.fresh id hid i (same id hid ▸ hi)
    · exact Nat.le_trans h.size_le (h'.fresh id hid i hi)

theorem Grows.refl (hs : b.Steady) : b.Grows [] b :=
  (hs.leads ⟨rfl, Nat.le_refl _, hs.inBounds⟩ (.refl b)).2

end Builder

open Builder
open Script (root)

variable {b b' : Builder} {ids : List NodeId}

/-- Statements are completed one behind the other. -/
theorem Completes.grows {inner' : BuildRules} {inner : Rules} {most : Nat}
    (hc : Completes inner' b ids b') (h : Mirrored b.tokens most inner' inner) (hs : b.Steady)
    (hl : b.ahead.length < most) : b'.Steady ∧ b.Grows ids b' := by
  induction hc with
  | none b => exact ⟨hs, .refl hs⟩
  | @more b b₁ b₂ id ids _ hb _ ih =>
    have run := builds_statement h hs.inBounds hs.noIn hl
    rw [hb] at run
    obtain ⟨stays, leads, -, t, hp⟩ := run
    obtain ⟨hs₁, hg⟩ := hs.entered stays leads hp
    obtain ⟨hs₂, hg'⟩ := ih (stays.tokens ▸ h) hs₁ (Nat.lt_of_le_of_lt stays.length_ahead_le hl)
    exact ⟨hs₂, hg.trans hs₁ hg'⟩

/-! ## Calls -/

/-- What a builder can be called for. -/
inductive Call where
  | program
  | expression
deriving Repr, DecidableEq

namespace Call

/-- Make a call. -/
def run : Call → Build Unit
  | program => Build.program
  | expression => discard Build.expression

/-- The builder behind a call, whether or not it succeeded. -/
def after (call : Call) (b : Builder) : Builder :=
  match call.run b with
  | .ok _ b' | .error _ b' => b'

/-- The builder behind calls, one after the other. -/
def afterAll (calls : List Call) (b : Builder) : Builder :=
  calls.foldl (fun b call => call.after b) b

/-- A call completes the given statements and stands behind them; then it ends, having read one
expression or part of it, or nothing, or part of a statement. -/
def Does (call : Call) (b : Builder) (ids : List NodeId) (b₁ : Builder) : Prop :=
  match call with
  | program => Completes (rules (b.ahead.length + 1)) b ids b₁ ∧
    Concludes (rules (b.ahead.length + 1)) b₁ (Build.program b)
  | expression => ids = [] ∧ b₁ = b

theorem after_expression (b : Builder) :
    expression.after b = match Build.expression b with | .ok _ b' | .error _ b' => b' := by
  have run : expression.run b = EStateM.map _ Build.expression b := rfl
  rw [after, run, EStateM.map]
  cases Build.expression b <;> rfl

/-- A call makes a builder steady again, whatever it leaves unfinished. -/
theorem steady_after (call : Call) (hs : b.Steady) :
    ∃ ids b₁, call.Does b ids b₁ ∧ b₁.Steady ∧ b.Grows ids b₁ ∧ (call.after b).Steady ∧
      b₁.Grows [] (call.after b) := by
  cases call with
  | program =>
    obtain ⟨ids, b₁, hc, he⟩ := exists_completes hs.inBounds hs.noIn
    have room := Nat.lt_succ_self b.ahead.length
    obtain ⟨hs₁, hg⟩ := hc.grows (mirrored_ahead b) hs room
    obtain ⟨stays, -⟩ := hc.stays (mirrored_ahead b) hs.inBounds hs.noIn room
    refine ⟨ids, b₁, ⟨hc, he⟩, hs₁, hg, ?_⟩
    change Steady (match Build.program b with | .ok _ b' | .error _ b' => b') ∧
      b₁.Grows [] (match Build.program b with | .ok _ b' | .error _ b' => b')
    generalize Build.program b = out at he
    cases he with
    | finished => exact ⟨hs₁, .refl hs₁⟩
    | refused _ hb =>
      have unfinished := builds_statement (stays.tokens ▸ mirrored_ahead b) hs₁.inBounds hs₁.noIn
        (Nat.lt_of_le_of_lt stays.length_ahead_le room)
      rw [hb] at unfinished
      exact hs₁.leads unfinished.1 unfinished.2.1
  | expression =>
    refine ⟨[], b, ⟨rfl, rfl⟩, hs, .refl hs, ?_⟩
    have read : Builds b (Build.expression b) :=
      builds_parse .expression hs.inBounds nofun (Nat.le_refl _)
    rw [after_expression]
    cases hb : Build.expression b <;> rw [hb] at read
    · exact hs.leads read.1 read.2.1
    · exact hs.leads read.1 read.2.1

theorem steady_afterAll (calls : List Call) (hs : b.Steady) :
    (afterAll calls b).Steady ∧ ∃ ids, b.Grows ids (afterAll calls b) := by
  induction calls generalizing b with
  | nil => exact ⟨hs, [], .refl hs⟩
  | cons call calls ih =>
    obtain ⟨ids, b₁, -, hs₁, hg, hs', hg'⟩ := call.steady_after hs
    obtain ⟨hs'', more, hg''⟩ := ih hs'
    exact ⟨hs'', ids ++ [] ++ more, (hg.trans hs₁ hg').trans hs' hg''⟩

end Call

/-- A builder may be used again behind any calls, failed ones included. A call takes `in` for an
operator again when it is over, leaves every node but the root and every symbol, and puts behind
the statements of the program those that it completed. What hangs under the root is a tree, of what
was there before and of the statements completed; and no place that the call filled behind the last
of them is ever reached from the root, then or after further calls. -/
theorem usable_behind_calls (tokens : Tokens) (calls : List Call) (call : Call) :
    let b := Call.afterAll calls (.ofTokens tokens)
    let b' := call.after b
    b'.noIn = false ∧
    (∀ i < b.script.nodes.size, i ≠ root → b'.script.nodes[i]? = b.script.nodes[i]?) ∧
    (∀ x < b.script.names.size, b'.script.names.text? x = b.script.names.text? x) ∧
    b'.script.Rooted root ∧
    ∃ done b₁, call.Does b done b₁ ∧
      b'.script.node root = .program (b.script.body ++ done) ∧
      b'.script.preorder root = b.script.preorder root ++ done.flatMap b'.script.preorder ∧
      (∀ id ∈ done, ∀ i ∈ b'.script.preorder id,
        b.script.nodes.size ≤ i ∧ i < b₁.script.nodes.size) ∧
      ∀ later, ∀ i ∈ (Call.afterAll later b').script.preorder root,
        i < b₁.script.nodes.size ∨ b'.script.nodes.size ≤ i := by
  intro b b'
  have hs : b.Steady := (Call.steady_afterAll calls (steady_ofTokens tokens)).1
  obtain ⟨done, b₁, hd, hs₁, hg₁, hs', hg'⟩ := call.steady_after hs
  have hg : b.Grows (done ++ []) b' := hg₁.trans hs₁ hg'
  rw [List.append_nil] at hg
  have places : b'.script.preorder root = b₁.script.preorder root := by simpa using hg'.preorder
  have old : ∀ i ∈ b'.script.preorder root, i < b₁.script.nodes.size := fun i hi =>
    hs₁.rooted.places_lt i (places ▸ hi)
  refine ⟨hs'.noIn, hg.kept, fun x hx => ?_, hs'.rooted, done, b₁, hd, ?_, hg.preorder, ?_, ?_⟩
  · obtain ⟨name, hn⟩ : ∃ name, b.script.names.text? x = some name :=
      ⟨_, Array.getElem?_eq_getElem hx⟩
    rw [hn, hg.names x name hn]
  · rw [hs'.program, hg.body]
  · refine fun id hid i hi => ⟨hg.fresh id hid i hi, old i ?_⟩
    rw [hg.preorder]
    exact List.mem_append_right _ (List.mem_flatMap.2 ⟨id, hid, hi⟩)
  · intro later i hi
    obtain ⟨-, more, hm⟩ := Call.steady_afterAll later hs'
    rw [hm.preorder, List.mem_append, List.mem_flatMap] at hi
    rcases hi with hi | ⟨id, hid, hi⟩
    · exact .inl (old i hi)
    · exact .inr (hm.fresh id hid i hi)

end Graft
