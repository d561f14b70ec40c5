import Graft.Proofs.Pass.Grammar
import Graft.Proofs.Pass.Loop
import Graft.Proofs.Roundtrip.Script

/-!
# Mutants are read back

A structural pass may put a function with a name into a method, which no reader does. A printer
leaves the name out. So the text of a program that obeys the grammar is that of a shaped program,
and is read as such.

* `Tree.nameless` - a tree whose methods have functions without names
* `read_text_of_grammatical` - the text of a program that obeys the grammar
* `read_text_run` - the text of a program after a structural pass
-/

namespace Graft

open Layout Graft.Tree
open Reading (of)
open Script (root)

variable {σ τ : Type}

/-! ## Methods without names -/

/-- A function expression without its name. -/
def Reading.unnamed (t : Reading) : Reading :=
  match t.node with
  | .functionExpr _ params body => of (.functionExpr none params body)
  | _ => t

/-- A node whose methods have functions without names. -/
def Node.nameless (n : Node Reading String) : Node Reading String :=
  match n with
  | classDecl name superclass methods =>
    .classDecl name superclass (methods.map fun m => { m with function := m.function.unnamed })
  | n => n

/-- A tree without tags whose methods have functions without names. -/
def Tree.nameless (t : Tree τ) : Reading :=
  t.fold fun _ n => of n.nameless

theorem Tree.nameless_mk (tag : τ) (n : Node (Tree τ) String) :
    (mk tag n).nameless = of (n.map nameless id).nameless :=
  fold_mk _ tag n

/-! ## What a name of a method does not change -/

theorem methodTail_unnamed (t : Reading) : t.unnamed.form.methodTail = t.form.methodTail := by
  obtain ⟨tag, n⟩ := t
  cases n <;> rfl

/-- The layout of a class depends on its methods behind their names alone. -/
theorem form_classDecl {name : String} {superclass : Option Form}
    {methods methods' : List (Method Form String)}
    (h : ∀ s, methods.map (fun m => method m.name m.isStatic (m.function.methodTail s)) =
      methods'.map fun m => method m.name m.isStatic (m.function.methodTail s)) :
    Node.form (.classDecl name superclass methods) =
      Node.form (.classDecl name superclass methods') := by
  have lines (s : Setting) :
      (methods.map fun m =>
        s.deeper.line :: method m.name m.isStatic (m.function.methodTail s.deeper)) =
      methods'.map fun m =>
        s.deeper.line :: method m.name m.isStatic (m.function.methodTail s.deeper) := by
    have := congrArg (List.map (s.deeper.line :: ·)) (h s.deeper)
    rwa [List.map_map, List.map_map] at this
  have hstatement (other : Setting → List Piece) :
      Node.statement other (.classDecl name superclass methods) =
        Node.statement other (.classDecl name superclass methods') := by
    funext s inline
    simp only [Node.statement, lines]
  unfold Node.form
  simp only [hstatement]
  rfl

theorem form_nameless_node (n : Node Reading String) : (of n.nameless).form = (of n).form := by
  rw [of, of, form_mk, form_mk]
  cases n with
  | classDecl name superclass methods =>
    refine form_classDecl fun s => ?_
    simp [Method.map, Function.comp_def, methodTail_unnamed]
  | _ => rfl

theorem Tree.form_nameless (t : Tree τ) : t.nameless.form = t.form := by
  induction t using induct with
  | step t ih =>
    obtain ⟨tag, n⟩ := t
    rw [nameless_mk, form_nameless_node, of, form_mk, form_mk, Node.map_map]
    exact congrArg Node.form (Node.map_congr_parts ih fun _ _ => rfl)

theorem admissible_unnamed (t : Reading) (e : Enclosure) :
    t.unnamed.admissible e = t.admissible e := by
  obtain ⟨tag, n⟩ := t
  cases n with
  | functionExpr name params body =>
    change (mk () (.functionExpr none params body)).admissible e = _
    rw [admissible_mk, admissible_mk]
    rfl
  | _ => rfl

theorem Tree.admissible_nameless (t : Tree τ) (e : Enclosure) :
    t.nameless.admissible e = t.admissible e := by
  induction t using induct generalizing e with
  | step t ih =>
    obtain ⟨tag, n⟩ := t
    have same (n : Node Reading String) : (of n.nameless).admissible e = (of n).admissible e := by
      cases n with
      | classDecl name superclass methods =>
        rw [of, of, admissible_mk, admissible_mk]
        simp [Node.nameless, Node.kind, Node.children, List.all_append, List.all_map,
          Function.comp_def, admissible_unnamed]
      | _ => rfl
    rw [nameless_mk, same, of, admissible_mk, admissible_mk, Node.kind_map, Node.children_map,
      List.all_map]
    refine congrArg (_ && ·) (Bool.eq_iff_iff.2 ?_)
    simp only [List.all_eq_true]
    exact forall₂_congr fun c hc => by rw [Function.comp_apply, ih c hc]

theorem Tree.head_nameless (t : Tree τ) : t.nameless.head = t.head := by
  obtain ⟨tag, n⟩ := t
  have same (n : Node Reading String) : (of n.nameless).head = (of n).head := by
    cases n with
    | classDecl name superclass methods =>
      simp [Tree.head, of, Tree.node, Node.nameless, Node.head, Node.map, Method.map,
        Function.comp_def]
    | _ => rfl
  rw [nameless_mk, same]
  exact Node.map_map ..

/-! ## Shape -/

theorem isMethod_unnamed {t : Reading} (h : t.kind = .functionExpr) : t.unnamed.IsMethod := by
  obtain ⟨tag, n⟩ := t
  cases n with
  | functionExpr name params body => exact ⟨params, body, rfl⟩
  | _ => cases h

theorem shaped_unnamed {t : Reading} (h : t.Shaped) : t.unnamed.Shaped := by
  obtain ⟨tag, n⟩ := t
  cases n with
  | functionExpr name params body =>
    obtain ⟨⟨-, hparams, hbody⟩, below⟩ := shaped_mk.1 h
    exact shaped_mk.2 ⟨⟨nofun, hparams, hbody⟩, below⟩
  | _ => exact h

/-- A node that obeys the grammar and is spelled well is as a reader makes it, once its methods have
functions without names. -/
theorem shaped_nameless_node {n : Node Reading String} (h : n.Grammatical) (hs : n.Spelled) :
    n.nameless.Shaped := by
  cases n with
  | classDecl name superclass methods =>
    obtain ⟨hsuper, hmethods⟩ := ((fits_head_iff _).1 h.fits).1
    rw [List.forall_mem_map] at hmethods
    refine ⟨h.names name (List.mem_cons_self ..), fun e he => ?_,
      List.forall_mem_map.2 fun m hm => ?_⟩
    · exact hsuper _ (Option.mem_map_of_mem _ he)
    · exact ⟨hs m hm, isMethod_unnamed (hmethods m hm)⟩
  | _ => exact (shaped_iff_grammatical _).2 ⟨h, hs, nofun⟩

theorem Tree.shaped_nameless {t : Tree τ} (hg : t.Grammatical) (hs : t.Each Node.Spelled) :
    t.nameless.Shaped := by
  induction t using induct with
  | step t ih =>
    obtain ⟨tag, n⟩ := t
    obtain ⟨here, below⟩ := (forall_preorder_iff _).1 hg
    obtain ⟨spelled, hsbelow⟩ := each_mk.1 hs
    replace ih : ∀ c ∈ n.children, c.nameless.Shaped :=
      fun c hc => ih c hc (below c hc) (hsbelow c hc)
    have heads : (n.map nameless id).map head id = n.map head id := by
      rw [Node.map_map]
      exact Node.map_congr_parts (fun c _ => head_nameless c) fun _ _ => rfl
    have obeys : (n.map nameless id).Grammatical := by
      refine ⟨heads ▸ here.fits, ?_⟩
      rw [Node.identifiers_map, List.map_id]
      exact here.names
    have all : ∀ c ∈ (n.map nameless id).children, c.Shaped := by
      rw [Node.children_map, List.forall_mem_map]
      exact ih
    rw [nameless_mk, of, shaped_mk]
    refine ⟨shaped_nameless_node obeys ?_, ?_⟩
    · rw [Node.spelled_map]
      exact (Node.spelled_map head n).1 spelled
    · generalize n.map nameless id = n at all
      cases n with
      | classDecl name superclass methods =>
        obtain ⟨hsuper, hmethods⟩ := List.forall_mem_append.1 all
        refine List.forall_mem_append.2 ⟨hsuper, ?_⟩
        rw [List.map_map, List.forall_mem_map]
        exact fun m hm => shaped_unnamed (hmethods _ (List.mem_map_of_mem hm))
      | _ => exact all

/-! ## Legality -/

theorem admissible_asBlock (t : Reading) (e : Enclosure) :
    t.asBlock.admissible e = t.admissible e := by
  unfold Reading.asBlock
  split
  · rfl
  · rw [of, admissible_mk]
    simp [Node.kind, Node.children, Enclosure.permits, Enclosure.enter, Kind.isFunction,
      Kind.isLoop, Kind.isSwitch]

/-- Blocks in front of `else` do not change what may stand where. -/
theorem Tree.admissible_wrapped (t : Tree τ) (e : Enclosure) :
    t.wrapped.admissible e = t.admissible e := by
  induction t using induct generalizing e with
  | step t ih =>
    obtain ⟨tag, n⟩ := t
    have same (n : Node Reading String) : (of n.wrapped).admissible e = (of n).admissible e := by
      cases n with
      | ifStmt test consequent alternate =>
        cases alternate with
        | none => rfl
        | some alternate =>
          rw [of, of, admissible_mk, admissible_mk]
          simp [Node.wrapped, Node.kind, Node.children, admissible_asBlock]
      | _ => rfl
    rw [wrapped_mk, same, of, admissible_mk, admissible_mk, Node.kind_map, Node.children_map,
      List.all_map]
    refine congrArg (_ && ·) (Bool.eq_iff_iff.2 ?_)
    simp only [List.all_eq_true]
    exact forall₂_congr fun c hc => by rw [Function.comp_apply, ih c hc]

/-! ## Programs -/

/-- The text of a program that obeys the grammar, if it is scanned at all, is read, printed the same
and legal if the program was. -/
theorem read_text_of_grammatical {s : Script} (hs : s.Wellformed)
    (hg : (s.tree root).Grammatical) (spelled : (s.tree root).Each Node.Spelled)
    {tokens : Tokens} (ht : scan s.text = .ok tokens) :
    ∃ s', Script.read s.text = .ok s' ∧ s'.text = s.text ∧ s'.isLegal = s.isLegal := by
  obtain ⟨ids, hids⟩ := hs.program
  have shaped := shaped_nameless hg spelled
  obtain ⟨body, hbody⟩ : ∃ body, (s.tree root).nameless = of (.program body) := by
    rw [hs.rooted.tree_eq, hids, nameless_mk]
    exact ⟨_, rfl⟩
  rw [hbody, of, shaped_mk] at shaped
  have hstatements : ∀ c ∈ body, c.Shaped ∧ c.IsStmt := fun c hc => ⟨shaped.2 c hc, shaped.1 c hc⟩
  have form : (s.tree root).form = (of (.program body)).form := by
    rw [← hbody, form_nameless]
  have text := text_eq form hstatements
  rw [text] at ht
  obtain ⟨s', reads, shows⟩ := shows_of_text hstatements ht
  have wrapped : of (.program (body.map wrapped)) = (of (.program body)).wrapped :=
    (wrapped_mk () (.program body)).symm
  refine ⟨s', text ▸ reads, text_congr ?_, ?_⟩
  · rw [shows.form_eq, wrapped, form_wrapped, form]
  · rw [Script.isLegal, Script.isLegal, Script.admissible, Script.admissible, ← admissible_erase,
      shows.erase_eq, wrapped, admissible_wrapped, ← hbody, admissible_nameless]

/-- The text of a program that was read and went through a structural pass, if it is scanned at all,
is read, printed the same and legal if the program is. -/
theorem read_text_run {sampler : Sampler σ} {m : Structural σ} (hs : sampler.Stocked m.samples)
    {source : String} {s : Script} (h : Script.read source = .ok s) {tokens : Tokens}
    (ht : scan (m.run sampler s).2.1.text = .ok tokens) :
    ∃ s', Script.read (m.run sampler s).2.1.text = .ok s' ∧
      s'.text = (m.run sampler s).2.1.text ∧ s'.isLegal = (m.run sampler s).2.1.isLegal := by
  obtain ⟨regular, spelled⟩ := regular_structural lasting_spelled hs (regular_read h)
    (lasting_spelled.shaped _ (Script.shaped_read h root))
  have grammatical := regular.named.grammatical regular.wellformed.rooted regular.fits
  exact read_text_of_grammatical regular.wellformed grammatical spelled ht

/-- A function with a name in the place of a method's. -/
theorem read_text_run_method : ∃ s t tokens, Script.read "class A { m() {} }" = .ok s ∧
    Script.read "(function f() {})" = .ok t ∧
      let m : Structural Unit := ⟨1, .always, .seeded 0, ()⟩
      let s' := (m.run (Sample.pinned ⟨.ofScript "t.js" t, 2⟩) s).2.1
      scan s'.text = .ok tokens ∧
        ∃ s'', Script.read s'.text = .ok s'' ∧ s''.text = s'.text ∧ s''.isLegal = s'.isLegal := by
  let m : Structural Unit := ⟨1, .always, .seeded 0, ()⟩
  obtain ⟨s, t, hs, ht, moments, -, scanned⟩ := exists_walked "class A { m() {} }"
    "(function f() {})" 2 m 20
    (p := fun _ _ walked => (scan (Work.flushImports walked).2.script.text).toOption.isSome)
    (by decide +kernel)
  obtain ⟨tokens, ok⟩ := exists_of_isSome scanned
  exact ⟨s, t, tokens, hs, ht, ok, read_text_run (.pinned () ⟨_, _, _, ht, rfl⟩) hs ok⟩

end Graft
