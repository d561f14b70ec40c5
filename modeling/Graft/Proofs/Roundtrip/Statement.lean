import Graft.Proofs.Roundtrip.Expression

/-!
# The parts of statements are read back

Statements in braces, behind a head and behind `else`, declarations of variables and functions are
read back, whatever follows them that is no further part of them. A block in front of `else` is read
where the printer put braces of its own.

* `readBack_braces`, `readBack_braced`, `readBack_alternative` - statements below statements
* `readBack_varDecl`, `readBack_forStart`, `readBack_forEach` - declarations of variables
-/

namespace Graft

open Piece Layout Graft.Tree Read Grammar
open Reading (of)

variable {τ : Type} {t : Tree τ} {s : Setting} {ps qs : List Piece} {d : Nat} {fresh : Bool}
  {rest : List Mark}

/-! ## Between statements -/

theorem Ends.of_front {l : Lexeme} (h : front? rest = some l) (hl : l.Begins) : Ends rest := by
  intro w hw hf
  obtain rfl := Option.some.inj (h.symm.trans hf)
  have all : ∀ w ∈ ["else", "catch", "finally"], w ∈ continuations := by decide
  exact hl (all w hw)

theorem ends_punct {p : String} : Ends ((.punct p, fresh) :: rest) := by
  intro w _ hf
  cases hf

theorem CaseEnds.ends (h : CaseEnds rest) : Ends rest := by
  intro w hw hf
  rcases h with h | h | h <;> rw [h] at hf <;> cases hf <;> revert hw <;> decide

/-- How a statement on a line of its own begins. -/
theorem Tree.Written.exists_mark (w : t.Written) (h : t.IsStmt) (s : Setting) (fresh : Bool) :
    ∃ l ms, marks fresh (t.form.statement s false) = (l, true) :: ms ∧ l.Begins := by
  obtain ⟨ps, hps, hsentence⟩ := (w.sentence h s false).exists_eq
  obtain ⟨l, qs, rfl, hl⟩ := hsentence.first
  exact ⟨l, _, by rw [hps]; rfl, hl⟩

/-- Rounds that each take a layout. -/
theorem rounds_flatMap {α β : Type} {round : Read (Option β)} {f : α → List Piece} {g : α → β}
    (follow : List Mark → Prop) {xs : List α} {after : List Mark}
    (front : ∀ x ∈ xs, ∀ fresh rest, follow (marks fresh (f x) ++ rest))
    (ne_nil : ∀ x ∈ xs, ∀ fresh, marks fresh (f x) ≠ [])
    (h : ∀ x ∈ xs, ∀ fresh rest, follow rest → (marks fresh (f x) ++ rest).length ≤ d →
      Takes round (marks fresh (f x) ++ rest) (some (g x)) rest)
    (stop : Takes round rest none after) (hrest : follow rest)
    (hlen : (marks fresh (xs.flatMap f) ++ rest).length ≤ d) :
    Rounds round (marks fresh (xs.flatMap f) ++ rest) (xs.map g) after := by
  induction xs generalizing fresh with
  | nil => exact .stop stop
  | cons x xs ih =>
    obtain ⟨hx, hxs⟩ := List.forall_mem_cons.1 h
    rw [List.flatMap_cons, marks_append, List.append_assoc] at hlen ⊢
    refine .more (hx _ _ ?_ hlen) ?_ (ih ?_ ?_ hxs (length_le_of_append hlen))
    · cases xs with
      | nil => exact hrest
      | cons y ys =>
        rw [List.flatMap_cons, marks_append, List.append_assoc]
        exact front y (by simp) _ _
    · have := List.length_pos_of_ne_nil (ne_nil x (by simp) fresh)
      simp only [List.length_append]
      omega
    · exact fun y hy => front y (List.mem_cons_of_mem x hy)
    · exact fun y hy => ne_nil y (List.mem_cons_of_mem x hy)

/-! ## Blocks -/

/-- Statements in braces. -/
theorem readBack_braces {α : Type} {xs : List α} {f : α → List Piece} {g : α → Reading}
    (front : ∀ x ∈ xs, ∀ fresh, ∃ l ms, marks fresh (f x) = (l, true) :: ms ∧ l.Begins)
    (h : ∀ x ∈ xs, ReadBack statement Ends (f x) (g x)) (s : Setting) :
    ReadBack block (fun _ => True) (braces s (xs.flatMap f)) (of (.block (xs.map g))) := by
  intro d fresh rest _ hlen
  have layout : marks fresh (braces s (xs.flatMap f)) ++ rest =
      (.punct "\x7b", fresh) :: (marks false (xs.flatMap f) ++ (.punct "\x7d", true) :: rest) := by
    simp [braces, Setting.line]
  rw [layout] at hlen ⊢
  obtain ⟨d, rfl, hd⟩ := exists_depth hlen
  have items : Rounds (blockItem (rules (d + 1)))
      (marks false (xs.flatMap f) ++ (.punct "\x7d", true) :: rest) (xs.map g)
      ((.punct "\x7d", true) :: rest) := by
    refine rounds_flatMap Ends (fun x hx fresh rest => ?_) (fun x hx fresh => ?_)
      (fun x hx fresh rest hr hl => ?_) (.at_punct (.pure _ _)) ends_punct hd
    · obtain ⟨l, ms, hm, hl⟩ := front x hx fresh
      exact .of_front (by rw [hm]; rfl) hl
    · obtain ⟨l, ms, hm, -⟩ := front x hx fresh
      rw [hm]
      exact List.cons_ne_nil _ _
    · have item : Takes (statement (rules d)) _ (g x) _ := h x hx d fresh rest hr hl
      obtain ⟨l, ms, hm, hb⟩ := front x hx fresh
      rw [hm] at item ⊢
      refine .not_punct (front_ne rfl ?_)
        ((takes_atEnd _).bind (.neg Bool.false_ne_true (item.bind (.pure _ _))))
      rintro rfl
      exact hb rfl
  exact (takes_expectPunct _ _ _).bind ((takes_many items).bind
    ((takes_discard_next _ _).bind (.pure _ _)))

theorem readBack_noBraces : ReadBack block (fun _ => True) noBraces (of (.block [])) := by
  intro d fresh rest _ _
  refine (takes_expectPunct _ _ _).bind ((takes_many (.stop (.at_punct (.pure _ _)))).bind ?_)
  exact (takes_discard_next _ _).bind (.pure _ _)

/-- A block is a statement. -/
theorem ReadBack.statement {follow : List Mark → Prop} {u : Reading}
    (h : ReadBack block (fun _ => True) ps u) (hps : ps.head? = some (punct "\x7b")) :
    ReadBack Grammar.statement follow ps u := by
  intro d fresh rest _ hlen
  have body := h d fresh rest trivial hlen
  obtain ⟨qs, rfl⟩ := List.head?_eq_some_iff.1 hps
  exact (takes_lexeme? _).bind body

section Bodies

variable (h : t.IsStmt) (w : t.Written) (r : t.ReadsBack) (s)

include h w r

/-- A statement as a block. -/
theorem readBack_braced :
    ReadBack block (fun _ => True) (t.form.braced s) t.wrapped.asBlock := by
  have hkind : t.form.kind = t.kind := by
    obtain ⟨tag, n⟩ := t
    exact kind_form tag n
  by_cases hb : t.IsBlock
  · have heq : t.wrapped.asBlock = t.wrapped := if_pos (t.kind_wrapped.trans hb)
    rw [braced_of_block hb, heq]
    exact r.block hb s
  · have heq : t.wrapped.asBlock = of (.block [t.wrapped]) :=
      if_neg fun hk => hb (t.kind_wrapped.symm.trans hk)
    rw [Form.braced, hkind, if_neg (show t.kind ≠ .block from hb), heq]
    have one : ReadBack block (fun _ => True)
        (braces s ([t].flatMap fun c => c.form.statement s.deeper false))
        (of (.block ([t].map wrapped))) := by
      refine readBack_braces (fun x hx fresh => ?_) (fun x hx => ?_) s
      · obtain rfl := List.mem_singleton.1 hx
        exact w.exists_mark h s.deeper fresh
      · obtain rfl := List.mem_singleton.1 hx
        exact r.statement h s.deeper false
    simpa using one

/-- A statement as the body of another. -/
theorem readBack_controlled : ReadBack statement Ends (t.form.controlled s) t.wrapped := by
  rw [Form.controlled]
  split
  · rename_i hb
    have hb : t.IsBlock := by
      obtain ⟨tag, n⟩ := t
      rwa [kind_form] at hb
    exact (r.block hb s).statement (w.block hb s).first
  · exact r.statement h s.deeper false

/-- A statement behind `else`. -/
theorem readBack_alternative : ReadBack statement Ends (t.form.alternative s) t.wrapped := by
  rw [Form.alternative]
  split
  · exact r.statement h s true
  · exact readBack_controlled s h w r

end Bodies

/-! ## Declarations of variables -/

/-- The layout of one variable of a declaration. -/
abbrev Declarator.layout (s : Setting) (x : Declarator (Tree τ) String) : List Piece :=
  Layout.declarator x.name (x.init.map fun e => e.form.expr .assignment s)

/-- Whether one variable of a declaration ends. -/
def DeclaratorEnds (rest : List Mark) : Prop :=
  front? rest = some (.punct ",") ∨ AtSemicolon rest

/-- What a rule for variables needs to know of each. -/
structure Declarator.ReadsBack (x : Declarator (Tree τ) String) : Prop where
  name : isReserved x.name = false
  expr : ∀ e ∈ x.init, e.IsExpr
  init : ∀ e ∈ x.init, e.ReadsBack

section Declarators

variable {noIn : Bool} {x : Declarator (Tree τ) String}

/-- A variable begins with its name, and the rest of it with a sign. -/
theorem Declarator.ReadsBack.exists_mark (r : x.ReadsBack) (hn : noIn = true → s.noIn = true)
    (hr : DeclaratorEnds rest) (hlen : (marks fresh (x.layout s) ++ rest).length ≤ d + 1) :
    ∃ tail p, marks fresh (x.layout s) ++ rest = (.word x.name, fresh) :: tail ∧
      front? tail = some (.punct p) ∧
        Takes (declarator (rules (d + 1)) noIn x.name) tail (x.map wrapped id) rest := by
  obtain ⟨name, init⟩ := x
  cases init with
  | none =>
    have none : Takes (declarator (rules (d + 1)) noIn name) rest ⟨name, none⟩ rest := by
      refine (takes_eatPunct_of_ne "=" ?_).bind (.neg nofun (.pure _ _))
      rcases hr with h | h <;> rw [h] <;> decide
    rcases hr with h | h
    · exact ⟨rest, _, rfl, h, none⟩
    · exact ⟨rest, _, rfl, h, none⟩
  | some e =>
    have layout : marks fresh (Declarator.layout s ⟨name, some e⟩) ++ rest = (.word name, fresh) ::
        (.punct "=", false) :: (marks false (e.form.expr .assignment s) ++ rest) := rfl
    rw [layout] at hlen ⊢
    refine ⟨_, _, rfl, rfl, (takes_eatPunct "=" _ _).bind (.pos rfl ?_)⟩
    have value : Takes (Grammar.assignment (rules d) noIn) _ e.wrapped _ :=
      ((r.init e rfl).expr (r.expr e rfl) _ s).assignment (halts_comma (by simp) hr) hn
        (Nat.le_of_succ_le (Nat.le_of_succ_le_succ hlen))
    exact value.bind (.pure _ _)

/-- Variables behind the first one, read by a rule that reads each. -/
theorem takes_furtherItems {item : Read (Declarator Reading String)}
    {xs : List (Declarator (Tree τ) String)}
    (h : ∀ x ∈ xs, ∀ rest, DeclaratorEnds rest → (marks false (x.layout s) ++ rest).length ≤ d →
      Takes item (marks false (x.layout s) ++ rest) (x.map wrapped id) rest)
    (hr : AtSemicolon rest)
    (hlen : (marks fresh (xs.flatMap fun x => punct "," :: space :: x.layout s) ++ rest).length ≤
      d + 1) :
    Takes (many (furtherItem item))
      (marks fresh (xs.flatMap fun x => punct "," :: space :: x.layout s) ++ rest)
      (xs.map fun x => x.map wrapped id) rest := by
  refine takes_many (rounds_commas DeclaratorEnds (fun _ _ => .inl rfl)
    (fun x hx fresh rest hf hl => ?_) ?_ (.inr hr) hlen)
  · exact (takes_eatPunct "," _ _).bind (.pos rfl ((h x hx rest hf hl).bind (.pure _ _)))
  · refine (takes_eatPunct_of_ne "," ?_).bind (.neg nofun (.pure _ _))
    rw [show front? rest = _ from hr]
    decide

/-- A variable ends in front of the others. -/
theorem declaratorEnds_flatMap {xs : List (Declarator (Tree τ) String)} (hr : AtSemicolon rest) :
    DeclaratorEnds
      (marks fresh (xs.flatMap fun x => punct "," :: space :: x.layout s) ++ rest) := by
  cases xs with
  | nil => exact .inr hr
  | cons y ys => exact .inl rfl

theorem takes_varKind (kind : VarKind) :
    Takes varKind ((.word kind.text, fresh) :: rest) kind rest := by
  refine (takes_lexeme? _).bind ?_
  cases kind <;> exact (takes_discard_next _ _).bind (.pure _ _)

/-- A variable where patterns are refused. -/
theorem Declarator.ReadsBack.takes_declaredName (r : x.ReadsBack) (hr : DeclaratorEnds rest)
    (hlen : (marks fresh (x.layout s) ++ rest).length ≤ d + 1) :
    Takes (declaredName (rules (d + 1))) (marks fresh (x.layout s) ++ rest) (x.map wrapped id)
      rest := by
  have hn : false = true → s.noIn = true := nofun
  obtain ⟨tail, p, htail, -, h⟩ := r.exists_mark hn hr hlen
  rw [htail]
  refine (takes_isPunct _ _).bind ((takes_isPunct _ _).bind (.neg nofun ?_))
  exact (takes_identifier r.name).bind h

/-- A declaration of variables without its semicolon. -/
theorem readBack_varDecl (kind : VarKind) {xs : List (Declarator (Tree τ) String)}
    (r : ∀ y ∈ x :: xs, y.ReadsBack) (s : Setting) :
    ReadBack varDecl AtSemicolon (Layout.varDecl kind ((x :: xs).map (·.layout s)))
      (of (.varDecl kind ((x :: xs).map (·.map wrapped id)))) := by
  intro d fresh rest hr hlen
  obtain ⟨hx, hxs⟩ := List.forall_mem_cons.1 r
  have layout : Layout.varDecl kind ((x :: xs).map (·.layout s)) =
      word kind.text :: space :: commas ((x :: xs).map (·.layout s)) := rfl
  rw [layout, marks_word, marks_space, commas_cons, List.cons_append, marks_append,
    List.append_assoc] at hlen ⊢
  obtain ⟨d, rfl, hd⟩ := exists_depth hlen
  have first := hx.takes_declaredName (declaratorEnds_flatMap hr) (Nat.le_succ_of_le hd)
  have further := takes_furtherItems (fun y hy rest hf hl => (hxs y hy).takes_declaredName hf
    (Nat.le_succ_of_le hl)) hr (Nat.le_succ_of_le (length_le_of_append hd))
  exact (takes_varKind kind).bind (first.bind (further.bind (.pure _ _)))

theorem takes_atEach (ms : List Mark) :
    Takes atEach ms (front? ms == some (.word "in") || front? ms == some (.word "of")) ms :=
  (takes_isWord _ _).bind ((takes_isWord _ _).bind (.pure _ _))

/-- A declaration in the head of a `for`. -/
theorem readBack_forStart (kind : VarKind) {xs : List (Declarator (Tree τ) String)}
    (r : ∀ y ∈ x :: xs, y.ReadsBack) (s : Setting) :
    ReadBack forVarHead AtSemicolon (Layout.varDecl kind ((x :: xs).map (·.layout s.inHead)))
      (.start (some (of (.varDecl kind ((x :: xs).map (·.map wrapped id)))))) := by
  intro d fresh rest hr hlen
  obtain ⟨hx, hxs⟩ := List.forall_mem_cons.1 r
  have hn : true = true → s.inHead.noIn = true := fun _ => rfl
  have layout : Layout.varDecl kind ((x :: xs).map (·.layout s.inHead)) =
      word kind.text :: space :: commas ((x :: xs).map (·.layout s.inHead)) := rfl
  rw [layout, marks_word, marks_space, commas_cons, List.cons_append, marks_append,
    List.append_assoc] at hlen ⊢
  obtain ⟨d, rfl, hd⟩ := exists_depth hlen
  obtain ⟨tail, p, htail, hp, first⟩ :=
    hx.exists_mark hn (declaratorEnds_flatMap hr) (Nat.le_succ_of_le hd)
  have each : ∀ y ∈ xs, ∀ rest, DeclaratorEnds rest →
      (marks false (y.layout s.inHead) ++ rest).length ≤ d →
        Takes (do declarator (rules (d + 1)) true (← identifier))
          (marks false (y.layout s.inHead) ++ rest) (y.map wrapped id) rest := by
    intro y hy rest hf hl
    obtain ⟨tail, p, htail, -, h⟩ := (hxs y hy).exists_mark hn hf (Nat.le_succ_of_le hl)
    rw [htail]
    exact (takes_identifier (hxs y hy).name).bind h
  have further := takes_furtherItems each hr (Nat.le_succ_of_le (length_le_of_append hd))
  rw [htail]
  refine (takes_varKind kind).bind ((takes_identifier hx.name).bind ((takes_atEach _).bind ?_))
  rw [hp]
  exact .neg (by simp) (first.bind (further.bind (.pure _ _)))

theorem AtEach.found (h : AtEach rest) :
    (front? rest == some (.word "in") || front? rest == some (.word "of")) = true := by
  rcases h with h | h <;> rw [h] <;> decide

/-- The variable of a loop through a collection. -/
theorem readBack_forEach (kind : VarKind) {name : String} (hr : isReserved name = false) :
    ReadBack forVarHead AtEach (Layout.varDecl kind [[word name]])
      (.each (of (.varDecl kind [⟨name, none⟩]))) := by
  intro d fresh rest heach _
  exact (takes_varKind kind).bind ((takes_identifier hr).bind ((takes_atEach _).bind
    (.pos heach.found (.pure _ _))))

end Declarators

/-! ## Functions and classes -/

theorem readBack_functionDecl {name : String} {names : List String} {u : Reading}
    (hr : isReserved name = false) (hn : ∀ x ∈ names, isReserved x = false)
    (h : ReadBack block (fun _ => True) ps u) :
    ReadBack functionDecl (fun _ => True) (Layout.function (some name) names ps)
      (of (.functionDecl name names u)) := by
  have layout : Layout.function (some name) names ps =
      word "function" :: space :: word name :: (params names ++ space :: ps) := by
    simp [Layout.function]
  rw [layout]
  intro d fresh rest _ hlen
  refine (takes_expectWord "function" _ _).bind (.not_punct (by rintro ⟨⟩) ((takes_identifier hr).bind ?_))
  exact (readBack_functionParts hn h d false rest trivial
    (Nat.le_of_succ_le (Nat.le_of_succ_le hlen))).bind (.pure _ _)

/-- A method behind the start of its line. -/
theorem readBack_method {name : String} {isStatic : Bool} {u : Reading}
    (hps : ps.head? = some (punct "(")) (h : ReadBack bareFunction (fun _ => True) ps u) :
    ReadBack method (fun _ => True) (Layout.method name isStatic ps) ⟨name, isStatic, u⟩ := by
  obtain ⟨qs, rfl⟩ := List.head?_eq_some_iff.1 hps
  intro d fresh rest _ hlen
  cases isStatic with
  | true =>
    have function := h d false rest trivial (Nat.le_of_succ_le (Nat.le_of_succ_le hlen))
    refine (takes_isWord _ _).bind ((takes_second? _).bind (.pos rfl ?_))
    refine (takes_discard_next _ _).bind ((takes_atAccessor rfl).bind (.neg nofun ?_))
    exact (takes_propertyName name).bind (function.bind (.pure _ _))
  | false =>
    have function := h d false rest trivial (Nat.le_of_succ_le hlen)
    -- the parenthesis behind the name tells that `static` is the name itself
    have layout : marks fresh (Layout.method name false (punct "(" :: qs)) ++ rest =
        (.word name, fresh) :: (marks false (punct "(" :: qs) ++ rest) := rfl
    rw [layout]
    refine (takes_isWord _ _).bind ((takes_second? _).bind ?_)
    have named : (front? ((.word name, fresh) :: (marks false (punct "(" :: qs) ++ rest)) ==
        some (.word "static") && front? ((.word name, fresh) ::
          (marks false (punct "(" :: qs) ++ rest)).tail != some (.punct "(")) = false :=
      Bool.and_eq_false_iff.2 (.inr rfl)
    rw [named]
    refine .neg nofun ((takes_atAccessor rfl).bind (.neg nofun ?_))
    exact (takes_propertyName name).bind (function.bind (.pure _ _))

end Graft
