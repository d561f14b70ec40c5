import Graft.Proofs.Roundtrip.Statement

/-!
# Each kind of statement is read back

The rules for statements one by one, each on the layout of its node, given that the parts of the
node are read back.

* `ReadBack.behind_line`, `ReadBack.by_word` - a rule that a word chooses is that of a statement
* `readBack_forStmt`, `readBack_forEachStmt` - the two kinds of loops with a head
-/

namespace Graft

open Piece Layout Graft.Tree Read Grammar
open Reading (of)

variable {α : Type} {follow : List Mark → Prop} {t u : Reading} {s s' : Setting}
  {ps qs : List Piece} {d : Nat} {fresh : Bool} {rest : List Mark}

/-! ## From rules to statements -/

/-- A line in front is no more than that a line ended. -/
theorem ReadBack.behind_line {p : Rules → Read α} {a : α} (h : ReadBack p follow ps a)
    (s : Setting) : ReadBack p follow (s.line :: ps) a :=
  fun d _ rest hr hlen => h d true rest hr hlen

/-- The rule that a word chooses. -/
theorem ReadBack.by_word {p : Rules → Read Reading} {w : String} (h : ReadBack p follow ps t)
    (hps : ps.head? = some (word w)) (hw : ∀ inner, wordStatement inner w = p inner) :
    ReadBack Grammar.statement follow ps t := by
  obtain ⟨qs, rfl⟩ := List.head?_eq_some_iff.1 hps
  intro d fresh rest hr hlen
  have rule := h d fresh rest hr hlen
  rw [← hw] at rule
  exact (takes_lexeme? _).bind rule

theorem ReadBack.mono {p : Rules → Read α} {a : α} {follow' : List Mark → Prop}
    (h : ReadBack p follow ps a) (hf : ∀ rest, follow' rest → follow rest) :
    ReadBack p follow' ps a :=
  fun d fresh rest hr hlen => h d fresh rest (hf rest hr) hlen

theorem takes_semicolon : Takes semicolon ((.punct ";", fresh) :: rest) () rest :=
  (takes_eatPunct ";" _ _).bind (.pos rfl (.pure _ _))

/-- An expression in parentheses in the head of a statement. -/
theorem takes_parenthesized (h : ReadBackAt 0 s ps t)
    (hlen : (marks fresh (parens ps) ++ rest).length ≤ d + 1) :
    Takes (parenthesized (rules (d + 1))) (marks fresh (parens ps) ++ rest) t rest := by
  rw [parens, marks_enclosed_append] at hlen ⊢
  have inside : Takes (Grammar.expression (rules d) false) _ t _ :=
    h.expression (halts_punct (by simp)) Bool.false_ne_true.elim (Nat.le_of_succ_le_succ hlen)
  exact (takes_expectPunct "(" _ _).bind
    (inside.bind ((takes_expectPunct ")" _ _).bind (.pure _ _)))

/-! ## Short statements -/

theorem readBack_varStmt (h : ReadBack varDecl AtSemicolon ps t) :
    ReadBack varStmt (fun _ => True) (ps ++ [punct ";"]) t := by
  intro d fresh rest _ hlen
  rw [marks_append, List.append_assoc] at hlen ⊢
  exact (h d fresh _ (show front? _ = _ from rfl) hlen).bind (takes_semicolon.bind (.pure _ _))

theorem readBack_exprStmt (h : ReadBackAt 0 s ps t) :
    ReadBack exprStmt (fun _ => True) (ps ++ [punct ";"]) (of (.exprStmt t)) := by
  intro d fresh rest _ hlen
  rw [marks_append, List.append_assoc] at hlen ⊢
  have inside : Takes (Grammar.expression (rules d) false) _ t _ :=
    h.expression (halts_punct (p := ";") (by simp)) nofun hlen
  exact inside.bind (takes_semicolon.bind (.pure _ _))

/-- The words of statements are reserved. -/
theorem wordStatement_of_free {w : String} (hr : isReserved w = false) (inner : Rules) :
    wordStatement inner w = exprStmt inner := by
  unfold wordStatement
  split <;> first | rfl | cases hr

/-- A word with which an expression begins chooses no other statement. -/
theorem wordStatement_of_opens {w : String} {k : Kind} (h : (Lexeme.word w).Opens k)
    (hk : k ≠ .functionExpr) (inner : Rules) : wordStatement inner w = exprStmt inner := by
  obtain ⟨hr | hw, hf⟩ := h
  · exact wordStatement_of_free hr inner
  · have hne : w ≠ "function" := fun he => hk (hf he)
    simp only [expressionWords, List.mem_cons, List.not_mem_nil, or_false] at hw
    rcases hw with rfl | rfl | rfl | rfl | rfl | rfl | rfl | rfl | rfl <;>
      first | rfl | exact absurd rfl hne

/-- An expression that begins neither like a block nor like a function is a statement. -/
theorem readBack_statement_of_opens {k : Kind} (hf : StartsAs k ps) (ho : k ≠ .object)
    (hk : k ≠ .functionExpr) (h : ReadBack exprStmt follow ps t) :
    ReadBack statement follow ps t := by
  intro d fresh rest hr hlen
  have rule := h d fresh rest hr hlen
  obtain ⟨l, qs, rfl, hl⟩ := hf
  refine (takes_lexeme? _).bind ?_
  cases l with
  | word w =>
    rw [← wordStatement_of_opens hl hk] at rule
    exact rule
  | punct p =>
    obtain ⟨hp, hbrace⟩ := hl
    have brace : p ≠ "\x7b" := fun he => ho (hbrace he)
    have semi : p ≠ ";" := by
      rintro rfl
      revert hp
      decide
    split
    · rename_i heq; exact absurd (Lexeme.punct.inj (Option.some.inj heq)) brace
    · rename_i heq; exact absurd (Lexeme.punct.inj (Option.some.inj heq)) semi
    · rename_i heq; cases heq
    · exact rule
  | number raw => exact rule
  | quoted raw => exact rule

theorem readBack_throwStmt (h : ReadBackAt 0 s ps t) :
    ReadBack throwStmt (fun _ => True) (word "throw" :: space :: ps ++ [punct ";"])
      (of (.throwStmt t)) := by
  intro d fresh rest _ hlen
  have layout : marks fresh (word "throw" :: space :: ps ++ [punct ";"]) ++ rest =
      (.word "throw", fresh) :: (marks false ps ++ (.punct ";", freshBehind false ps) :: rest) := by
    simp
  rw [layout] at hlen ⊢
  obtain ⟨d, rfl, hd⟩ := exists_depth hlen
  have inside : Takes (Grammar.expression (rules d) false) _ t _ :=
    h.expression (halts_punct (p := ";") (by simp)) nofun hd
  exact (takes_expectWord "throw" _ _).bind (inside.bind (takes_semicolon.bind (.pure _ _)))

theorem takes_atStatementEnd (m : Mark) (ms : List Mark) :
    Takes atStatementEnd (m :: ms)
      (m.1 == .punct ";" || m.1 == .punct "\x7d" || m.2) (m :: ms) := by
  refine (takes_isPunct _ _).bind ((takes_isPunct _ _).bind ((takes_atEnd _).bind
    ((takes_newlineAhead _ _).bind ?_)))
  have value : (front? (m :: ms) == some (.punct ";") || front? (m :: ms) == some (.punct "\x7d") ||
      (m :: ms).isEmpty || m.2) = (m.1 == .punct ";" || m.1 == .punct "\x7d" || m.2) := by
    simp [front?]
  rw [value]
  exact .pure _ _

theorem readBack_return : ReadBack returnStmt (fun _ => True) [word "return", punct ";"]
    (of (.returnStmt none)) := by
  intro d fresh rest _ _
  exact (takes_expectWord "return" _ _).bind ((takes_atStatementEnd _ _).bind
    (.pos rfl ((Takes.pure none _).bind (takes_semicolon.bind (.pure _ _)))))

theorem readBack_return_some {k : Kind} (hf : StartsAs k ps) (h : ReadBackAt 0 s ps t) :
    ReadBack returnStmt (fun _ => True) (word "return" :: space :: ps ++ [punct ";"])
      (of (.returnStmt (some t))) := by
  intro d fresh rest _ hlen
  have layout : marks fresh (word "return" :: space :: ps ++ [punct ";"]) ++ rest =
      (.word "return", fresh) ::
        (marks false ps ++ (.punct ";", freshBehind false ps) :: rest) := by
    simp
  rw [layout] at hlen ⊢
  obtain ⟨d, rfl, hd⟩ := exists_depth hlen
  have inside : Takes (Grammar.expression (rules d) false) _ t _ :=
    h.expression (halts_punct (p := ";") (by simp)) nofun hd
  refine (takes_expectWord "return" _ _).bind ?_
  obtain ⟨l, qs, rfl, hl⟩ := hf
  have going : ((l == .punct ";" || l == .punct "\x7d" || false) : Bool) = false := by
    cases l with
    | punct p =>
      have all : ∀ p ∈ expressionSigns, p ≠ ";" ∧ p ≠ "\x7d" := by decide
      simp [all p hl.1]
    | _ => rfl
  refine (takes_atStatementEnd (l, false) _).bind ?_
  rw [going]
  exact .neg nofun ((inside.map).bind (takes_semicolon.bind (.pure _ _)))

/-- A `break` or a `continue`. -/
theorem readBack_transfer (w : String) (node : Node Reading String) :
    ReadBack (fun _ => transfer node) (fun _ => True) [word w, punct ";"] (of node) := by
  intro d fresh rest _ _
  exact (takes_discard_next _ _).bind ((takes_lexeme? _).bind
    (takes_semicolon.bind (.pure _ _)))

theorem readBack_empty : ReadBack statement (fun _ => True) [punct ";"] (of .empty) := by
  intro d fresh rest _ _
  exact (takes_lexeme? _).bind ((takes_discard_next _ _).bind (.pure _ _))

/-! ## Loops and choices with a condition -/

/-- What stands behind a keyword and a condition. -/
theorem marks_headed (w : String) :
    marks fresh (headed w ps ++ qs) ++ rest =
      (.word w, fresh) :: (marks false (parens ps) ++ (marks false qs ++ rest)) := by
  simp [headed, parens, enclosed]

/-- A condition and a statement behind it. -/
theorem takes_headed {β : Type} {f : Reading → Reading → Read β} {b : β} {after : List Mark}
    (h : ReadBackAt 0 s ps t) (hb : ReadBack statement Ends qs u) {w : String} (hr : Ends rest)
    (hlen : (marks fresh (headed w ps ++ qs) ++ rest).length ≤ d)
    (last : ∀ e, d = e + 1 → Takes (f t u) rest b after) :
    ∃ e, d = e + 1 ∧ Takes (do
      expectWord w
      let test ← parenthesized (rules d)
      let body ← (rules d).statement
      f test body) (marks fresh (headed w ps ++ qs) ++ rest) b after := by
  rw [marks_headed] at hlen ⊢
  obtain ⟨e, rfl, he⟩ := exists_depth hlen
  have body : Takes (statement (rules e)) _ u _ := hb e false rest hr (length_le_of_append he)
  exact ⟨e, rfl, (takes_expectWord w _ _).bind ((takes_parenthesized h (Nat.le_succ_of_le he)).bind
    (body.bind (last e rfl)))⟩

theorem readBack_whileStmt (h : ReadBackAt 0 s ps t) (hb : ReadBack statement Ends qs u) :
    ReadBack whileStmt Ends (headed "while" ps ++ qs) (of (.whileStmt t u)) := by
  intro d fresh rest hr hlen
  obtain ⟨-, -, all⟩ := takes_headed h hb hr hlen (f := fun test body =>
    pure (of (.whileStmt test body))) fun _ _ => .pure _ _
  exact all

theorem readBack_withStmt (h : ReadBackAt 0 s ps t) (hb : ReadBack statement Ends qs u) :
    ReadBack withStmt Ends (headed "with" ps ++ qs) (of (.withStmt t u)) := by
  intro d fresh rest hr hlen
  obtain ⟨-, -, all⟩ := takes_headed h hb hr hlen (f := fun test body =>
    pure (of (.withStmt test body))) fun _ _ => .pure _ _
  exact all

/-- The condition of a loop stands behind its body, on a line of its own or on that of a brace. -/
theorem readBack_doWhile (h : ReadBackAt 0 s ps t) (hb : ReadBack statement Ends qs u)
    {gap : Piece} (hgap : gap.lexeme? = none) :
    ReadBack doWhile (fun _ => True)
      (word "do" :: qs ++ gap :: headed "while" ps ++ [punct ";"]) (of (.doWhile u t)) := by
  intro d fresh rest _ hlen
  obtain ⟨f, layout⟩ : ∃ f, marks fresh (word "do" :: qs ++ gap :: headed "while" ps ++
      [punct ";"]) ++ rest = (.word "do", fresh) :: (marks false qs ++ (.word "while", f) ::
        (marks false (parens ps) ++ (.punct ";", false) :: rest)) := by
    cases gap with
    | lexeme l => cases hgap
    | space => exact ⟨freshBehind false qs, by
        simp [headed, parens, enclosed]⟩
    | line n => exact ⟨true, by
        simp [headed, parens, enclosed]⟩
  rw [layout] at hlen ⊢
  obtain ⟨d, rfl, hd⟩ := exists_depth hlen
  have ends : Ends ((.word "while", f) ::
      (marks false (parens ps) ++ (.punct ";", false) :: rest)) :=
    .of_front rfl (by decide : "while" ∉ continuations)
  have body : Takes (statement (rules d)) _ u _ := hb d false _ ends hd
  have test := takes_parenthesized h (Nat.le_succ_of_le (length_le_behind hd))
  exact (takes_expectWord "do" _ _).bind (body.bind ((takes_expectWord "while" _ _).bind
    (test.bind ((takes_eatPunct ";" _ _).discard.bind (.pure _ _)))))

theorem readBack_ifStmt (h : ReadBackAt 0 s ps t) (hb : ReadBack statement Ends qs u) :
    ReadBack ifStmt Ends (headed "if" ps ++ qs) (of (.ifStmt t u none)) := by
  intro d fresh rest hr hlen
  have alone : Takes (eatWord "else") rest false rest :=
    takes_eatWord_of_ne "else" (hr "else" (by simp))
  obtain ⟨-, -, all⟩ := takes_headed h hb hr hlen (f := fun test consequent => do
    let alternate ← if ← eatWord "else" then some <$> (rules d).statement else pure none
    return of (.ifStmt test consequent alternate))
    fun _ _ => alone.bind (.neg nofun ((Takes.pure none _).bind (.pure _ _)))
  exact all

/-- The first branch stands in braces, so that the word `else` belongs to this statement. -/
theorem readBack_ifStmt_else {rs : List Piece} {v : Reading} (h : ReadBackAt 0 s ps t)
    (hb : ReadBack block (fun _ => True) qs u) (hqs : qs.head? = some (punct "\x7b"))
    (ha : ReadBack statement Ends rs v) :
    ReadBack ifStmt Ends (headed "if" ps ++ (space :: qs ++ space :: word "else" :: rs))
      (of (.ifStmt t u (some v))) := by
  intro d fresh rest hr hlen
  have layout : marks fresh (headed "if" ps ++ (space :: qs ++ space :: word "else" :: rs)) ++
      rest = (.word "if", fresh) :: (marks false (parens ps) ++ (marks false qs ++
        (.word "else", freshBehind false qs) :: (marks false rs ++ rest))) := by
    rw [marks_headed]
    simp
  rw [layout] at hlen ⊢
  obtain ⟨d, rfl, hd⟩ := exists_depth hlen
  have hd' := length_le_of_append hd
  have consequent : Takes (statement (rules d)) _ u _ :=
    (hb.statement hqs : ReadBack _ (fun _ => True) _ _) d false _ trivial hd'
  have alternate : Takes (statement (rules d)) _ v _ :=
    ha d false rest hr (Nat.le_of_succ_le (length_le_of_append hd'))
  refine (takes_expectWord "if" _ _).bind ((takes_parenthesized h (Nat.le_succ_of_le hd)).bind
    (consequent.bind ((takes_eatWord "else" _ _).bind (.pos rfl ?_))))
  exact alternate.map.bind (.pure _ _)

/-! ## Exceptions -/

/-- The layout of a clause that catches. -/
abbrev Catch.layout {β : Type} (f : β → List Piece) (h : Catch β String) : List Piece :=
  space :: catchHead h.param ++ f h.body

section Exceptions

variable {β : Type} {f : β → List Piece} {g : β → Reading}

/-- The clause that catches. -/
theorem takes_catchClause {h : Catch β String} (hp : ∀ x ∈ h.param, isReserved x = false)
    (hf : (f h.body).head? = some (punct "\x7b"))
    (hb : ReadBack block (fun _ => True) (f h.body) (g h.body))
    (hlen : (marks fresh (h.layout f) ++ rest).length ≤ d + 1) :
    Takes (catchClause (rules (d + 1))) (marks fresh (h.layout f) ++ rest)
      (some (h.map g id)) rest := by
  obtain ⟨param, body⟩ := h
  cases param with
  | none =>
    have layout : marks fresh (Catch.layout f ⟨none, body⟩) ++ rest =
        (.word "catch", fresh) :: (marks false (f body) ++ rest) := by
      simp [Catch.layout, catchHead]
    rw [layout] at hlen ⊢
    have inside : Takes (block (rules d)) _ (g body) _ :=
      hb d false rest trivial (Nat.le_of_succ_le_succ hlen)
    refine (takes_eatWord "catch" _ _).bind (.pos rfl ((takes_eatPunct_of_ne "(" ?_).bind
      (.neg Bool.false_ne_true (inside.bind (.pure _ _)))))
    obtain ⟨qs, hqs⟩ := List.head?_eq_some_iff.1 hf
    rw [show f body = _ from hqs]
    exact front_ne rfl (by decide)
  | some x =>
    have layout : marks fresh (Catch.layout f ⟨some x, body⟩) ++ rest =
        (.word "catch", fresh) :: (.punct "(", false) :: (.word x, false) ::
          (.punct ")", false) :: (marks false (f body) ++ rest) := by
      simp [Catch.layout, catchHead, parens, enclosed]
    rw [layout] at hlen ⊢
    have inside : Takes (block (rules d)) _ (g body) _ :=
      hb d false rest trivial
        (Nat.le_of_succ_le (Nat.le_of_succ_le (Nat.le_of_succ_le (Nat.le_of_succ_le_succ hlen))))
    exact (takes_eatWord "catch" _ _).bind (.pos rfl ((takes_eatPunct "(" _ _).bind (.pos rfl
      ((takes_identifier (hp x rfl)).bind ((takes_expectPunct ")" _ _).bind
        (inside.bind (.pure _ _)))))))

/-- The clause that catches, if there is one. -/
theorem takes_handler {handler : Option (Catch β String)}
    (hp : ∀ h ∈ handler, ∀ x ∈ h.param, isReserved x = false)
    (hf : ∀ h ∈ handler, (f h.body).head? = some (punct "\x7b"))
    (hb : ∀ h ∈ handler, ReadBack block (fun _ => True) (f h.body) (g h.body))
    (hr : front? rest ≠ some (.word "catch"))
    (hlen : (marks fresh ((handler.map (·.layout f)).getD []) ++ rest).length ≤ d + 1) :
    Takes (catchClause (rules (d + 1))) (marks fresh ((handler.map (·.layout f)).getD []) ++ rest)
      (handler.map (·.map g id)) rest := by
  cases handler with
  | none => exact (takes_eatWord_of_ne "catch" hr).bind (.neg nofun (.pure _ _))
  | some h => exact takes_catchClause (hp h rfl) (hf h rfl) (hb h rfl) hlen

/-- The block that comes last, if there is one, and what is done with it. -/
theorem takes_finalizer {γ : Type} {k : Option Reading → Read γ} {c : γ} {after : List Mark}
    {finalizer : Option β} (hb : ∀ b ∈ finalizer, ReadBack block (fun _ => True) (f b) (g b))
    (hr : front? rest ≠ some (.word "finally"))
    (hlen : (marks fresh ((finalizer.map fun b =>
      space :: word "finally" :: space :: f b).getD []) ++ rest).length ≤ d + 1)
    (last : Takes (k (finalizer.map g)) rest c after) :
    Takes (eatWord "finally" >>= fun found =>
        if found = true then (some <$> (rules (d + 1)).block) >>= k else pure none >>= k)
      (marks fresh ((finalizer.map fun b => space :: word "finally" :: space :: f b).getD []) ++
        rest) c after := by
  cases finalizer with
  | none => exact (takes_eatWord_of_ne "finally" hr).bind (.neg nofun ((Takes.pure _ _).bind last))
  | some b =>
    have inside : Takes (block (rules d)) _ (g b) _ :=
      hb b rfl d false rest trivial (Nat.le_of_succ_le_succ hlen)
    exact (takes_eatWord "finally" _ _).bind (.pos rfl (inside.map.bind last))

theorem readBack_tryStmt {handler : Option (Catch β String)} {finalizer : Option β}
    (hone : handler.isSome ∨ finalizer.isSome) (h : ReadBack block (fun _ => True) ps t)
    (hp : ∀ c ∈ handler, ∀ x ∈ c.param, isReserved x = false)
    (hf : ∀ c ∈ handler, (f c.body).head? = some (punct "\x7b"))
    (hc : ∀ c ∈ handler, ReadBack block (fun _ => True) (f c.body) (g c.body))
    (hb : ∀ b ∈ finalizer, ReadBack block (fun _ => True) (f b) (g b)) :
    ReadBack tryStmt Ends (word "try" :: space :: ps ++ (handler.map (·.layout f)).getD [] ++
      (finalizer.map fun b => space :: word "finally" :: space :: f b).getD [])
      (of (.tryStmt t (handler.map (·.map g id)) (finalizer.map g))) := by
  intro d fresh rest hr hlen
  generalize hrs : (finalizer.map fun b => space :: word "finally" :: space :: f b).getD [] = rs
    at hlen ⊢
  generalize hqs : (handler.map (·.layout f)).getD [] = qs at hlen ⊢
  have layout : marks fresh (word "try" :: space :: ps ++ qs ++ rs) ++ rest =
      (.word "try", fresh) :: (marks false ps ++ (marks (freshBehind false ps) qs ++
        (marks (freshBehind (freshBehind false ps) qs) rs ++ rest))) := by
    simp
  rw [layout] at hlen ⊢
  obtain ⟨d, rfl, hd⟩ := exists_depth hlen
  have hq := Nat.le_succ_of_le (length_le_of_append hd)
  have body : Takes (block (rules d)) _ t _ := h d false _ trivial hd
  have noCatch : front? (marks (freshBehind (freshBehind false ps) qs) rs ++ rest) ≠
      some (.word "catch") := by
    cases finalizer with
    | none => exact hrs ▸ hr "catch" (by simp)
    | some b => exact hrs ▸ front_ne rfl (show Lexeme.word "finally" ≠ _ by decide)
  subst hqs hrs
  have caught := takes_handler hp hf hc noCatch hq
  refine (takes_expectWord "try" _ _).bind (body.bind (caught.bind
    (takes_finalizer hb (hr "finally" (by simp)) (length_le_of_append hq) (.neg ?_ (.pure _ _)))))
  rcases hone with h | h
  · simp [Option.isSome_iff_ne_none.1 h]
  · simp [Option.isSome_iff_ne_none.1 h]

end Exceptions

/-! ## Switches -/

section Switches

variable {β : Type} {f : β → List Piece} {g : β → Reading} {xs : List β}

/-- The statements of a case. -/
theorem takes_caseItems
    (front : ∀ x ∈ xs, ∀ fresh, ∃ l ms, marks fresh (f x) = (l, true) :: ms ∧ l.Begins)
    (h : ∀ x ∈ xs, ReadBack statement Ends (f x) (g x)) (hr : CaseEnds rest)
    (hlen : (marks fresh (xs.flatMap f) ++ rest).length ≤ d) :
    Takes (many (caseItem (rules (d + 1)))) (marks fresh (xs.flatMap f) ++ rest) (xs.map g)
      rest := by
  have stop : Takes (caseItem (rules (d + 1))) rest none rest := by
    refine (takes_isWord _ _).bind ((takes_isWord _ _).bind ((takes_isPunct _ _).bind
      (.pos ?_ (.pure _ _))))
    rcases hr with h | h | h <;> rw [h] <;> decide
  refine takes_many (rounds_flatMap Ends (fun x hx fresh rest => ?_) (fun x hx fresh => ?_)
    (fun x hx fresh rest hr hl => ?_) stop hr.ends hlen)
  · obtain ⟨l, ms, hm, hl⟩ := front x hx fresh
    exact .of_front (by rw [hm]; rfl) hl
  · obtain ⟨l, ms, hm, -⟩ := front x hx fresh
    rw [hm]
    exact List.cons_ne_nil _ _
  · have item : Takes (statement (rules d)) _ (g x) _ := h x hx d fresh rest hr hl
    obtain ⟨l, ms, hm, hb⟩ := front x hx fresh
    rw [hm] at item ⊢
    refine (takes_isWord _ _).bind ((takes_isWord _ _).bind ((takes_isPunct _ _).bind (.neg ?_
      ((takes_atEnd _).bind (.neg nofun (item.bind (.pure _ _)))))))
    cases l with
    | word w =>
      have all : ∀ w, w ∉ continuations → w ≠ "case" ∧ w ≠ "default" := by
        rintro w hw
        constructor <;> rintro rfl <;> exact hw (by decide)
      simp [front?, all w hb]
    | punct p => simpa [front?, Lexeme.Begins] using hb
    | _ => simp [front?]

/-- The label of a case. -/
def caseLabelLayout (f : β → List Piece) : Option β → List Piece
  | some test => word "case" :: space :: f test
  | none => [word "default"]

theorem takes_caseLabel {test : Option β} (h : ∀ e ∈ test, ReadBackAt 0 s (f e) (g e))
    (hlen : (marks fresh (caseLabelLayout f test) ++ (.punct ":", false) :: rest).length ≤ d + 1) :
    Takes (caseLabel (rules (d + 1)))
      (marks fresh (caseLabelLayout f test) ++ (.punct ":", false) :: rest) (test.map g)
      ((.punct ":", false) :: rest) := by
  cases test with
  | none =>
    refine (takes_eatWord_of_ne "case" (front_ne rfl ?_)).bind (.neg nofun
      ((takes_eatWord "default" _ _).bind (.pos rfl (.pure _ _))))
    exact show Lexeme.word "default" ≠ _ by decide
  | some e =>
    have label : Takes (Grammar.expression (rules d) false) _ (g e) _ :=
      (h e rfl).expression (halts_punct (by simp)) nofun (Nat.le_of_succ_le_succ hlen)
    exact (takes_eatWord "case" _ _).bind (.pos rfl (label.bind (.pure _ _)))

theorem readBack_switchCase {γ : Type} {p : γ → List Piece} {q : γ → Reading} {test : Option γ}
    (h : ∀ e ∈ test, ReadBackAt 0 s (p e) (q e))
    (last : ∀ e ∈ test, ∀ fresh, freshBehind fresh (p e) = false)
    (front : ∀ x ∈ xs, ∀ fresh, ∃ l ms, marks fresh (f x) = (l, true) :: ms ∧ l.Begins)
    (hb : ∀ x ∈ xs, ReadBack statement Ends (f x) (g x)) :
    ReadBack switchCase CaseEnds (caseLabelLayout p test ++ punct ":" :: xs.flatMap f)
      (some (of (.switchCase (test.map q) (xs.map g)))) := by
  intro d fresh rest hr hlen
  have behind : ∀ fresh, freshBehind fresh (caseLabelLayout p test) = false := by
    intro fresh
    cases test with
    | none => rfl
    | some e => exact last e rfl _
  rw [marks_append, behind, marks_punct, List.append_assoc, List.cons_append] at hlen ⊢
  obtain ⟨d, rfl, hd⟩ := exists_depth_behind hlen
  have notBrace : front? (marks fresh (caseLabelLayout p test) ++
      (.punct ":", false) :: (marks false (xs.flatMap f) ++ rest)) ≠ some (.punct "\x7d") := by
    cases test <;> exact nofun
  refine (takes_eatPunct_of_ne "\x7d" notBrace).bind (.neg nofun ((takes_caseLabel h hlen).bind
    ((takes_expectPunct ":" _ _).bind ((takes_caseItems front hb hr hd).bind (.pure _ _)))))

theorem readBack_switchStmt (s' : Setting) (h : ReadBackAt 0 s ps t)
    (front : ∀ x ∈ xs, ∀ fresh rest, CaseEnds (marks fresh (f x) ++ rest))
    (ne_nil : ∀ x ∈ xs, ∀ fresh, marks fresh (f x) ≠ [])
    (hc : ∀ x ∈ xs, ReadBack switchCase CaseEnds (f x) (some (g x))) :
    ReadBack switchStmt (fun _ => True)
      (headed "switch" ps ++ space :: braces s' (xs.flatMap f))
      (of (.switchStmt t (xs.map g))) := by
  intro d fresh rest _ hlen
  have layout : marks fresh (headed "switch" ps ++ space :: braces s' (xs.flatMap f)) ++ rest =
      (.word "switch", fresh) :: (marks false (parens ps) ++ (.punct "\x7b", false) ::
        (marks false (xs.flatMap f) ++ (.punct "\x7d", true) :: rest)) := by
    rw [marks_headed]
    simp [braces, Setting.line]
  rw [layout] at hlen ⊢
  obtain ⟨d, rfl, hd⟩ := exists_depth hlen
  have stop : Takes (switchCase (rules (d + 1))) ((.punct "\x7d", true) :: rest) none rest :=
    (takes_eatPunct "\x7d" _ _).bind (.pos rfl (.pure _ _))
  have cases := takes_many (rounds_flatMap CaseEnds front ne_nil
    (fun x hx fresh rest hr hl => hc x hx (d + 1) fresh rest hr hl) stop (.inr (.inr rfl))
    (Nat.le_succ_of_le (length_le_behind hd)))
  exact (takes_expectWord "switch" _ _).bind ((takes_parenthesized h (Nat.le_succ_of_le hd)).bind
    ((takes_expectPunct "\x7b" _ _).bind (cases.bind (.pure _ _))))

end Switches

/-! ## Loops with a head -/

section Heads

variable {β : Type} {f : β → List Piece} {g : β → Reading} {k : Kind}

theorem readBack_forHead_none :
    ReadBack (fun r => forHead (step r)) AtSemicolon [] (.start none) := by
  intro d fresh rest hr _
  refine (takes_isPunct _ _).bind (.pos ?_ (.pure _ _))
  rw [marks_nil, List.nil_append, show front? rest = _ from hr]
  decide

/-- A declaration in the head of a `for`. -/
theorem readBack_forHead_var {kind : VarKind} {head : ForHead}
    (h : ReadBack forVarHead follow (word kind.text :: ps) head) :
    ReadBack (fun r => forHead (step r)) follow (word kind.text :: ps) head := by
  intro d fresh rest hr hlen
  have rule : Takes (forVarHead (rules (d + 1))) _ head _ :=
    h (d + 1) fresh rest hr (Nat.le_succ_of_le hlen)
  refine .not_punct nofun ((takes_lexeme? _).bind ?_)
  cases kind <;> exact rule

/-- What is read in the head of a `for` where no declaration begins. -/
theorem takes_forHead {head : ForHead} (hf : StartsAs k ps)
    (h : Takes (do
      let e ← Grammar.expression (rules d) true
      if ← atEach then return .each e
      return .start (some e)) (marks fresh ps ++ rest) head rest) :
    Takes (forHead (rules (d + 1))) (marks fresh ps ++ rest) head rest := by
  obtain ⟨l, qs, rfl, hl⟩ := hf
  refine .not_punct (front_ne rfl ?_) ((takes_lexeme? _).bind ?_)
  · rintro rfl
    exact absurd hl.1 (by decide)
  · cases l with
    | word w =>
      have keyword : ∀ v ∈ ["var", "let", "const"], some (Lexeme.word w) ≠ some (.word v) := by
        have all : ∀ v ∈ ["var", "let", "const"], isReserved v = true ∧ v ∉ expressionWords := by
          decide
        rintro v hv ⟨⟩
        exact not_opens_word (all w hv).1 (all w hv).2 hl
      split
      · exact absurd ‹_› (keyword _ (by simp))
      · exact absurd ‹_› (keyword _ (by simp))
      · exact absurd ‹_› (keyword _ (by simp))
      · exact h
    | _ => exact h

/-- An expression that a loop starts with. -/
theorem readBack_forHead_start (hf : StartsAs k ps) (hn : s.noIn = true) (h : ReadBackAt 0 s ps t) :
    ReadBack (fun r => forHead (step r)) AtSemicolon ps (.start (some t)) := by
  intro d fresh rest hr hlen
  have halts : Halts true 0 rest := by
    intro l hl
    rw [show front? rest = _ from hr] at hl
    obtain rfl := Option.some.inj hl
    decide
  refine takes_forHead hf ((h.expression halts (fun _ => hn) hlen).bind
    ((takes_atEach rest).bind (.neg ?_ (.pure _ _))))
  rw [show front? rest = _ from hr]
  decide

/-- An expression to which a loop through a collection assigns. -/
theorem readBack_forHead_each (hf : StartsAs k ps) (h : ReadBackAt 16 s ps t) :
    ReadBack (fun r => forHead (step r)) AtEach ps (.each t) := by
  intro d fresh rest hr hlen
  have halts : Halts true 0 rest := by
    intro l hl
    rcases hr with h | h <;> rw [h] at hl <;> obtain rfl := Option.some.inj hl <;> decide
  have target : Takes (Grammar.expression (rules d) true) (marks fresh ps ++ rest) t rest := by
    cases (h d true fresh rest (halts.mono (Nat.zero_le _)) (fun _ => .inr (by decide))
      hlen).loosen (Nat.zero_le _) halts with
    | sequence _ h => exact h
    | _ => omega
  exact takes_forHead hf (target.bind ((takes_atEach rest).bind (.pos hr.found (.pure _ _))))

/-- A part of the head of a `for` that may be left out. -/
theorem takes_forPart {part : Option β} {close : String} {fr : Bool}
    (hc : close ∈ [")", "]", "\x7d", ";", ":"]) (hne : close ∉ expressionSigns)
    (hf : ∀ e ∈ part, ∃ k, StartsAs k (f e)) (h : ∀ e ∈ part, ReadBackAt 0 s (f e) (g e))
    (hlen : (marks fresh (spaced (part.map f)) ++ (.punct close, fr) :: rest).length ≤ d) :
    Takes (forPart (rules (d + 1)) close)
      (marks fresh (spaced (part.map f)) ++ (.punct close, fr) :: rest) (part.map g)
      ((.punct close, fr) :: rest) := by
  cases part with
  | none => exact .at_punct (.pure _ _)
  | some e =>
    obtain ⟨k, hk⟩ := hf e rfl
    have part : Takes (Grammar.expression (rules d) false) (marks fresh (f e) ++ _) (g e) _ :=
      (h e rfl).expression (halts_punct hc) nofun hlen
    exact .not_punct (hk.front_ne (not_opens_punct hne)) (part.bind (.pure _ _))

/-- A loop with a start, a test and a step. -/
theorem readBack_forStmt {init : Option Reading} {test each : Option β}
    (hi : ReadBack (fun r => forHead (step r)) AtSemicolon ps (.start init))
    (first : ∀ e, e ∈ test ∨ e ∈ each → ∃ k, StartsAs k (f e))
    (h : ∀ e, e ∈ test ∨ e ∈ each → ReadBackAt 0 s (f e) (g e))
    (hb : ReadBack statement Ends qs u) :
    ReadBack forStmt Ends (headed "for" (ps ++ punct ";" :: spaced (test.map f) ++
      punct ";" :: spaced (each.map f)) ++ qs)
      (of (.forStmt init (test.map g) (each.map g) u)) := by
  intro d fresh rest hr hlen
  have layout : marks fresh (headed "for" (ps ++ punct ";" :: spaced (test.map f) ++
      punct ";" :: spaced (each.map f)) ++ qs) ++ rest =
      (.word "for", fresh) :: (.punct "(", false) :: (marks false ps ++
        (.punct ";", freshBehind false ps) :: (marks false (spaced (test.map f)) ++
          (.punct ";", freshBehind false (spaced (test.map f))) ::
            (marks false (spaced (each.map f)) ++
              (.punct ")", freshBehind false (spaced (each.map f))) ::
                (marks false qs ++ rest)))) := by
    rw [marks_headed]
    simp
  rw [layout] at hlen ⊢
  obtain ⟨d, rfl, hd⟩ := exists_depth hlen
  have hd := Nat.le_of_succ_le hd
  have hi := hi d false _ (show front? _ = _ from rfl) hd
  have htest := length_le_behind hd
  have heach := length_le_behind htest
  have body : Takes (statement (rules d)) _ u _ := hb d false rest hr (length_le_behind heach)
  have test := takes_forPart (by simp) (by decide) (fun e he => first e (.inl he))
    (fun e he => h e (.inl he)) htest
  have each := takes_forPart (by simp) (by decide) (fun e he => first e (.inr he))
    (fun e he => h e (.inr he)) heach
  refine (takes_expectWord "for" _ _).bind ((takes_isWord "await" _).bind (.neg nofun
    ((takes_expectPunct "(" _ _).bind (hi.bind ((takes_expectPunct ";" _ _).bind
      (test.bind ((takes_expectPunct ";" _ _).bind (each.bind
        ((takes_expectPunct ")" _ _).bind (body.bind (.pure _ _)))))))))))

/-- A loop through a collection. What stands behind the word `of` takes no comma. -/
theorem readBack_forEachStmt (isOf : Bool) {left right : Reading} {rs : List Piece}
    (hl : ReadBack (fun r => forHead (step r)) AtEach ps (.each left))
    (h : ReadBackAt (if isOf then 1 else 0) s rs right) (hb : ReadBack statement Ends qs u) :
    ReadBack forStmt Ends
      (headed "for" (infixed ps (word (if isOf then "of" else "in")) rs) ++ qs)
      (of (if isOf then .forOf left right u else .forIn left right u)) := by
  intro d fresh rest hr hlen
  have layout : marks fresh (headed "for" (infixed ps (word (if isOf then "of" else "in")) rs) ++
      qs) ++ rest = (.word "for", fresh) :: (.punct "(", false) :: (marks false ps ++
        (.word (if isOf then "of" else "in"), freshBehind false ps) :: (marks false rs ++
          (.punct ")", freshBehind false rs) :: (marks false qs ++ rest))) := by
    rw [marks_headed]
    simp [infixed]
  rw [layout] at hlen ⊢
  obtain ⟨d, rfl, hd⟩ := exists_depth hlen
  have hd := Nat.le_of_succ_le hd
  have head := hl d false _
    (show AtEach ((.word _, _) :: _) by cases isOf <;> simp [AtEach, front?]) hd
  have hright := length_le_behind hd
  have body : Takes (statement (rules d)) _ u _ := hb d false rest hr (length_le_behind hright)
  refine (takes_expectWord "for" _ _).bind ((takes_isWord "await" _).bind (.neg Bool.false_ne_true
    ((takes_expectPunct "(" _ _).bind (head.bind ((takes_isWord "of" _).bind
      ((takes_discard_next _ _).bind ?_))))))
  cases isOf with
  | true =>
    have source : Takes (Grammar.assignment (rules d) false) _ right _ :=
      h.assignment ((halts_punct (by simp)).mono (Nat.zero_le _)) Bool.false_ne_true.elim hright
    exact source.bind ((takes_expectPunct ")" _ _).bind (body.bind (.pure _ _)))
  | false =>
    have source : Takes (Grammar.expression (rules d) false) _ right _ :=
      h.expression (halts_punct (by simp)) Bool.false_ne_true.elim hright
    exact source.bind ((takes_expectPunct ")" _ _).bind (body.bind (.pure _ _)))

end Heads

/-! ## Classes -/

section Classes

variable {β γ : Type} {f : β → List Piece} {g : β → Reading} {p : γ → List Piece}
  {q : γ → Method Reading String}

/-- The methods of a class up to its closing brace, each on a line of its own. -/
theorem takes_classItems {methods : List γ}
    (front : ∀ m ∈ methods, ∃ w ms, marks true (p m) = (.word w, true) :: ms)
    (h : ∀ m ∈ methods, ReadBack method (fun _ => True) (p m) (q m)) {fr : Bool}
    (hlen : (marks fresh (methods.flatMap fun m => s.line :: p m) ++
      (.punct "\x7d", fr) :: rest).length ≤ d) :
    Takes (many (classItem (rules d)))
      (marks fresh (methods.flatMap fun m => s.line :: p m) ++ (.punct "\x7d", fr) :: rest)
      (methods.map fun m => some (q m)) rest := by
  have stop : Takes (classItem (rules d)) ((.punct "\x7d", fr) :: rest) none rest :=
    (takes_eatPunct "\x7d" _ _).bind (.pos rfl (.pure _ _))
  refine takes_many (rounds_flatMap (fun _ => True) (fun _ _ _ _ => trivial) (fun m hm fresh => ?_)
    (fun m hm fresh rest _ hl => ?_) stop trivial hlen)
  · obtain ⟨w, ms, hw⟩ := front m hm
    rw [Setting.line, marks_line, hw]
    exact List.cons_ne_nil _ _
  · have item := h m hm d true rest trivial hl
    obtain ⟨w, ms, hw⟩ := front m hm
    rw [hw] at item
    rw [Setting.line, marks_line, hw]
    have notSign (p : String) : front? ((.word w, true) :: ms ++ rest) ≠ some (.punct p) :=
      front_ne rfl (by rintro ⟨⟩)
    exact (takes_eatPunct_of_ne "\x7d" (notSign _)).bind (.neg Bool.false_ne_true
      ((takes_eatPunct_of_ne ";" (notSign _)).bind (.neg Bool.false_ne_true
        (item.bind (.pure _ _)))))

/-- The class that another one extends. -/
def superclassLayout (f : β → List Piece) : Option β → List Piece
  | some superclass => space :: word "extends" :: space :: f superclass
  | none => []

/-- What a reader sees of a class. -/
theorem exists_marks_classDecl (f : β → List Piece) (p : γ → List Piece) (fresh : Bool)
    (rest : List Mark) (name : String) (superclass : Option β) (methods : List γ) (s : Setting) :
    ∃ opened closed,
      marks fresh (Layout.classDecl s name (superclass.map f)
        (methods.map fun m => s.deeper.line :: p m)) ++ rest =
          (.word "class", fresh) :: (.word name, false) ::
            (marks false (superclassLayout f superclass) ++ (.punct "\x7b", opened) ::
              (marks false (methods.flatMap fun m => s.deeper.line :: p m) ++
                (.punct "\x7d", closed) :: rest)) := by
  cases methods with
  | nil =>
    refine ⟨freshBehind false (superclassLayout f superclass), false, ?_⟩
    cases superclass <;> simp [Layout.classDecl, superclassLayout, noBraces]
  | cons m ms =>
    refine ⟨freshBehind false (superclassLayout f superclass), true, ?_⟩
    cases superclass <;>
      simp [Layout.classDecl, superclassLayout, braces, Setting.line, List.flatMap]

theorem readBack_classDecl {name : String} {superclass : Option β} {methods : List γ}
    (hr : isReserved name = false) (hs : ∀ e ∈ superclass, ReadBackAt 16 s' (f e) (g e))
    (front : ∀ m ∈ methods, ∃ w ms, marks true (p m) = (.word w, true) :: ms)
    (h : ∀ m ∈ methods, ReadBack method (fun _ => True) (p m) (q m)) (s : Setting) :
    ReadBack classDecl (fun _ => True) (Layout.classDecl s name (superclass.map f)
      (methods.map fun m => s.deeper.line :: p m))
      (of (.classDecl name (superclass.map g) (methods.map q))) := by
  intro d fresh rest _ hlen
  obtain ⟨opened, closed, layout⟩ := exists_marks_classDecl f p fresh rest name superclass
    methods s
  rw [layout] at hlen ⊢
  have hlen := Nat.le_of_succ_le (Nat.le_of_succ_le hlen)
  have items := takes_classItems front h (length_le_behind hlen)
  have body : Takes (do
      expectPunct "\x7b"
      let items ← many (classItem (rules d))
      return of (.classDecl name (superclass.map g) (items.filterMap id)))
      ((.punct "\x7b", opened) :: (marks false (methods.flatMap fun m => s.deeper.line :: p m) ++
        (.punct "\x7d", closed) :: rest))
      (of (.classDecl name (superclass.map g) (methods.map q))) rest := by
    refine (takes_expectPunct "\x7b" opened _).bind (items.bind ?_)
    rw [List.filterMap_map, Function.id_comp, List.filterMap_eq_map']
    exact .pure _ _
  refine (takes_expectWord "class" _ _).bind ((takes_identifier hr).bind ?_)
  cases superclass with
  | none =>
    have noWord : front? ((.punct "\x7b", opened) :: (marks false (methods.flatMap fun m =>
        s.deeper.line :: p m) ++ (.punct "\x7d", closed) :: rest)) ≠ some (.word "extends") :=
      front_ne rfl nofun
    exact (takes_eatWord_of_ne "extends" noWord).bind (.neg nofun ((Takes.pure none _).bind body))
  | some e =>
    have halts : ∀ ms, Halts false 16 ((.punct "\x7b", opened) :: ms) := fun ms =>
      halts_cons (by decide : joint false (.punct "\x7b") ≤ 16)
    have operand : Takes (access (rules d)) (marks false (f e) ++ _) (g e) _ :=
      takes_access ((hs e rfl).access (front_ne (l := .punct "\x7b") rfl (by decide))
        (Nat.le_of_succ_le hlen)).2.2 (halts _)
    exact (takes_eatWord "extends" _ _).bind (.pos rfl (operand.map.bind body))

end Classes

end Graft
