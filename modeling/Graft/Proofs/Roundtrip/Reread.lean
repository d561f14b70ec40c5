import Graft.Proofs.Roundtrip.Mutant

/-!
# Which mutants are read back

The text of shaped statements is read back just when their slashes divide; else the scanner takes
one for the start of a regular expression. A pass that exchanges operators keeps a program one that
obeys the grammar, so its text is read back but for such slashes, and an operator that becomes a
division may be one.

* `read_back` - the text of a script that is laid out with the characters of shaped statements
* `read_back_of_grammatical` - the text of a program that obeys the grammar
* `reread_operators` - the text of a program after a pass over its operators
-/

namespace Graft

open Chance (Stream Probability)
open Piece Layout Graft.Tree
open Reading (of)
open Script (root)

variable {τ : Type}

/-! ## Shaped statements -/

/-- What is not scanned is not read. -/
theorem read_eq_error {source : String} {e : SourceError} (h : scan source = .error e) :
    Script.read source = .error e := by
  rw [Script.read, h]
  rfl

/-- The text of a script that is laid out with the characters of shaped statements is read and
printed the same just when their slashes divide. -/
theorem read_back {s : Script} {body : List Reading} (hs : ∀ c ∈ body, c.Shaped ∧ c.IsStmt)
    (h : charsOf (s.tree root).pieces = charsOf (of (.program body)).pieces) :
    ((of (.program body)).Divisible → ∃ s', Script.read s.text = .ok s' ∧
      (s'.tree root).erase = (of (.program body)).wrapped ∧ s'.text = s.text) ∧
    (¬ (of (.program body)).Divisible → ∃ spot,
      Script.read s.text = .error (.unsupported .regularExpression spot)) := by
  have layout : (of (.program body)).pieces = Form.statements (body.map form) .outer := by
    rw [pieces, of, form_mk]
    rfl
  have text := text_eq_of_chars (layout ▸ h) hs
  obtain ⟨hyes, hno⟩ := scan_pieces (strip_linesOf hs).legible
  have divides : (of (.program body)).Divisible ↔ ∀ c ∈ body, c.Divisible := divisible_program
  rw [← text, dividesBehind_linesOf hs, ← divides] at hyes hno
  constructor
  · intro divisible
    obtain ⟨tokens, ht, -⟩ := hyes divisible
    rw [text] at ht
    obtain ⟨s', reads, shows⟩ := shows_of_text hs ht
    have erase : (s'.tree root).erase = (of (.program body)).wrapped :=
      shows.erase_eq.trans (wrapped_mk () (.program body)).symm
    have chars : charsOf (s'.tree root).pieces = charsOf (s.tree root).pieces := by
      rw [h, pieces, pieces, ← form_erase, erase, form_wrapped]
    refine ⟨s', text ▸ reads, erase, ?_⟩
    rw [Script.text, Script.text, Script.textAt, Script.textAt, Tree.text, Tree.text, chars]
  · intro divisible
    obtain ⟨spot, he⟩ := hno divisible
    exact ⟨spot, read_eq_error he⟩

/-! ## Programs that obey the grammar -/

namespace Tree

theorem edge_nameless (t : Tree τ) : t.nameless.edge = t.edge := by
  induction t using induct with
  | step t ih =>
    obtain ⟨tag, n⟩ := t
    have same (n : Node Reading String) : (of n.nameless).edge = (of n).edge := by
      funext level
      rw [of, of, edge_mk, edge_mk]
      cases n <;> rfl
    rw [nameless_mk, same]
    exact edge_mk_map ih

/-- The names of methods leave the slashes alone. -/
theorem divisible_nameless (t : Tree τ) : t.nameless.Divisible ↔ t.Divisible := by
  induction t using induct with
  | step t ih =>
    obtain ⟨tag, n⟩ := t
    have same (n : Node Reading String) : (of n.nameless).Divisible ↔ (of n).Divisible := by
      have unnamed : ∀ c : Reading, c.unnamed.Divisible ↔ c.Divisible := by
        rintro ⟨tag, n⟩
        cases n with
        | functionExpr name params body =>
          show (mk () (.functionExpr none params body)).Divisible ↔ _
          rw [divisible_mk, divisible_mk]
          exact and_congr_left fun _ =>
            iff_of_true (Node.divisible_of_none rfl) (Node.divisible_of_none rfl)
        | _ => exact Iff.rfl
      cases n with
      | classDecl name superclass methods =>
        rw [of, of, divisible_mk, divisible_mk]
        refine and_congr
          (iff_of_true (Node.divisible_of_none rfl) (Node.divisible_of_none rfl)) ?_
        simp only [Node.nameless, Node.children, List.forall_mem_append, List.map_map,
          List.forall_mem_map, Function.comp_apply, unnamed]
      | _ => exact Iff.rfl
    rw [nameless_mk, same]
    exact divisible_mk_map (fun c _ => edge_nameless c) ih

end Tree

/-- The text of a script that is laid out with the characters of a program that obeys the grammar is
read and printed the same just when the slashes of the program divide. -/
theorem read_back_of_grammatical {s : Script} {t : Tree τ} (program : t.kind = .program)
    (hg : t.Grammatical) (spelled : t.Each Node.Spelled)
    (h : charsOf (s.tree root).pieces = charsOf t.pieces) :
    (t.Divisible → ∃ s', Script.read s.text = .ok s' ∧ s'.text = s.text) ∧
    (¬ t.Divisible → ∃ spot,
      Script.read s.text = .error (.unsupported .regularExpression spot)) := by
  have shaped := shaped_nameless hg spelled
  have layout : charsOf (s.tree root).pieces = charsOf t.nameless.pieces := by
    rw [h, pieces, pieces, form_nameless]
  obtain ⟨body, hbody⟩ : ∃ body, t.nameless = of (.program body) := by
    obtain ⟨tag, n⟩ := t
    cases n with
    | program body => exact ⟨body.map nameless, nameless_mk ..⟩
    | _ => cases program
  rw [hbody] at shaped layout
  obtain ⟨statements, below⟩ := shaped_mk.1 shaped
  obtain ⟨hyes, hno⟩ := read_back (fun c hc => ⟨below c hc, statements c hc⟩) layout
  rw [← divisible_nameless, hbody]
  refine ⟨fun divisible => ?_, hno⟩
  obtain ⟨s', reads, -, same⟩ := hyes divisible
  exact ⟨s', reads, same⟩

/-! ## Scripts -/

theorem Script.Regular.kind_root {s : Script} (h : s.Regular) : (s.tree root).kind = .program := by
  obtain ⟨body, hbody⟩ := h.wellformed.program
  rw [h.wellformed.rooted.kind_eq, Script.kind, hbody]
  rfl

theorem Script.Regular.grammatical {s : Script} (h : s.Regular) : (s.tree root).Grammatical :=
  h.named.grammatical h.wellformed.rooted h.fits

theorem spelled_read {source : String} {s : Script} (h : Script.read source = .ok s) :
    (s.tree root).Each Node.Spelled :=
  lasting_spelled.shaped _ (Script.shaped_read h root)

/-- The slashes of a program divide if the text of its script is read. -/
theorem divisible_of_read {source : String} {s s' : Script} (h : Script.read source = .ok s)
    (h' : Script.read s.text = .ok s') : (s.tree root).Divisible := by
  have regular := regular_read h
  by_contra slash
  obtain ⟨spot, he⟩ :=
    (read_back_of_grammatical regular.kind_root regular.grammatical (spelled_read h) rfl).2 slash
  rw [h'] at he
  cases he

/-! ## Passes over operators -/

namespace NodeChange

variable {s : Script} {step : NodeChange} {P : Node Head String → Prop}

/-- A pass that obeys the grammar keeps what every node of a program has, if its changes do. -/
theorem each_everywhere (stable : Node.Stable P) (keeps : step.Keeps) (obeys : step.Obeys)
    (asks : ∀ node stream, ∀ new ∈ (step node stream).1,
      ∀ (f : NodeId → Head) (text : Sym → String), P (node.map f text) → P (new.map f text))
    (h : s.Regular) (hp : (s.tree root).Each P) (stream : Stream) :
    ((everywhere step s stream).1.2.tree root).Each P := by
  refine (atEach_induct (P := fun s => s.Regular ∧ (s.tree root).Each P) ?_ ⟨h, hp⟩ stream).2
  rintro s ⟨h, hp⟩ id - stream new hnew
  have kept := keeps _ stream new hnew
  have obeyed := obeys _ stream new hnew
  refine ⟨regular_setNode h kept obeyed, ?_⟩
  obtain ⟨kind, children, names⟩ := kept
  have named : s.Named new := fun x hx => h.wellformed.closed.named id x (names ▸ hx)
  exact Script.each_setNode stable h.wellformed.rooted ⟨named, children, kind, .inl obeyed.1⟩
    (asks _ stream new hnew _ _) hp

/-- Operators are not spelled out. -/
theorem Operated.spelled {node new : Node NodeId Sym} (h : Operated node new) (f : NodeId → Head)
    (text : Sym → String) : (new.map f text).Spelled := by
  cases h <;> trivial

end NodeChange

/-- The text of a program that was read and went through a pass over its operators is read and
printed the same just when no operand in front of a slash ends in a name behind which an operand is
expected; else the scanner takes the slash for the start of a regular expression. -/
theorem reread_operators {source : String} {s : Script} (h : Script.read source = .ok s)
    (m : Local) :
    let s' := (m.run NodeChange.operator s).2.1
    ((s'.tree root).Divisible → ∃ s'', Script.read s'.text = .ok s'' ∧ s''.text = s'.text) ∧
    (¬ (s'.tree root).Divisible → ∃ spot,
      Script.read s'.text = .error (.unsupported .regularExpression spot)) := by
  intro s'
  have regular := regular_read h
  have after : s'.Regular := NodeChange.regular_everywhere (NodeChange.keeps_operator _)
    (NodeChange.obeys_operator _) regular m.stream
  have spelled : (s'.tree root).Each Node.Spelled :=
    NodeChange.each_everywhere Node.stable_spelled (NodeChange.keeps_operator _)
      (NodeChange.obeys_operator _)
      (fun _ _ _ hnew f text _ => (NodeChange.operated_of_mem hnew).spelled f text) regular
      (spelled_read h) m.stream
  exact read_back_of_grammatical after.kind_root after.grammatical spelled rfl

/-- A product that becomes a division behind a name that is no operator. -/
theorem reread_operators_of_name : ∃ s, Script.read "(a) * 2" = .ok s ∧
    let s' := ((⟨.always, .seeded 3⟩ : Local).run NodeChange.operator s).2.1
    s'.text = "a / 2;\n" ∧ ∃ s'', Script.read s'.text = .ok s'' ∧ s''.text = s'.text := by
  let m : Local := ⟨.always, .seeded 3⟩
  obtain ⟨s, hs, ht⟩ : ∃ s, Script.read "(a) * 2" = .ok s ∧
      decide ((m.run NodeChange.operator s).2.1.text = "a / 2;\n" ∧
        ((m.run NodeChange.operator s).2.1.tree root).Divisible) = true :=
    exists_read (by decide +kernel)
  obtain ⟨text, divisible⟩ := of_decide_eq_true ht
  exact ⟨s, hs, text, (reread_operators hs m).1 divisible⟩

/-- A product that becomes a division behind a name that may be an operator. -/
theorem reread_operators_of_operandWord : ∃ s, Script.read "of * 2" = .ok s ∧
    (∃ s₁, Script.read s.text = .ok s₁ ∧ s₁.text = s.text) ∧
      let s' := ((⟨.always, .seeded 3⟩ : Local).run NodeChange.operator s).2.1
      s'.text = "of / 2;\n" ∧ ¬ ∃ s'', Script.read s'.text = .ok s'' := by
  let m : Local := ⟨.always, .seeded 3⟩
  obtain ⟨s, hs, ht⟩ : ∃ s, Script.read "of * 2" = .ok s ∧
      ((Script.read s.text).toOption.any (fun s₁ => s₁.text == s.text) &&
        (m.run NodeChange.operator s).2.1.text == "of / 2;\n" &&
          (Script.read (m.run NodeChange.operator s).2.1.text).toOption.isNone) = true :=
    exists_read (by decide +kernel)
  simp only [Bool.and_eq_true, beq_iff_eq] at ht
  obtain ⟨⟨before, text⟩, refused⟩ := ht
  obtain ⟨s₁, hs₁, same⟩ := exists_read before
  refine ⟨s, hs, ⟨s₁, hs₁, eq_of_beq same⟩, text, fun ⟨s'', hs''⟩ => ?_⟩
  rw [hs''] at refused
  cases refused

end Graft
