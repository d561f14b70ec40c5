import Graft.Proofs.Printing.Phrase
import Graft.Proofs.Roundtrip.Level
import Graft.Proofs.Roundtrip.Marks

/-!
# Operands are read back

What the layout of an operand is read back as, given that its parts are read back. A part stands
behind a token that has been taken, so that the rules of the next depth are enough for it.

* `ReadBack`, `ReadBackAt` - layouts that are read back, as a whole or at a level
* `readBackAt_parens` - parentheses
-/

namespace Graft

open Piece Read Grammar
open Reading (of)

variable {α : Type}

/-! ## What is to be shown -/

/-- Whether a rule takes a layout and gives a result, in front of what may follow. The rules that
it is given are deep enough if there are as many of them as marks. -/
def ReadBack (p : Rules → Read α) (follow : List Mark → Prop) (ps : List Piece) (a : α) : Prop :=
  ∀ d fresh rest, follow rest → (marks fresh ps ++ rest).length ≤ d →
    Takes (p (rules d)) (marks fresh ps ++ rest) a rest

/-- Whether a layout is an expression that is read where the grammar asks for a level. In the head
of a `for` it has to have been laid out for one, unless the level is too tight for `in`. -/
def ReadBackAt (level : Nat) (s : Setting) (ps : List Piece) (t : Reading) : Prop :=
  ∀ d noIn fresh rest, Halts noIn (slack level) rest → (noIn = true → s.noIn = true ∨ 14 ≤ level) →
    (marks fresh ps ++ rest).length ≤ d →
      ReadsAt (rules d) noIn level (marks fresh ps ++ rest) t rest

variable {ps qs : List Piece} {a : α} {t u : Reading} {s : Setting} {d level : Nat} {fresh : Bool}
  {rest more : List Mark} {noIn : Bool}

theorem front_ne {l l' : Lexeme} (h : front? rest = some l) (hl : l ≠ l') :
    front? rest ≠ some l' := by
  rw [h]
  exact fun heq => hl (Option.some.inj heq)

/-- There is a next depth for what stands behind a token. -/
theorem exists_depth_behind {m : Mark} {front ms : List Mark}
    (h : (front ++ m :: ms).length ≤ d) : ∃ e, d = e + 1 ∧ ms.length ≤ e := by
  rw [List.length_append, List.length_cons] at h
  exact ⟨d - 1, by omega, by omega⟩

theorem length_le_of_append {front ms : List Mark} (h : (front ++ ms).length ≤ d) :
    ms.length ≤ d := by
  rw [List.length_append] at h
  omega

theorem length_le_behind {m : Mark} {front ms : List Mark} (h : (front ++ m :: ms).length ≤ d) :
    ms.length ≤ d := by
  rw [List.length_append, List.length_cons] at h
  omega

theorem exists_depth {m : Mark} {ms : List Mark} (h : (m :: ms).length ≤ d) :
    ∃ e, d = e + 1 ∧ ms.length ≤ e :=
  exists_depth_behind (h : ([] ++ m :: ms).length ≤ d)

namespace ReadBackAt

theorem loosen {tight : Nat} (h : ReadBackAt tight s ps t) (hl : level ≤ tight) :
    ReadBackAt level s ps t := by
  intro d noIn fresh rest hs hn hlen
  refine (h d noIn fresh rest (hs.mono (slack_mono hl)) (fun hi => ?_) hlen).loosen hl hs
  exact (hn hi).imp_right fun h => Nat.le_trans h hl

/-- An operand by itself may stand anywhere. -/
theorem of_primary (h : ReadBackAt 17 s ps t) (level : Nat) : ReadBackAt level s ps t := by
  by_cases hl : level ≤ 17
  · exact h.loosen hl
  · intro d noIn fresh rest hs _ hlen
    have hslack : slack level = 17 := by
      unfold slack
      repeat' split
      all_goals omega
    cases h d noIn fresh rest (hs.mono (Nat.le_of_eq hslack)) (fun _ => .inr (by decide)) hlen with
    | primary _ hp hb hn h => exact .primary (by omega) hp hb hn h
    | _ => omega

/-- A sequence, where one may stand. -/
theorem expression (h : ReadBackAt 0 s ps t) (hs : Halts noIn 0 rest)
    (hn : noIn = true → s.noIn = true) (hlen : (marks fresh ps ++ rest).length ≤ d) :
    Takes (Grammar.expression (rules d) noIn) (marks fresh ps ++ rest) t rest := by
  cases h d noIn fresh rest hs (fun hi => .inl (hn hi)) hlen with
  | sequence _ h => exact h
  | _ => omega

theorem assignment (h : ReadBackAt 1 s ps t) (hs : Halts noIn 1 rest)
    (hn : noIn = true → s.noIn = true) (hlen : (marks fresh ps ++ rest).length ≤ d) :
    Takes (Grammar.assignment (rules d) noIn) (marks fresh ps ++ rest) t rest := by
  cases h d noIn fresh rest hs (fun hi => .inl (hn hi)) hlen with
  | assignment _ h => exact h
  | _ => omega

/-- Operands joined by operators, in front of what ends them. -/
theorem binary (h : ReadBackAt level s ps t) (hl : 3 ≤ level ∧ level ≤ 13)
    (hs : Halts noIn level rest) (hn : noIn = true → s.noIn = true)
    (hlen : (marks fresh ps ++ rest).length ≤ d) :
    Takes (Grammar.binary (rules d) noIn level) (marks fresh ps ++ rest) t rest := by
  have hslack : level ≤ slack level := by
    unfold slack
    repeat' split
    all_goals omega
  cases h d noIn fresh rest (hs.mono hslack) (fun hi => .inl (hn hi)) hlen with
  | operator _ _ h => exact takes_binary h hs
  | _ => omega

theorem unary (h : ReadBackAt level s ps t) (hl : level = 14 ∨ level = 15)
    (hs : Halts noIn level rest) (hlen : (marks fresh ps ++ rest).length ≤ d) :
    Takes (Grammar.unary (rules d)) (marks fresh ps ++ rest) t rest := by
  have hslack : slack level = level := by
    rcases hl with rfl | rfl <;> rfl
  cases h d noIn fresh rest (hslack.symm ▸ hs) (fun _ => .inr (by omega)) hlen with
  | unary _ _ h => exact h
  | _ => omega

/-- An operand with its members and calls, which may go on. -/
theorem access (h : ReadBackAt 16 s ps t) (hs : front? rest ≠ some (.punct "=>"))
    (hlen : (marks fresh ps ++ rest).length ≤ d) :
    Plain (marks fresh ps ++ rest) ∧ Bare (marks fresh ps ++ rest) ∧
      Joined (TakesOperand (construction (rules d)) (rules d)) (accessSuffix (rules d))
        (marks fresh ps ++ rest) t rest := by
  cases h d false fresh rest (halts_of_ne_arrow hs) nofun hlen with
  | access _ hp hb h => exact ⟨hp, hb, h⟩
  | _ => omega

end ReadBackAt

/-! ## How expressions begin -/

section First

variable {k : Kind}

theorem StartsAs.exists_mark (h : StartsAs k ps) (fresh : Bool) (rest : List Mark) :
    ∃ l ms, marks fresh ps ++ rest = (l, fresh) :: ms ∧ l.Opens k := by
  obtain ⟨l, qs, rfl, hl⟩ := h
  exact ⟨l, _, rfl, hl⟩

theorem StartsAs.front_ne (h : StartsAs k ps) {l : Lexeme} (hl : ¬ l.Opens k) :
    front? (marks fresh ps ++ rest) ≠ some l := by
  obtain ⟨l', ms, hm, ho⟩ := h.exists_mark fresh rest
  rw [hm]
  rintro ⟨⟩
  exact hl ho

theorem not_opens_punct {p : String} (hp : p ∉ expressionSigns) : ¬ (Lexeme.punct p).Opens k :=
  fun h => hp h.1

theorem not_opens_word {w : String} (hr : isReserved w = true) (hw : w ∉ expressionWords) :
    ¬ (Lexeme.word w).Opens k := by
  rintro ⟨hf | hx, -⟩
  · rw [hr] at hf
    cases hf
  · exact hw hx

end First

/-! ## No arrow functions -/

theorem plain_of_ne {m : Mark} (hw : ∀ w, m.1 ≠ .word w) (hp : m.1 ≠ .punct "(") :
    Plain (m :: rest) := by
  refine ⟨fun w fresh more heq => ?_, fun fresh more heq => ?_⟩
  · obtain ⟨rfl, -⟩ := List.cons.inj heq
    exact absurd rfl (hw w)
  · obtain ⟨rfl, -⟩ := List.cons.inj heq
    exact absurd rfl hp

theorem plain_of_reserved {w : String} (hr : isReserved w = true) :
    Plain ((.word w, fresh) :: rest) := by
  refine ⟨fun w' fresh more heq hf => ?_, nofun⟩
  cases heq
  rw [hr] at hf
  cases hf

theorem plain_of_name {w : String} (h : front? rest ≠ some (.punct "=>")) :
    Plain ((.word w, fresh) :: rest) := by
  refine ⟨fun w' fresh more heq _ => ?_, nofun⟩
  cases heq
  exact h

/-- Brackets that match, with no arrow behind them. -/
theorem plain_of_balanced {fresh' : Bool} (hb : Balanced ps)
    (h : front? rest ≠ some (.punct "=>")) :
    Plain ((.punct "(", fresh) :: (marks false ps ++ (.punct ")", fresh') :: rest)) := by
  refine ⟨nofun, fun f more heq behind hbehind => ?_⟩
  cases heq
  rw [List.map_append, Piece.map_fst_marks, hb, List.map_cons, behindGroup_one _ rfl] at hbehind
  obtain rfl := Option.some.inj hbehind
  rwa [List.head?_map]

theorem bare_cons {m : Mark} (hu : unaryOp? m.1 = none) (hw : updateOp? m.1 = none) :
    Bare (m :: rest) := by
  intro l hl
  obtain rfl := Option.some.inj hl
  exact ⟨hu, hw⟩

/-! ## Parentheses -/

theorem halts_punct {p : String} (hp : p ∈ [")", "]", "\x7d", ";", ":"]) :
    Halts noIn 0 ((.punct p, fresh) :: rest) := by
  have all : ∀ p ∈ [")", "]", "\x7d", ";", ":"], joint noIn (.punct p) ≤ 0 := by
    cases noIn <;> decide
  exact halts_cons (all p hp)

theorem marks_enclosed_append (opening closing : String) :
    marks fresh (enclosed opening ps closing) ++ rest =
      (.punct opening, fresh) ::
        (marks false ps ++ (.punct closing, freshBehind false ps) :: rest) := by
  rw [marks_enclosed, List.cons_append, List.append_assoc]
  rfl

/-- An expression in parentheses is an operand. -/
theorem readBackAt_parens {s' : Setting} (hb : Balanced ps) (h : ReadBackAt 0 s ps t) :
    ReadBackAt 17 s' (parens ps) t := by
  intro d noIn fresh rest hs _ hlen
  rw [parens, marks_enclosed_append] at hlen ⊢
  obtain ⟨d, rfl, hd⟩ := exists_depth hlen
  refine .primary (Nat.le_refl _) ?_ ?_ (by simp [front?]) ?_
  · exact plain_of_balanced hb (hs.front_ne (by cases noIn <;> decide))
  · exact bare_cons rfl rfl
  · refine takes_next _ _ fun place => ?_
    have inside : Takes (Grammar.expression (rules d) false) _ t _ :=
      h.expression (halts_punct (by simp)) Bool.false_ne_true.elim hd
    exact inside.bind ((takes_expectPunct ")" _ _).bind (.pure _ _))

/-! ## Names and functions -/

theorem takes_mention (name : String) (marks : List Mark) : Takes (mention name) marks () marks :=
  fun _ hc => ⟨_, rfl, hc⟩

theorem takes_identifier {w : String} (hr : isReserved w = false) :
    Takes identifier ((.word w, fresh) :: rest) w rest := by
  refine (takes_lexeme? _).bind (.neg (by simp [hr]) ?_)
  exact (takes_discard_next _ _).bind ((takes_mention w _).bind (.pure _ _))

theorem takes_propertyName (w : String) :
    Takes propertyName ((.word w, fresh) :: rest) w rest := by
  refine (takes_lexeme? _).bind ?_
  exact (takes_discard_next _ _).bind ((takes_mention w _).bind (.pure _ _))

theorem takes_parameter {w : String} (hr : isReserved w = false)
    (h : front? rest = some (.punct ",") ∨ front? rest = some (.punct ")")) :
    Takes parameter ((.word w, fresh) :: rest) w rest := by
  refine .not_punct nofun ((takes_identifier hr).bind (.not_punct ?_ (.pure _ _)))
  rcases h with h | h <;> rw [h] <;> decide

theorem takes_arrowParameter {w : String} (hr : isReserved w = false)
    (h : front? rest = some (.punct ",") ∨ front? rest = some (.punct ")")) :
    Takes arrowParameter ((.word w, fresh) :: rest) w rest := by
  refine (takes_identifier hr).bind ((takes_isPunct _ _).bind ((takes_isPunct _ _).bind
    (.neg ?_ (.pure _ _))))
  rcases h with h | h <;> rw [h] <;> decide

/-- Parameters up to the closing parenthesis. -/
theorem takes_names {names : List String} (hn : ∀ x ∈ names, isReserved x = false)
    {item : Read String} {f : Bool}
    (h : ∀ w fresh rest, isReserved w = false →
      front? rest = some (.punct ",") ∨ front? rest = some (.punct ")") →
        Takes item ((.word w, fresh) :: rest) w rest) :
    Takes (commaList ")" item)
      (marks fresh (commas (names.map fun x => [word x])) ++ (.punct ")", f) :: rest) names
      ((.punct ")", f) :: rest) := by
  have listed : Listed ")" item (marks fresh (commas (names.map fun x => [word x])) ++
      (.punct ")", f) :: rest) (names.map id) ((.punct ")", f) :: rest) :=
    listed_commas (by decide) (fun x _ fresh => ⟨(.word x, fresh), [], rfl, nofun⟩)
      (fun x hx fresh rest _ hf => h x fresh rest (hn x hx) hf) rfl (Nat.le_refl _)
  rw [List.map_id] at listed
  exact takes_commaList listed

/-- Parameters and body of a function. -/
theorem readBack_functionParts {names : List String} (hn : ∀ x ∈ names, isReserved x = false)
    (h : ReadBack block (fun _ => True) ps t) :
    ReadBack functionParts (fun _ => True) (params names ++ space :: ps) (names, t) := by
  intro d fresh rest _ hlen
  rw [marks_append, marks_space, List.append_assoc, params, parens, marks_enclosed_append] at hlen ⊢
  obtain ⟨d, rfl, hd⟩ := exists_depth hlen
  refine (takes_expectPunct "(" _ _).bind ((takes_names hn fun w fresh rest hr hf =>
    takes_parameter hr hf).bind ((takes_expectPunct ")" _ _).bind ?_))
  refine Takes.bind (h d _ rest trivial ?_) (.pure _ _)
  simp only [List.length_append, List.length_cons] at hd ⊢
  omega

/-- A function without a name. -/
theorem readBack_bareFunction {names : List String} (hn : ∀ x ∈ names, isReserved x = false)
    (h : ReadBack block (fun _ => True) ps t) :
    ReadBack bareFunction (fun _ => True) (params names ++ space :: ps)
      (of (.functionExpr none names t)) :=
  fun d fresh rest hr hlen => (readBack_functionParts hn h d fresh rest hr hlen).bind (.pure _ _)

/-! ## Operands that are words or literals -/

theorem unaryOp?_of_free {name : String} (hr : isReserved name = false) :
    unaryOp? (.word name) = none := by
  refine Option.eq_none_iff_forall_ne_some.2 fun op hop => ?_
  have hmem := List.mem_of_find?_eq_some hop
  have htext := List.find?_some hop
  obtain rfl : op.text = name := by simpa using htext
  cases op <;> first | exact absurd hr (by decide) | exact absurd hmem (by decide)

theorem takes_wordOperand {inner : Rules} {spot : Spot} {name : String}
    (hr : isReserved name = false) :
    Takes (wordOperand inner spot name) rest (of (.ident name)) rest := by
  unfold wordOperand
  split
  all_goals try exact absurd hr (by decide)
  exact .neg (by simp [hr]) ((takes_mention name _).bind (.pure _ _))

theorem readBackAt_ident {name : String} (hr : isReserved name = false) :
    ReadBackAt 17 s [word name] (of (.ident name)) := by
  intro d noIn fresh rest hs _ _
  refine .primary (Nat.le_refl _) (plain_of_name (hs.front_ne (by cases noIn <;> decide)))
    (bare_cons (unaryOp?_of_free hr) rfl) ?_ (takes_next _ _ fun place => takes_wordOperand hr)
  rintro ⟨⟩
  exact absurd hr (by decide)

/-- Whether a lexeme begins an operand and nothing else: no arrow function, construction or
operator. -/
def Lexeme.isSolid : Lexeme → Bool
  | .word w => isReserved w && w != "new" && (unaryOp? (.word w)).isNone
  | .punct p => p != "(" && (unaryOp? (.punct p)).isNone && (updateOp? (.punct p)).isNone
  | _ => true

theorem readBackAt_of_isSolid {l : Lexeme} (hps : ps.head? = some (lexeme l))
    (hl : l.isSolid = true) (h : ReadBack primary (fun _ => True) ps t) :
    ReadBackAt 17 s ps t := by
  obtain ⟨qs, rfl⟩ := List.head?_eq_some_iff.1 hps
  intro d noIn fresh rest _ _ hlen
  have read := h d fresh rest trivial hlen
  cases l with
  | word w =>
    simp only [Lexeme.isSolid, Bool.and_eq_true, bne_iff_ne, Option.isNone_iff_eq_none] at hl
    refine .primary (Nat.le_refl _) (plain_of_reserved hl.1.1) (bare_cons hl.2 rfl) ?_ read
    rintro ⟨⟩
    exact hl.1.2 rfl
  | punct p =>
    simp only [Lexeme.isSolid, Bool.and_eq_true, bne_iff_ne, Option.isNone_iff_eq_none] at hl
    refine .primary (Nat.le_refl _) (plain_of_ne nofun ?_) (bare_cons hl.1.2 hl.2) nofun read
    exact fun heq => hl.1.1 (Lexeme.punct.inj heq)
  | _ =>
    exact .primary (Nat.le_refl _) (plain_of_ne nofun nofun) (bare_cons rfl rfl) nofun read

theorem readBackAt_literal (value : Literal) :
    ReadBackAt 17 s [Layout.literal value] (of (.literal value)) := by
  rcases value with raw | raw | (_ | _) | _ <;>
    exact readBackAt_of_isSolid rfl rfl fun d fresh rest _ _ =>
      takes_next _ _ fun place => .pure _ _

theorem readBackAt_this : ReadBackAt 17 s [word "this"] (of .thisExpr) :=
  readBackAt_of_isSolid rfl (by decide) fun d fresh rest _ _ =>
    takes_next _ _ fun place => .pure _ _

/-- A function from its keyword on. -/
theorem readBackAt_function {name : Option String} {names : List String}
    (hx : ∀ x ∈ name, isReserved x = false) (hn : ∀ x ∈ names, isReserved x = false)
    (h : ReadBack block (fun _ => True) ps t) :
    ReadBackAt 17 s (Layout.function name names ps) (of (.functionExpr name names t)) := by
  have parts := readBack_functionParts hn h
  cases name with
  | none =>
    have layout : Layout.function none names ps =
        word "function" :: (params names ++ space :: ps) := by
      simp [Layout.function]
    rw [layout]
    refine readBackAt_of_isSolid rfl (by decide) fun d fresh rest _ hlen => ?_
    refine takes_next _ _ fun place => .not_punct (front_ne rfl (by decide)) (.at_punct ?_)
    exact (parts d false rest trivial (Nat.le_of_succ_le hlen)).bind (.pure _ _)
  | some x =>
    have layout : Layout.function (some x) names ps =
        word "function" :: space :: word x :: (params names ++ space :: ps) := by
      simp [Layout.function]
    have hr := hx x rfl
    rw [layout]
    refine readBackAt_of_isSolid rfl (by decide) fun d fresh rest _ hlen => ?_
    refine takes_next _ _ fun place => .not_punct nofun (.not_punct nofun ?_)
    refine (takes_identifier hr).map.bind ?_
    exact (parts d false rest trivial (Nat.le_of_succ_le (Nat.le_of_succ_le hlen))).bind (.pure _ _)

/-! ## Lists of expressions -/

/-- What stands between the items of a list and behind the last goes on with no item. -/
theorem halts_comma {close : String} (hc : close ∈ [")", "]", "\x7d", ";", ":"])
    (h : front? rest = some (.punct ",") ∨ front? rest = some (.punct close)) :
    Halts noIn 1 rest := by
  have comma : joint noIn (.punct ",") ≤ 1 := by cases noIn <;> decide
  rcases rest with _ | ⟨⟨l, fresh⟩, rest⟩
  · nofun
  rcases h with ⟨⟨⟩⟩ | ⟨⟨⟩⟩
  · exact halts_cons comma
  · exact (halts_punct hc).mono (by decide)

section Items

variable {β : Type} {k : Kind} {xs : List β} {f : β → List Piece} {g : β → Reading}
  {item : Rules → Read Reading} {close : String}

theorem takes_arrayItem (hf : StartsAs k ps) (h : ReadBackAt 1 s ps t) (hs : Halts false 1 rest)
    (hlen : (marks fresh ps ++ rest).length ≤ d) :
    Takes (arrayItem (rules (d + 1))) (marks fresh ps ++ rest) t rest :=
  .not_punct (hf.front_ne (not_opens_punct (by decide)))
    (.not_punct (hf.front_ne (not_opens_punct (by decide))) (h.assignment hs nofun hlen))

theorem takes_argument (hf : StartsAs k ps) (h : ReadBackAt 1 s ps t) (hs : Halts false 1 rest)
    (hlen : (marks fresh ps ++ rest).length ≤ d) :
    Takes (argument (rules (d + 1))) (marks fresh ps ++ rest) t rest :=
  .not_punct (hf.front_ne (not_opens_punct (by decide))) (h.assignment hs nofun hlen)

/-- Items up to a closing bracket, given that each is read back. -/
theorem takes_items {fr : Bool} (hc : close ∈ [")", "]", "\x7d"]) {item : Read α} {g : β → α}
    (first : ∀ x ∈ xs, ∀ fresh, ∃ m ms, marks fresh (f x) = m :: ms ∧ m.1 ≠ .punct close)
    (h : ∀ x ∈ xs, ∀ fresh rest, Halts false 1 rest → (marks fresh (f x) ++ rest).length ≤ d →
      Takes item (marks fresh (f x) ++ rest) (g x) rest)
    (hlen : (marks fresh (commas (xs.map f)) ++ (.punct close, fr) :: rest).length ≤ d) :
    Takes (commaList close item) (marks fresh (commas (xs.map f)) ++ (.punct close, fr) :: rest)
      (xs.map g) ((.punct close, fr) :: rest) := by
  have all : ∀ p ∈ [")", "]", "\x7d"], p ≠ "," ∧ p ∈ [")", "]", "\x7d", ";", ":"] := by decide
  obtain ⟨hne, hmem⟩ := all close hc
  refine takes_commaList (listed_commas hne first (fun x hx fresh rest hl hf => ?_) rfl hlen)
  exact h x hx fresh rest (halts_comma hmem hf) hl

/-- No expression begins with a closing bracket. -/
theorem StartsAs.first_ne (h : StartsAs k ps) (hc : close ∈ [")", "]", "\x7d"]) (fresh : Bool) :
    ∃ m ms, marks fresh ps = m :: ms ∧ m.1 ≠ .punct close := by
  have all : ∀ p ∈ [")", "]", "\x7d"], p ∉ expressionSigns := by decide
  obtain ⟨l, ms, hm, ho⟩ := h.exists_mark fresh []
  rw [List.append_nil] at hm
  exact ⟨_, ms, hm, fun heq : l = _ => not_opens_punct (all close hc) (heq ▸ ho)⟩

variable (first : ∀ x ∈ xs, ∃ k, StartsAs k (f x)) (h : ∀ x ∈ xs, ReadBackAt 1 s (f x) (g x))

include first h

theorem readBackAt_array {s' : Setting} :
    ReadBackAt 17 s' (enclosed "[" (commas (xs.map f)) "]") (of (.array (xs.map g))) := by
  refine readBackAt_of_isSolid rfl (by decide) fun d fresh rest _ hlen => ?_
  rw [marks_enclosed_append] at hlen ⊢
  obtain ⟨d, rfl, hd⟩ := exists_depth hlen
  refine takes_next _ _ fun place => (takes_items (by decide) (fun x hx => ?_)
    (fun x hx fresh rest hs hl => ?_) hd).bind ((takes_expectPunct "]" _ _).bind (.pure _ _))
  · obtain ⟨k, hk⟩ := first x hx
    exact hk.first_ne (by decide)
  · obtain ⟨k, hk⟩ := first x hx
    exact takes_arrayItem hk (h x hx) hs hl

/-- The arguments of a call with their brackets. -/
theorem readBack_arguments :
    ReadBack arguments (fun _ => True) (parens (commas (xs.map f))) (xs.map g) := by
  intro d fresh rest _ hlen
  rw [parens, marks_enclosed_append] at hlen ⊢
  obtain ⟨d, rfl, hd⟩ := exists_depth hlen
  refine (takes_expectPunct "(" _ _).bind ((takes_items (by decide) (fun x hx => ?_)
    (fun x hx fresh rest hs hl => ?_) hd).bind ((takes_expectPunct ")" _ _).bind (.pure _ _)))
  · obtain ⟨k, hk⟩ := first x hx
    exact hk.first_ne (by decide)
  · obtain ⟨k, hk⟩ := first x hx
    exact takes_argument hk (h x hx) hs hl

end Items

/-! ## Object literals -/

theorem takes_atAccessor {m : Mark} {p : String} (h : front? rest = some (.punct p)) :
    Takes atAccessor (m :: rest) false (m :: rest) := by
  refine (takes_isWord _ _).bind ((takes_isWord _ _).bind ((takes_second? _).bind ?_))
  rw [List.tail_cons, h]
  exact .pure _ _

/-- A property with its value. -/
theorem takes_property (key : Key String) (h : ReadBackAt 1 s ps t) (hs : Halts false 1 rest)
    (hlen : (marks fresh (Layout.key key :: punct ":" :: space :: ps) ++ rest).length ≤ d) :
    Takes (property (rules (d + 1)))
      (marks fresh (Layout.key key :: punct ":" :: space :: ps) ++ rest) ⟨key, t⟩ rest := by
  have value : ∀ shorthand, Takes (propertyValue (rules (d + 1)) shorthand)
      ((.punct ":", false) :: (marks false ps ++ rest)) t rest := by
    intro shorthand
    refine (takes_eatPunct ":" _ _).bind (.pos rfl (h.assignment hs nofun ?_))
    cases key <;> exact Nat.le_of_succ_le (Nat.le_of_succ_le hlen)
  rcases key with name | raw | raw
  · refine (takes_atAccessor rfl).bind (.neg nofun (takes_next _ _ fun place => ?_))
    exact (takes_mention name _).bind ((value _).bind (.pure _ _))
  · refine (takes_atAccessor rfl).bind (.neg nofun (takes_next _ _ fun place => ?_))
    exact (value _).bind (.pure _ _)
  · refine (takes_atAccessor rfl).bind (.neg nofun (takes_next _ _ fun place => ?_))
    exact (value _).bind (.pure _ _)

/-- A key is no sign. -/
theorem exists_marks_key (key : Key String) (fresh : Bool) (qs : List Piece) :
    ∃ l, marks fresh (Layout.key key :: qs) = (l, fresh) :: marks false qs ∧ ∀ p, l ≠ .punct p := by
  rcases key with name | raw | raw <;> exact ⟨_, rfl, nofun⟩

theorem head?_object (layouts : List (List Piece)) :
    (Layout.object layouts).head? = some (punct "\x7b") := by
  cases layouts <;> rfl

/-- The spaces inside the braces of an object literal are not seen. -/
theorem marks_object (layouts : List (List Piece)) :
    marks fresh (Layout.object layouts) =
      marks fresh (enclosed "\x7b" (commas layouts) "\x7d") := by
  cases layouts with
  | nil => rfl
  | cons layout layouts =>
    change marks fresh (enclosed "\x7b" (space :: commas (layout :: layouts) ++ [space]) "\x7d") = _
    simp [freshBehind_append, freshBehind]

theorem readBackAt_object {β : Type} {s' : Setting} {xs : List β} {key : β → Key String}
    {f : β → List Piece} {g : β → Reading} (h : ∀ x ∈ xs, ReadBackAt 1 s (f x) (g x)) :
    ReadBackAt 17 s'
      (Layout.object (xs.map fun x => Layout.key (key x) :: punct ":" :: space :: f x))
      (of (.object (xs.map fun x => ⟨key x, g x⟩))) := by
  refine readBackAt_of_isSolid (head?_object _) (by decide) fun d fresh rest _ hlen => ?_
  rw [marks_object, marks_enclosed_append] at hlen ⊢
  obtain ⟨d, rfl, hd⟩ := exists_depth hlen
  refine takes_next _ _ fun place => (takes_items (by decide) (fun x hx fresh => ?_)
    (fun x hx fresh rest hs hl => ?_) hd).bind ((takes_expectPunct "\x7d" _ _).bind (.pure _ _))
  · obtain ⟨l, hl, hp⟩ := exists_marks_key (key x) fresh (punct ":" :: space :: f x)
    exact ⟨_, _, hl, hp _⟩
  · exact takes_property _ (h x hx) hs hl

end Graft
