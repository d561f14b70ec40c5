import Graft.Building.Program
import Graft.Proofs.Syntax.Planting

/-!
# A builder beside a reader

A builder and a reader on the same tokens take the same steps. They refuse the same tokens in the
same words; and where both succeed, the nodes that the builder has stored are those that planting
what the reader gives would store. A rule is followed on both sides at once, and every rule takes a
token before it turns to nested rules, so that rules as deep as there are tokens are deep enough.

* `Beside`, `Outcome` - states and outcomes that correspond
* `Mirrors` - a builder's rule and a reader's that take the same steps
* `Mirrors.bind`, `Mirrors.look` - steps of a rule
* `mirrors_many`, `mirrors_commaList`, `mirrors_grow` - repetitions
-/

namespace Graft

variable {α β γ δ : Type}

/-! ## Names -/

namespace Names

variable {names names' names'' : Names} {name : String}

/-- Every symbol means in the later table what it means in the earlier one. -/
def Within (names names' : Names) : Prop :=
  ∀ x name, names.text? x = some name → names'.text? x = some name

theorem Within.refl (names : Names) : names.Within names :=
  fun _ _ h => h

theorem Within.trans (h : names.Within names') (h' : names'.Within names'') :
    names.Within names'' :=
  fun x name hx => h' x name (h x name hx)

theorem within_intern (names : Names) (name : String) : names.Within (names.intern name).2 :=
  fun _ _ h => text?_intern_of_text? name h

theorem lookup_intern (names : Names) (name : String) :
    (names.intern name).2.lookup name = some (names.intern name).1 := by
  refine (lookup_eq_some_iff _ _ _).2 ⟨text_intern names name, fun x hx => ?_⟩
  cases hl : names.lookup name with
  | some y =>
    rw [intern, hl] at hx ⊢
    exact ((lookup_eq_some_iff names name y).1 hl).2 x hx
  | none =>
    have hi : names.intern name = (names.size, ⟨names.spellings.push name⟩) := by rw [intern, hl]
    have hlt : x < names.size := by simpa [hi] using hx
    rw [text_intern_of_lt names name hlt]
    intro ht
    obtain ⟨hx, he⟩ := Array.getElem?_eq_some_iff.1 ht
    have := Array.findIdx?_eq_none_iff.1 hl _ (Array.getElem_mem hx)
    simp [he] at this

/-- A name that has a symbol keeps it. -/
theorem Within.lookup (h : names.Within names') {x : Sym} (hx : names.lookup name = some x) :
    names'.lookup name = some x := by
  obtain ⟨ht, hfirst⟩ := (lookup_eq_some_iff _ _ _).1 hx
  refine (lookup_eq_some_iff _ _ _).2 ⟨h x name ht, fun y hy => ?_⟩
  obtain ⟨other, ho⟩ : ∃ other, names.text? y = some other :=
    ⟨_, Array.getElem?_eq_getElem (Nat.lt_trans hy (lt_of_text? ht))⟩
  rw [h y other ho]
  rintro ⟨⟩
  exact hfirst y hy ho

end Names

/-- A name that has a symbol is not entered again. -/
theorem Script.intern_of_lookup {s : Script} {name : String} {x : Sym}
    (h : s.names.lookup name = some x) : Script.intern name s = (x, s) := by
  change (s.names.intern name).map id (Script.mk s.nodes) = _
  rw [Names.intern, h]
  rfl

/-! ## Corresponding states -/

/-- The spots of tokens, with that of the end. -/
def Tokens.spots (ts : Tokens) : List Spot :=
  ts.list.map (fun token => ⟨some token.lexeme, token.place⟩) ++ [⟨none, ts.finish⟩]

/-- Whether an error says what stands at one of the spots of the tokens. -/
def SourceError.PointsAt (ts : Tokens) : SourceError → Prop
  | .unexpected _ found place => ⟨found, place⟩ ∈ ts.spots
  | .unsupported _ place => ∃ found, ⟨found, place⟩ ∈ ts.spots
  | _ => False

namespace Builder

/-- A builder on the given tokens, and a reader at the same place with the same names. -/
structure Beside (ts : Tokens) (b : Builder) (c : Cursor) : Prop where
  tokens : b.tokens = ts
  position_le : b.position ≤ ts.list.length
  ahead : c.ahead = b.ahead
  finish : c.finish = ts.finish
  names : c.script.names = b.script.names

/-- The later builder has moved on, and has all that the earlier one had. -/
structure Leads (b b' : Builder) : Prop where
  position_le : b.position ≤ b'.position
  noIn : b'.noIn = b.noIn
  nodes : b.script.nodes.toList <+: b'.script.nodes.toList
  names : b.script.names.Within b'.script.names

variable {b b' b'' : Builder} {c : Cursor} {ts : Tokens}

theorem Leads.refl (b : Builder) : b.Leads b :=
  ⟨Nat.le_refl _, rfl, List.prefix_refl _, .refl _⟩

theorem Leads.trans (h : b.Leads b') (h' : b'.Leads b'') : b.Leads b'' :=
  ⟨Nat.le_trans h.position_le h'.position_le, h'.noIn.trans h.noIn, h.nodes.trans h'.nodes,
    h.names.trans h'.names⟩

theorem length_ahead (b : Builder) : b.ahead.length = b.tokens.list.length - b.position :=
  List.length_drop

theorem Beside.length_ahead (h : Beside ts b c) :
    b.position + b.ahead.length = ts.list.length := by
  rw [b.length_ahead, h.tokens]
  exact Nat.add_sub_cancel' h.position_le

theorem peek?_zero (b : Builder) : b.peek? 0 = b.ahead.head? := by
  rw [ahead, List.head?_drop]
  rfl

namespace Beside

variable (h : Beside ts b c)

include h

theorem lexeme? : c.lexeme? = b.lexeme? := by
  rw [Cursor.lexeme?, Builder.lexeme?, peek?_zero, h.ahead]

theorem second? : c.ahead[1]?.map (·.lexeme) = (b.peek? 1).map (·.lexeme) := by
  rw [h.ahead, Builder.ahead, List.getElem?_drop]
  rfl

theorem isEmpty : c.ahead.isEmpty = (b.peek? 0).isNone := by
  rw [peek?_zero, h.ahead]
  cases b.ahead <;> rfl

theorem spot : c.spot = b.spot := by
  rw [Cursor.spot, Builder.spot, peek?_zero, h.ahead, h.finish, h.tokens]
  cases b.ahead <;> rfl

theorem newlineAhead : c.newlineAhead = b.newlineAhead := by
  rw [Cursor.newlineAhead, Builder.newlineAhead, peek?_zero, h.ahead]
  cases b.ahead <;> rfl

theorem spot_mem : b.spot ∈ ts.spots := by
  rw [Tokens.spots, List.mem_append, List.mem_map, List.mem_singleton, Builder.spot]
  obtain rfl := h.tokens
  split
  · exact .inl ⟨_, List.mem_of_getElem? ‹_›, rfl⟩
  · exact .inr rfl

/-- Both move on by a token, if there is one. -/
theorem advance : Beside ts b.advance { c with ahead := c.ahead.tail } := by
  unfold Builder.advance
  split
  · rename_i hlt
    rw [h.tokens] at hlt
    refine ⟨h.tokens, hlt, ?_, h.finish, h.names⟩
    rw [h.ahead]
    exact List.tail_drop
  · rename_i hle
    have hnil : b.ahead = [] := List.drop_eq_nil_of_le (Nat.le_of_not_lt hle)
    refine ⟨h.tokens, h.position_le, ?_, h.finish, h.names⟩
    rw [h.ahead, hnil]
    rfl

end Beside

theorem leads_advance (b : Builder) : b.Leads b.advance := by
  unfold advance
  split
  · exact ⟨Nat.le_succ _, rfl, List.prefix_refl _, .refl _⟩
  · exact .refl b

theorem script_advance (b : Builder) : b.advance.script = b.script := by
  unfold advance
  split <;> rfl

/-- A token in front is taken. -/
theorem position_advance (h : b.lexeme? ≠ none) : b.advance.position = b.position + 1 := by
  rw [advance, if_pos]
  by_contra hle
  refine h ?_
  rw [lexeme?, peek?_zero, show b.ahead = [] from List.drop_eq_nil_of_le (Nat.le_of_not_lt hle)]
  rfl

end Builder

open Builder (Beside Leads)

/-! ## Corresponding outcomes -/

/-- Where a builder and a reader have come to from states that correspond. -/
structure Moved (ts : Tokens) (b b' : Builder) (c c' : Cursor) : Prop where
  beside : Beside ts b' c'
  leads : b.Leads b'
  nodes : c'.script.nodes = c.script.nodes

/-- Both succeed, with results as stated, or both refuse the same. -/
def Outcome (ts : Tokens) (b : Builder) (c : Cursor) (good : α → β → Builder → Prop) :
    EStateM.Result SourceError Builder β → EStateM.Result SourceError Cursor α → Prop
  | .ok y b', .ok x c' => Moved ts b b' c c' ∧ good x y b'
  | .error e b', .error e' c' => e = e' ∧ e.PointsAt ts ∧ Moved ts b b' c c'
  | _, _ => False

variable {ts : Tokens}

theorem Moved.refl {b : Builder} {c : Cursor} (h : Beside ts b c) : Moved ts b b c c :=
  ⟨h, .refl b, rfl⟩

theorem Moved.trans {b b' b'' : Builder} {c c' c'' : Cursor} (h : Moved ts b b' c c')
    (h' : Moved ts b' b'' c' c'') : Moved ts b b'' c c'' :=
  ⟨h'.beside, h.leads.trans h'.leads, h'.nodes.trans h.nodes⟩

theorem Outcome.imp {b : Builder} {c : Cursor} {good good' : α → β → Builder → Prop}
    {out : EStateM.Result SourceError Builder β} {out' : EStateM.Result SourceError Cursor α}
    (h : Outcome ts b c good out out')
    (himp : ∀ x y b' c', Moved ts b b' c c' → good x y b' → good' x y b') :
    Outcome ts b c good' out out' := by
  cases out <;> cases out' <;> try exact h
  exact ⟨h.1, himp _ _ _ _ h.1 h.2⟩

theorem Outcome.bind {b : Builder} {c : Cursor} {good : α → β → Builder → Prop}
    {good' : γ → δ → Builder → Prop} {p : Build β} {q : Read α} {f : β → Build δ} {g : α → Read γ}
    (h : Outcome ts b c good (p b) (q c))
    (hf : ∀ x y b' c', Moved ts b b' c c' → good x y b' →
      Outcome ts b' c' good' (f y b') (g x c')) :
    Outcome ts b c good' ((p >>= f) b) ((q >>= g) c) := by
  change Outcome ts b c good' (EStateM.bind p f b) (EStateM.bind q g c)
  unfold EStateM.bind
  cases hp : p b <;> cases hq : q c <;> rw [hp, hq] at h
  case ok.ok y b' x c' =>
    have next := hf x y b' c' h.1 h.2
    dsimp only
    cases hp' : f y b' <;> cases hq' : g x c' <;> rw [hp', hq'] at next
    · exact ⟨h.1.trans next.1, next.2⟩
    · exact next
    · exact next
    · exact ⟨next.1, next.2.1, h.1.trans next.2.2⟩
  case error.error => exact h
  all_goals exact h.elim

/-! ## Corresponding rules -/

/-- A builder's rule and a reader's take the same steps, from states of a kind with `in` as given,
wherever fewer than `most` tokens are ahead, or as many if none has been taken yet (`fresh`). A
result that `takes` is given only behind a token that was taken. What a result is made of is stated
of the table before and behind, with all names that there will be. -/
def Mirrors (ts : Tokens) (noIn : Bool) (most : Nat) (fresh : Bool) (pre : Builder → Prop)
    (p : Build β) (q : Read α) (takes : α → Bool) (R : α → β → Script → Script → Prop) : Prop :=
  ∀ b c, Beside ts b c → pre b → b.noIn = noIn → b.ahead.length < most + fresh.toNat →
    Outcome ts b c (fun x y b' => b.position + (takes x).toNat ≤ b'.position ∧
      ∀ names, b'.script.names.Within names →
        R x y ⟨b.script.nodes, names⟩ ⟨b'.script.nodes, names⟩) (p b) (q c)

/-- All states. -/
def Anywhere (_ : Builder) : Prop :=
  True

/-- All results take a token. -/
def always (_ : α) : Bool :=
  true

/-- A result may be given without a token. -/
def never (_ : α) : Bool :=
  false

/-- A result that is the same on both sides, with nothing stored. -/
def Same (x y : α) (s s' : Script) : Prop :=
  x = y ∧ s' = s

/-- A result that is made by storing what a plan stores. -/
abbrev Via (plan : α → StateM Script β) (x : α) (y : β) (s s' : Script) : Prop :=
  plan x s = (y, s')

variable {noIn fresh : Bool} {most : Nat} {pre : Builder → Prop} {p : Build β} {q : Read α}
  {takes : α → Bool} {R : α → β → Script → Script → Prop} {takes' : γ → Bool}
  {R' : γ → δ → Script → Script → Prop}

namespace Mirrors

theorem imp {R' : α → β → Script → Script → Prop}
    (h : Mirrors ts noIn most fresh pre p q takes R)
    (hR : ∀ x y s s', R x y s s' → R' x y s s') : Mirrors ts noIn most fresh pre p q takes R' :=
  fun b c hb hp hn hl => (h b c hb hp hn hl).imp fun x y _ _ _ hg =>
    ⟨hg.1, fun names hw => hR x y _ _ (hg.2 names hw)⟩

/-- A result that is not used. -/
theorem discarded {p : Build α} (h : Mirrors ts noIn most fresh pre p q takes Same) :
    Mirrors ts noIn most fresh pre (discard p) (discard q) never Same := by
  refine fun b c hb hp hn hl => ?_
  have run := h b c hb hp hn hl
  change Outcome ts b c _ (EStateM.map _ p b) (EStateM.map _ q c)
  unfold EStateM.map
  cases hp : p b <;> cases hq : q c <;> rw [hp, hq] at run
  case ok.ok => exact ⟨run.1, run.1.leads.position_le, fun names hw => ⟨rfl, (run.2.2 names hw).2⟩⟩
  case error.error => exact run
  all_goals exact run.elim

/-- A rule for all states. -/
theorem here (h : Mirrors ts noIn most fresh Anywhere p q takes R) :
    Mirrors ts noIn most fresh pre p q takes R :=
  fun b c hb _ => h b c hb trivial

/-- What the kind of the state says. -/
theorem given {d : Prop} (hd : ∀ b, pre b → d)
    (h : d → Mirrors ts noIn most fresh Anywhere p q takes R) :
    Mirrors ts noIn most fresh pre p q takes R :=
  fun b c hb hp => h (hd b hp) b c hb trivial

/-- A rule that has room enough before a token is taken has it behind one, too. -/
theorem behind (h : Mirrors ts noIn most true Anywhere p q takes R) :
    Mirrors ts noIn most fresh pre p q takes R := by
  refine fun b c hb _ hn hl => h b c hb trivial hn (Nat.lt_of_lt_of_le hl ?_)
  exact Nat.add_le_add_left (Bool.toNat_le fresh) most

/-- A rule that always takes a token does so where it has to. -/
theorem last (h : Mirrors ts noIn most fresh pre p q always R) :
    Mirrors ts noIn most fresh pre p q takes R := by
  refine fun b c hb hp hn hl => (h b c hb hp hn hl).imp fun x y b' c' _ hg => ⟨?_, hg.2⟩
  exact Nat.le_trans (Nat.add_le_add_left (Bool.toNat_le (takes x)) _) hg.1

theorem pure {x : α} {y : β} (ht : takes x = false) (h : ∀ s, R x y s s) :
    Mirrors ts noIn most fresh pre (pure y) (pure x) takes R := by
  intro b c hb _ _ _
  refine ⟨.refl hb, ?_, fun _ _ => h _⟩
  rw [ht]
  exact Nat.le_refl _

theorem throw {e : SourceError} (h : e.PointsAt ts) :
    Mirrors ts noIn most fresh pre (throw e) (throw e) takes R :=
  fun _ _ hb _ _ _ => ⟨rfl, h, .refl hb⟩

/-- Two steps. What the second has to give is what is left to give behind the first. -/
theorem bind {f : β → Build δ} {g : α → Read γ}
    (h : Mirrors ts noIn most fresh pre p q takes R)
    (hf : ∀ x y, Mirrors ts noIn most (fresh && !takes x) (fun b => ∃ s, R x y s b.script) (f y)
      (g x) (fun z => !takes x && takes' z) fun z w s₁ s' => ∀ s, R x y s s₁ → R' z w s s') :
    Mirrors ts noIn most fresh pre (p >>= f) (q >>= g) takes' R' := by
  intro b c hb hp hn hl
  refine (h b c hb hp hn hl).bind fun x y b₁ c₁ hm₁ ⟨ht₁, hR₁⟩ => ?_
  have room : b₁.ahead.length < most + (fresh && !takes x).toNat := by
    have := hb.length_ahead
    have := hm₁.beside.length_ahead
    cases fresh <;> cases htx : takes x <;> simp [htx] at ht₁ hl ⊢ <;> omega
  refine (hf x y b₁ c₁ hm₁.beside ⟨_, hR₁ _ (.refl _)⟩ (hm₁.leads.noIn.trans hn) room).imp
    fun z w b' c' hm ⟨ht, hR⟩ => ⟨?_, fun names hw => ?_⟩
  · have := hm₁.leads.position_le
    cases htx : takes x <;> cases htz : takes' z <;> simp [htx, htz] at ht₁ ht ⊢ <;> omega
  · exact hR names hw _ (hR₁ names (hm.leads.names.trans hw))

/-- A step that stores nothing. -/
theorem skip {p : Build α} {f : α → Build δ} {g : α → Read γ}
    (h : Mirrors ts noIn most fresh pre p q takes Same)
    (hf : ∀ x, Mirrors ts noIn most (fresh && !takes x) Anywhere (f x) (g x)
      (fun z => !takes x && takes' z) R') :
    Mirrors ts noIn most fresh pre (p >>= f) (q >>= g) takes' R' := by
  refine h.bind fun x y b c hb ⟨_, hxy⟩ hn hl => ?_
  obtain rfl := hxy.1
  refine (hf x b c hb trivial hn hl).imp fun z w b' c' _ hg => ⟨hg.1, fun names hw s hs => ?_⟩
  exact hs.2 ▸ hg.2 names hw

theorem ite {d : Prop} [Decidable d] {p' : Build β} {q' : Read α}
    (h : d → Mirrors ts noIn most fresh pre p q takes R)
    (h' : ¬ d → Mirrors ts noIn most fresh pre p' q' takes R) :
    Mirrors ts noIn most fresh pre (if d then p else p') (if d then q else q') takes R := by
  split
  · exact h ‹_›
  · exact h' ‹_›

/-- The choice for `in` is the builder's own. -/
theorem asks {f : Bool → Build β} (h : Mirrors ts noIn most fresh pre (f noIn) q takes R) :
    Mirrors ts noIn most fresh pre (do f (← get).noIn) q takes R := by
  intro b c hb hp hn hl
  have run := h b c hb hp hn hl
  rw [← hn] at run
  exact run

/-- A builder that makes a choice for a while. -/
theorem switched {noIn' : Bool} (h : Mirrors ts noIn' most fresh Anywhere p q takes R) :
    Mirrors ts noIn most fresh pre (Build.withNoIn noIn' p) q takes R := by
  intro b c hb _ hn hl
  have hb' : Beside ts { b with noIn := noIn' } c :=
    ⟨hb.tokens, hb.position_le, hb.ahead, hb.finish, hb.names⟩
  have run := h _ c hb' trivial rfl hl
  unfold Build.withNoIn
  have restored : ∀ {b' c'}, Moved ts { b with noIn := noIn' } b' c c' →
      Moved ts b { b' with noIn := b.noIn } c c' := fun hm =>
    ⟨⟨hm.beside.tokens, hm.beside.position_le, hm.beside.ahead, hm.beside.finish,
      hm.beside.names⟩, ⟨hm.leads.position_le, rfl, hm.leads.nodes, hm.leads.names⟩, hm.nodes⟩
  cases hp : p { b with noIn := noIn' } <;> cases hq : q c <;> rw [hp, hq] at run
  case ok.ok => exact ⟨restored run.1, run.2⟩
  case error.error => exact ⟨run.1, run.2.1, restored run.2.2⟩
  all_goals exact run.elim

theorem allowed (h : Mirrors ts false most fresh Anywhere p q takes R) :
    Mirrors ts noIn most fresh pre (Build.allowIn p) q takes R :=
  h.switched

end Mirrors

/-! ## Looking -/

/-- A look at the state, of which both see the same. -/
theorem mirrors_look {x : Builder → α} {y : Cursor → α}
    (h : ∀ b c, Beside ts b c → y c = x b) :
    Mirrors ts noIn most fresh pre (do return x (← get)) (do return y (← get)) never Same :=
  fun b c hb _ _ _ => ⟨.refl hb, Nat.le_refl _, fun _ _ => ⟨h b c hb, rfl⟩⟩

theorem mirrors_lexeme? :
    Mirrors ts noIn most fresh pre Build.lexeme? Read.lexeme? never Same :=
  mirrors_look fun _ _ hb => hb.lexeme?

theorem mirrors_second? :
    Mirrors ts noIn most fresh pre Build.second? Read.second? never Same :=
  mirrors_look fun _ _ hb => hb.second?

theorem mirrors_atEnd : Mirrors ts noIn most fresh pre Build.atEnd Read.atEnd never Same :=
  mirrors_look fun _ _ hb => hb.isEmpty

theorem mirrors_newlineAhead :
    Mirrors ts noIn most fresh pre Build.newlineAhead Read.newlineAhead never Same :=
  mirrors_look fun _ _ hb => hb.newlineAhead

theorem mirrors_isPunct (text : String) :
    Mirrors ts noIn most fresh pre (Build.isPunct text) (Read.isPunct text) never Same :=
  mirrors_lexeme?.skip fun _ => .pure rfl fun _ => ⟨rfl, rfl⟩

theorem mirrors_isWord (text : String) :
    Mirrors ts noIn most fresh pre (Build.isWord text) (Read.isWord text) never Same :=
  mirrors_lexeme?.skip fun _ => .pure rfl fun _ => ⟨rfl, rfl⟩

/-- A choice by the lexeme in front, which is known afterwards. -/
theorem Mirrors.look {f : Option Lexeme → Build δ} {g : Option Lexeme → Read γ}
    (hf : ∀ l, Mirrors ts noIn most fresh (fun b => b.lexeme? = l) (f l) (g l) takes' R') :
    Mirrors ts noIn most fresh pre (Build.lexeme? >>= f) (Read.lexeme? >>= g) takes' R' := by
  intro b c hb _ hn hl
  have run := hf b.lexeme? b c hb rfl hn hl
  nth_rewrite 2 [← hb.lexeme?] at run
  exact run

/-- A choice by the tokens ahead. -/
theorem Mirrors.ifAhead {test : List Token → Bool} {f f' : Build δ} {g g' : Read γ}
    (yes : Mirrors ts noIn most fresh pre f g takes' R')
    (no : Mirrors ts noIn most fresh pre f' g' takes' R') :
    Mirrors ts noIn most fresh pre (do if test (← get).ahead then f else f')
      (do if test (← get).ahead then g else g') takes' R' := by
  intro b c hb hp hn hl
  change Outcome ts b c _ ((if test b.ahead = true then f else f') b)
    ((if test c.ahead = true then g else g') c)
  rw [hb.ahead]
  exact Mirrors.ite (fun _ => yes) (fun _ => no) b c hb hp hn hl

/-! ## Refusing -/

theorem mirrors_refuseAt {spot : Spot} (h : spot ∈ ts.spots) (expected : Expectation) :
    Mirrors ts noIn most fresh pre (Build.refuseAt spot expected) (Read.refuseAt spot expected)
      takes R :=
  .throw h

theorem mirrors_refuse (expected : Expectation) :
    Mirrors ts noIn most fresh pre (Build.refuse expected) (Read.refuse expected) takes R := by
  intro b c hb hp hn hl
  have h : Mirrors ts noIn most fresh pre (Build.refuseAt b.spot expected)
      (Read.refuseAt c.spot expected) takes R := by
    rw [hb.spot]
    exact mirrors_refuseAt hb.spot_mem expected
  exact h b c hb hp hn hl

theorem mirrors_unsupported (what : Feature) :
    Mirrors ts noIn most fresh pre (Build.unsupported what) (Read.unsupported what) takes R := by
  intro b c hb hp hn hl
  have h : Mirrors ts noIn most fresh pre (throw (.unsupported what b.spot.place) : Build β)
      (throw (.unsupported what c.spot.place) : Read α) takes R := by
    rw [hb.spot]
    exact .throw ⟨_, hb.spot_mem⟩
  exact h b c hb hp hn hl

namespace Mirrors

/-- What is behind a refusal is not reached. -/
theorem unreached {f : β → Build δ} {g : α → Read γ}
    (h : Mirrors ts noIn most fresh pre p q never fun _ _ _ _ => False) :
    Mirrors ts noIn most fresh pre (p >>= f) (q >>= g) takes' R' :=
  h.bind fun _ _ _ _ _ ⟨_, hF⟩ => hF.elim

/-- A construct that is refused where a test holds. -/
theorem guard {d : Prop} [Decidable d] {what : Feature} {f : Unit → Build β} {g : Unit → Read α}
    (h : Mirrors ts noIn most fresh pre (f ()) (g ()) takes R) :
    Mirrors ts noIn most fresh pre (if d then Build.unsupported what >>= f else f ())
      (if d then Read.unsupported what >>= g else g ()) takes R :=
  .ite (fun _ => (mirrors_unsupported what).unreached) fun _ => h

/-- A state that is refused where a test holds. -/
theorem check {d : Prop} [Decidable d] {expected : Expectation} {f : Unit → Build β}
    {g : Unit → Read α} (h : ¬ d → Mirrors ts noIn most fresh pre (f ()) (g ()) takes R) :
    Mirrors ts noIn most fresh pre (if d then Build.refuse expected >>= f else f ())
      (if d then Read.refuse expected >>= g else g ()) takes R :=
  .ite (fun _ => (mirrors_refuse expected).unreached) h

end Mirrors

/-! ## Taking -/

theorem found_spot (b : Builder) : b.spot.found = b.lexeme? := by
  rw [Builder.spot, Builder.lexeme?]
  cases b.peek? 0 <;> rfl

/-- What stood in front, if something did, has been taken. -/
theorem mirrors_next :
    Mirrors ts noIn most fresh pre Build.next Read.next (fun spot => spot.found.isSome)
      fun x y s s' => Same x y s s' ∧ x ∈ ts.spots := by
  intro b c hb _ _ _
  refine ⟨⟨hb.advance, b.leads_advance, rfl⟩, ?_, fun names _ => ⟨⟨hb.spot, ?_⟩, ?_⟩⟩
  · change b.position + c.spot.found.isSome.toNat ≤ _
    rw [hb.spot, found_spot]
    cases hl : b.lexeme? with
    | none => exact b.leads_advance.position_le
    | some l => exact Nat.le_of_eq (Builder.position_advance (by simp [hl])).symm
  · rw [b.script_advance]
  · exact hb.spot ▸ hb.spot_mem

theorem mirrors_discard_next :
    Mirrors ts noIn most fresh pre (discard Build.next) (discard Read.next) never Same := by
  intro b c hb _ _ _
  refine ⟨⟨hb.advance, b.leads_advance, rfl⟩, b.leads_advance.position_le, fun names _ => ?_⟩
  exact ⟨rfl, by rw [b.script_advance]⟩

/-- A lexeme that is in front is taken. -/
theorem mirrors_discard_front (l : Lexeme) :
    Mirrors ts noIn most fresh (fun b => b.lexeme? = some l) (discard Build.next)
      (discard Read.next) always Same := by
  intro b c hb hfront _ _
  refine ⟨⟨hb.advance, b.leads_advance, rfl⟩, ?_, fun names _ => ⟨rfl, by rw [b.script_advance]⟩⟩
  exact Nat.le_of_eq (Builder.position_advance (by simp [hfront])).symm

namespace Mirrors

theorem take {f : Spot → Build δ} {g : Spot → Read γ}
    (hf : ∀ spot ∈ ts.spots, Mirrors ts noIn most (fresh && !spot.found.isSome) Anywhere (f spot)
      (g spot) (fun z => !spot.found.isSome && takes' z) R') :
    Mirrors ts noIn most fresh pre (Build.next >>= f) (Read.next >>= g) takes' R' := by
  refine mirrors_next.bind fun x y b c hb ⟨_, hxy, hx⟩ hn hl => ?_
  obtain rfl := hxy.1
  refine (hf x hx b c hb trivial hn hl).imp fun z w b' c' _ hg => ⟨hg.1, fun names hw s hs => ?_⟩
  exact hs.1.2 ▸ hg.2 names hw

/-- A lexeme that is in front is taken. -/
theorem takeFront {l : Lexeme} {f : Unit → Build δ} {g : Unit → Read γ}
    (h : Mirrors ts noIn most false Anywhere (f ()) (g ()) never R') :
    Mirrors ts noIn most fresh (fun b => b.lexeme? = some l) (discard Build.next >>= f)
      (discard Read.next >>= g) takes' R' := by
  cases fresh <;> exact (mirrors_discard_front l).skip fun _ => h

end Mirrors

/-- A test that is followed by a step if it succeeds. -/
theorem eat_apply {σ : Type} {test : EStateM SourceError σ Bool} {move : EStateM SourceError σ α}
    {s s' : σ} {found : Bool} {a : α} (ht : test s = .ok found s) (hm : move s = .ok a s') :
    (do
      let found ← test
      if found then discard move
      return found : EStateM SourceError σ Bool) s = .ok found (if found then s' else s) := by
  change EStateM.bind test _ s = _
  rw [EStateM.bind, ht]
  cases found with
  | false => rfl
  | true =>
    change EStateM.bind (EStateM.map _ move) _ s = _
    rw [EStateM.bind, EStateM.map, hm]
    rfl

/-- A lexeme is taken if it is in front. -/
theorem mirrors_eat {l : Lexeme} {p : Build Bool} {q : Read Bool}
    (hp : ∀ b, p b = .ok (b.lexeme? == some l) (if b.lexeme? == some l then b.advance else b))
    (hq : ∀ c, q c = .ok (c.lexeme? == some l)
      (if c.lexeme? == some l then { c with ahead := c.ahead.tail } else c)) :
    Mirrors ts noIn most fresh pre p q id Same := by
  intro b c hb _ hn hl
  rw [hp, hq, hb.lexeme?]
  by_cases hfront : b.lexeme? = some l
  · have taken : Mirrors ts noIn most fresh _ _ _ always Same := mirrors_discard_front l
    have run := taken b c hb hfront hn hl
    rw [hfront, beq_self_eq_true, if_pos rfl, if_pos rfl]
    exact ⟨run.1, run.2.1, fun names hw => ⟨rfl, (run.2.2 names hw).2⟩⟩
  · have hne : (b.lexeme? == some l) = false := by simpa using hfront
    rw [hne, if_neg Bool.false_ne_true, if_neg Bool.false_ne_true]
    exact ⟨.refl hb, Nat.le_refl _, fun _ _ => ⟨rfl, rfl⟩⟩

theorem mirrors_eatPunct (text : String) :
    Mirrors ts noIn most fresh pre (Build.eatPunct text) (Read.eatPunct text) id Same :=
  mirrors_eat (fun _ => eat_apply rfl rfl) fun _ => eat_apply rfl rfl

theorem mirrors_eatWord (text : String) :
    Mirrors ts noIn most fresh pre (Build.eatWord text) (Read.eatWord text) id Same :=
  mirrors_eat (fun _ => eat_apply rfl rfl) fun _ => eat_apply rfl rfl

/-- A choice by whether a token was taken. -/
theorem Mirrors.eaten {p : Build Bool} {q : Read Bool} {f f' : Build δ} {g g' : Read γ}
    (h : Mirrors ts noIn most fresh pre p q id Same)
    (yes : Mirrors ts noIn most false Anywhere f g never R')
    (no : Mirrors ts noIn most fresh Anywhere f' g' takes' R') :
    Mirrors ts noIn most fresh pre (p >>= fun found => if found = true then f else f')
      (q >>= fun found => if found = true then g else g') takes' R' := by
  refine h.skip fun found => ?_
  cases found
  · cases fresh <;> exact no
  · cases fresh <;> exact yes

theorem mirrors_expectPunct (text : String) :
    Mirrors ts noIn most fresh pre (Build.expectPunct text) (Read.expectPunct text) always Same :=
  (mirrors_eatPunct text).eaten (.pure rfl fun _ => ⟨rfl, rfl⟩) (mirrors_refuse _)

theorem mirrors_expectWord (text : String) :
    Mirrors ts noIn most fresh pre (Build.expectWord text) (Read.expectWord text) always Same :=
  (mirrors_eatWord text).eaten (.pure rfl fun _ => ⟨rfl, rfl⟩) (mirrors_refuse _)

/-! ## Writing -/

/-- A name gets a symbol that stays. -/
theorem mirrors_mention (name : String) :
    Mirrors ts noIn most fresh pre (Build.intern name) (Read.mention name) never
      fun _ => Via Script.intern name := by
  intro b c hb _ _ _
  refine ⟨⟨⟨hb.tokens, hb.position_le, hb.ahead, hb.finish, ?_⟩,
    ⟨Nat.le_refl _, rfl, List.prefix_refl _, Names.within_intern _ _⟩, rfl⟩, Nat.le_refl _,
    fun names hw => ?_⟩
  · change (c.script.names.intern name).2 = (b.script.names.intern name).2
    rw [hb.names]
  · exact Script.intern_of_lookup (hw.lookup (Names.lookup_intern b.script.names name))

/-- A node is stored that a plan asks for. -/
theorem mirrors_store {node : Node NodeId Sym} {x : α} {R : α → NodeId → Script → Script → Prop}
    (ht : takes x = false) (h : ∀ s, R x (Script.alloc node s).1 s (Script.alloc node s).2) :
    Mirrors ts noIn most fresh pre (Build.store node) (pure x) takes R := by
  intro b c hb _ _ _
  refine ⟨⟨⟨hb.tokens, hb.position_le, hb.ahead, hb.finish, hb.names⟩,
    ⟨Nat.le_refl _, rfl, ?_, .refl _⟩, rfl⟩, ?_, fun names _ => h ⟨b.script.nodes, names⟩⟩
  · change _ <+: (b.script.nodes.push node).toList
    rw [Array.toList_push]
    exact List.prefix_append _ _
  · rw [ht]
    exact Nat.le_refl _

/-- A name is the result. -/
theorem mirrors_intern (name : String) {takes : String → Bool} (ht : takes name = false) :
    Mirrors ts noIn most fresh pre (Build.intern name) (do Read.mention name; return name) takes
      (Via Script.intern) := by
  rw [← bind_pure (Build.intern name)]
  exact (mirrors_mention name).bind fun _ y => .pure (by simp [ht]) fun _ _ hy => hy

/-- A node is stored before more is read. -/
theorem Mirrors.stored {node : Node NodeId Sym} {f : NodeId → Build δ} {g : Read γ}
    (hf : ∀ id, Mirrors ts noIn most fresh Anywhere (f id) g takes' fun z w s₁ s' =>
      ∀ s, Script.alloc node s = (id, s₁) → R' z w s s') :
    Mirrors ts noIn most fresh pre (Build.store node >>= f) g takes' R' := by
  have first : Mirrors ts noIn most fresh pre (Build.store node) (Pure.pure ()) never
      fun _ id s s' => Script.alloc node s = (id, s') := mirrors_store rfl fun _ => rfl
  have all : Mirrors ts noIn most fresh pre (Build.store node >>= f) (Pure.pure () >>= fun _ => g)
      takes' R' := first.bind fun _ id => by
    cases fresh <;> exact (hf id).here
  rwa [pure_bind] at all

/-! ## Plans -/

section Plans

variable {σ : Type}

theorem run_bind (m : StateM σ α) (f : α → StateM σ β) (s : σ) :
    (m >>= f) s = f (m s).1 (m s).2 := rfl

theorem run_pure (a : α) (s : σ) : (pure a : StateM σ α) s = (a, s) := rfl

theorem run_map (m : StateM σ α) (f : α → β) (s : σ) :
    (f <$> m) s = (f (m s).1, (m s).2) := rfl

variable {plan : α → StateM Script β} {x : α} {y : β} {xs : List α} {ys : List β}
  {s s' s₁ : Script}

theorem via_nil : Via (List.mapM plan) [] [] s s := by
  rw [Via, List.mapM_nil]
  rfl

theorem via_cons (h : Via plan x y s s₁) (h' : Via (List.mapM plan) xs ys s₁ s') :
    Via (List.mapM plan) (x :: xs) (y :: ys) s s' := by
  rw [Via] at h h' ⊢
  rw [List.mapM_cons, run_bind, h, run_bind, h']
  rfl

theorem nil_of_via (h : Via (List.mapM plan) [] ys s s') : ys = [] ∧ s' = s := by
  rw [Via, List.mapM_nil] at h
  cases h
  exact ⟨rfl, rfl⟩

theorem exists_of_via_cons (h : Via (List.mapM plan) (x :: xs) ys s s') :
    ∃ y zs s₁, ys = y :: zs ∧ Via plan x y s s₁ ∧ Via (List.mapM plan) xs zs s₁ s' := by
  rw [Via, List.mapM_cons, run_bind, run_bind] at h
  cases h
  exact ⟨_, _, (plan x s).2, rfl, rfl, rfl⟩

/-- What is planted one by one is as many. -/
theorem length_of_via (h : Via (List.mapM plan) xs ys s s') : ys.length = xs.length := by
  induction xs generalizing ys s with
  | nil =>
    obtain ⟨rfl, -⟩ := nil_of_via h
    rfl
  | cons x xs ih =>
    obtain ⟨y, zs, s₁, rfl, -, h⟩ := exists_of_via_cons h
    exact congrArg (· + 1) (ih h)

/-- A result that may be missing, on both sides; then nothing is stored. -/
inductive Optional (R : α → β → Script → Script → Prop) :
    Option α → Option β → Script → Script → Prop
  | missing (s : Script) : Optional R none none s s
  | found {x : α} {y : β} {s s' : Script} : R x y s s' → Optional R (some x) (some y) s s'

theorem Optional.isSome_eq {R : α → β → Script → Script → Prop} {o : Option α} {o' : Option β}
    (h : Optional R o o' s s') : o.isSome = o'.isSome := by
  cases h <;> rfl

theorem Optional.via {o : Option α} {o' : Option β} (h : Optional (Via plan) o o' s s') :
    Via (Option.mapM plan) o o' s s' := by
  cases h with
  | missing => rfl
  | found h =>
    rw [Via] at h
    change (some <$> plan _) s = _
    rw [run_map, h]

/-- A tree is planted. -/
abbrev Plants : Reading → NodeId → Script → Script → Prop :=
  Via Script.plant

/-- A node is stored behind its parts. -/
theorem plants_stored {node : Node Reading String} {made : Node NodeId Sym} {id : NodeId}
    (h : node.traverse Script.plant Script.intern s = (made, s₁))
    (hs : Script.alloc made s₁ = (id, s')) : Plants (Reading.of node) id s s' := by
  rw [Plants, Via, Reading.of, Script.plant_mk, run_bind, h]
  exact hs

theorem plants_of {node : Node Reading String} {made : Node NodeId Sym}
    (h : node.traverse Script.plant Script.intern s = (made, s₁)) :
    Plants (Reading.of node) (Script.alloc made s₁).1 s (Script.alloc made s₁).2 :=
  plants_stored h rfl

end Plans

namespace Mirrors

/-- A step with a result that may be missing. -/
theorem bind_found {p : Build (Option β)} {q : Read (Option α)} {f : Option β → Build δ}
    {g : Option α → Read γ} {takes : Option α → Bool}
    (h : Mirrors ts noIn most fresh pre p q takes (Optional R))
    (missing : Mirrors ts noIn most (fresh && !takes none) Anywhere (f none) (g none)
      (fun z => !takes none && takes' z) R')
    (found : ∀ x y, Mirrors ts noIn most (fresh && !takes (some x)) Anywhere (f (some y))
      (g (some x)) (fun z => !takes (some x) && takes' z)
      fun z w s₁ s' => ∀ s, R x y s s₁ → R' z w s s') :
    Mirrors ts noIn most fresh pre (p >>= f) (q >>= g) takes' R' := by
  refine h.bind fun o o' b c hb ⟨_, ho⟩ hn hl => ?_
  cases ho with
  | missing =>
    refine (missing b c hb trivial hn hl).imp fun z w b' c' _ hg => ⟨hg.1, fun names hw s hs => ?_⟩
    cases hs
    exact hg.2 names hw
  | found =>
    refine (found _ _ b c hb trivial hn hl).imp fun z w b' c' _ hg =>
      ⟨hg.1, fun names hw s hs => ?_⟩
    cases hs with
    | found hs => exact hg.2 names hw s hs

/-- A part that may be missing is there. -/
theorem present {f : Option β → Build δ} {g : Option α → Read γ}
    (rest : ∀ o o', o.isSome = o'.isSome → Mirrors ts noIn most false Anywhere (f o') (g o) never
      fun z w s₁ s' => ∀ s, Optional R o o' s s₁ → R' z w s s')
    (h : Mirrors ts noIn most false pre p q always R) :
    Mirrors ts noIn most false pre (some <$> p >>= f) (some <$> q >>= g) never R' := by
  rw [bind_map_left, bind_map_left]
  refine h.bind fun x y => ((rest (some x) (some y) rfl).imp fun z w s₁ s' hR s hs => ?_).here
  exact hR s (.found hs)

/-- A part that may be missing is so. -/
theorem absent {f : Option β → Build δ} {g : Option α → Read γ}
    (rest : ∀ o o', o.isSome = o'.isSome → Mirrors ts noIn most false Anywhere (f o') (g o) never
      fun z w s₁ s' => ∀ s, Optional R o o' s s₁ → R' z w s s') :
    Mirrors ts noIn most false pre (Pure.pure none >>= f) (Pure.pure none >>= g) never R' := by
  rw [pure_bind, pure_bind]
  exact ((rest none none rfl).imp fun z w s₁ s' hR => hR s₁ (.missing s₁)).here

end Mirrors

/-! ## Repeating -/

section Repeating

variable {plan : α → StateM Script β}

namespace Mirrors

/-- A rule that has room has it under a tighter bound. -/
theorem tighten {most' : Nat} (h : Mirrors ts noIn most false pre p q takes R)
    (hle : most' + fresh.toNat ≤ most) : Mirrors ts noIn most' fresh pre p q takes R :=
  fun b c hb hp hn hl => h b c hb hp hn (Nat.lt_of_lt_of_le hl hle)

/-- Nothing is asked where there is no room. -/
theorem of_zero : Mirrors ts noIn 0 false pre p q takes R :=
  fun _ _ _ _ _ hl => absurd hl (Nat.not_lt_zero _)

/-- Rules that repeat once more than there are tokens ahead: each round but the last is behind a
token that was taken. -/
theorem rounds {ι : Type} (f : ι → Nat → Build β) (g : ι → Nat → Read α)
    (R : ι → α → β → Script → Script → Prop)
    (step : ∀ rounds n, n < most →
      (∀ i, Mirrors ts noIn n false Anywhere (f i rounds) (g i rounds) never (R i)) →
      ∀ i, Mirrors ts noIn n true Anywhere (f i (rounds + 1)) (g i (rounds + 1)) never (R i))
    (i : ι) :
    Mirrors ts noIn most false pre (do f i ((← get).ahead.length + 1))
      (do g i ((← get).ahead.length + 1)) never (R i) := by
  have all : ∀ rounds n, n ≤ rounds → n ≤ most →
      ∀ i, Mirrors ts noIn n false Anywhere (f i rounds) (g i rounds) never (R i) := by
    intro rounds
    induction rounds with
    | zero =>
      intro n hn _ i
      obtain rfl := Nat.le_zero.1 hn
      exact .of_zero
    | succ rounds ih =>
      intro n hn hm
      cases n with
      | zero => exact fun _ => .of_zero
      | succ n => exact step rounds n hm (ih n (Nat.le_of_succ_le_succ hn) (Nat.le_of_succ_le hm))
  intro b c hb _ hn hl
  have run := all (b.ahead.length + 1) (b.ahead.length + 1) (Nat.le_refl _) hl i b c hb trivial hn
    (Nat.lt_succ_self _)
  have same : b.ahead.length + 1 = c.ahead.length + 1 := by rw [hb.ahead]
  change Outcome ts b c _ (f i (b.ahead.length + 1) b) (g i (c.ahead.length + 1) c)
  rwa [← same]

end Mirrors

/-- Rounds that take a token whenever they give something. -/
theorem mirrors_many {round' : Build (Option β)} {round : Read (Option α)}
    (h : Mirrors ts noIn most false Anywhere round' round Option.isSome (Optional (Via plan))) :
    Mirrors ts noIn most false pre (Build.many round') (Read.many round) never
      (Via (List.mapM plan)) := by
  refine .rounds (fun _ : Unit => Build.manyWithin round') (fun _ => Read.manyWithin round)
    (fun _ => Via (List.mapM plan)) (fun rounds n hn rest _ => ?_) ()
  have first : Mirrors ts noIn n true Anywhere round' round Option.isSome (Optional (Via plan)) :=
    h.tighten hn
  refine first.bind_found (.pure rfl fun _ => via_nil) fun x y => ?_
  exact (rest ()).bind fun xs ys => .pure rfl fun s _ hxs _ hx => via_cons hx hxs

/-- Items between commas, each of which takes a token. -/
theorem mirrors_commaList {close : String} {item' : Build β} {item : Read α}
    (h : Mirrors ts noIn most false Anywhere item' item always (Via plan)) :
    Mirrors ts noIn most false pre (Build.commaList close item') (Read.commaList close item) never
      (Via (List.mapM plan)) := by
  refine .rounds (fun _ : Unit => Build.commaListWithin close item')
    (fun _ => Read.commaListWithin close item) (fun _ => Via (List.mapM plan))
    (fun rounds n hn rest _ => ?_) ()
  have first : Mirrors ts noIn n true Anywhere item' item always (Via plan) := h.tighten hn
  refine (mirrors_isPunct close).skip fun _ =>
    .ite (fun _ => .pure rfl fun _ => via_nil) fun _ => ?_
  refine first.bind fun x y => (mirrors_eatPunct ",").eaten ?_ ?_
  · exact (rest ()).bind fun xs ys => .pure rfl fun s _ hxs _ hx => via_cons hx hxs
  · exact .pure rfl fun s _ hx => via_cons hx via_nil

/-- What a tree has become that was planted before: another tree that is planted at its place. -/
def Becomes (x : Reading) (y : NodeId) (u : Reading) (w : NodeId) (s₁ s' : Script) : Prop :=
  ∀ s, Plants x y s s₁ → Plants u w s s'

/-- A result grows in rounds that take a token whenever they give something. -/
theorem mirrors_grow {round' : NodeId → Build (Option NodeId)}
    {round : Reading → Read (Option Reading)}
    (h : ∀ x y, Mirrors ts noIn most false Anywhere (round' y) (round x) Option.isSome
      (Optional (Becomes x y))) (x : Reading) (y : NodeId) :
    Mirrors ts noIn most false pre (Build.grow round' y) (Read.grow round x) never
      (Becomes x y) := by
  refine .rounds (fun i rounds => Build.growWithin round' rounds i.2)
    (fun i rounds => Read.growWithin round rounds i.1) (fun i : Reading × NodeId => Becomes i.1 i.2)
    (fun rounds n hn rest i => ?_) (x, y)
  have first : Mirrors ts noIn n true Anywhere (round' i.2) (round i.1) Option.isSome
      (Optional (Becomes i.1 i.2)) := (h i.1 i.2).tighten hn
  refine first.bind_found (.pure rfl fun _ _ hs => hs) fun u w => ?_
  exact (rest (u, w)).imp fun _ _ _ _ hs _ hu s hx => hs s (hu s hx)

end Repeating

end Graft
