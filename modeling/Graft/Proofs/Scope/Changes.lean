import Graft.Proofs.Chance.Choice
import Mathlib.Data.List.Basic
import Mathlib.Data.List.Induction

/-!
# What changes of a scope add up to

A scope keeps one local layer, which is saved when a function is entered and put back when one is
left. Functions may be left that were never entered. Whatever the order of the changes, the layers
say what they should: a name is visible if it was declared outside of every function, if it was
declared where a function that is still open was the innermost one, or if it was borrowed and the
borrowed names have not been forgotten since.

* `Scope.leaves`, `Scope.openAfter` - the functions that a list of changes enters and does not leave
* `Scope.openAfter_append` - what more changes leave and enter
* `Scope.mem_openFrom_iff` - an open function is one that nothing later leaves
* `Scope.Accounts` - how the layers of a scope belong to the changes behind it
* `Scope.accounts_afterChanges` - they belong so behind any changes
* `Scope.visible_afterChanges` - what is visible, and what is reported of the functions
-/

namespace Graft

open Chance (Stream)

namespace Scope

/-- A change of what is visible. -/
inductive Change where
  | declare (names : List Sym)
  | borrow (names : List Sym)
  | clearBorrowed
  | enter (identity : FunctionIdentity)
  | exit
deriving Repr, DecidableEq

/-- The scope behind one change. -/
def change (scope : Scope) : Change → Scope
  | .declare names => scope.declare names
  | .borrow names => scope.borrow names
  | .clearBorrowed => scope.clearBorrowed
  | .enter identity => scope.enterFunction identity
  | .exit => scope.exitFunction

/-- The scope behind changes that begin where nothing is visible. -/
def afterChanges (changes : List Change) : Scope :=
  changes.foldl change empty

/-! ## Open functions -/

/-- A function that was entered: how many changes came before that, and what is known of it. -/
structure Entrance where
  rank : Nat
  identity : FunctionIdentity
deriving Repr, DecidableEq

/-- How many functions changes leave that they have not entered themselves. -/
def leaves : List Change → Nat
  | [] => 0
  | .enter _ :: rest => leaves rest - 1
  | .exit :: rest => leaves rest + 1
  | _ :: rest => leaves rest

/-- The functions that changes enter and do not leave, outermost first, where the first change has
a given rank. -/
def openFrom (rank : Nat) : List Change → List Entrance
  | [] => []
  | .enter identity :: rest =>
    if leaves rest = 0 then ⟨rank, identity⟩ :: openFrom (rank + 1) rest
    else openFrom (rank + 1) rest
  | _ :: rest => openFrom (rank + 1) rest

/-- The functions that are open behind changes, outermost first. -/
def openAfter (changes : List Change) : List Entrance :=
  openFrom 0 changes

/-- More changes leave what the first ones have not entered only when all those are left. -/
theorem leaves_append (rank : Nat) (front back : List Change) :
    leaves (front ++ back) = leaves front + (leaves back - (openFrom rank front).length) := by
  induction front generalizing rank with
  | nil => simp [leaves, openFrom]
  | cons c front ih =>
    have rest := ih (rank + 1)
    cases c with
    | enter identity =>
      simp only [List.cons_append, leaves, openFrom]
      split
      · rw [List.length_cons]
        omega
      · omega
    | _ =>
      simp only [List.cons_append, leaves, openFrom]
      omega

/-- More changes leave the innermost functions, and enter others. -/
theorem openFrom_append (rank : Nat) (front back : List Change) :
    openFrom rank (front ++ back) =
      (openFrom rank front).take ((openFrom rank front).length - leaves back) ++
        openFrom (rank + front.length) back := by
  induction front generalizing rank with
  | nil => simp [openFrom]
  | cons c front ih =>
    have rest := ih (rank + 1)
    have count := leaves_append (rank + 1) front back
    have place : rank + 1 + front.length = rank + (c :: front).length := by
      rw [List.length_cons]
      omega
    rw [place] at rest
    cases c with
    | enter identity =>
      simp only [List.cons_append, openFrom]
      by_cases kept : leaves front = 0
      · rw [if_pos kept, List.length_cons]
        by_cases few : leaves back ≤ (openFrom (rank + 1) front).length
        · rw [if_pos (by omega), rest, Nat.succ_sub few, List.take_succ_cons, List.cons_append]
        · rw [if_neg (by omega), rest, Nat.sub_eq_zero_of_le (by omega),
            Nat.sub_eq_zero_of_le (by omega), List.take_zero, List.take_zero]
      · rw [if_neg kept, if_neg (by omega), rest]
    | _ => exact rest

theorem openAfter_append (front back : List Change) :
    openAfter (front ++ back) =
      (openAfter front).take ((openAfter front).length - leaves back) ++
        openFrom front.length back := by
  unfold openAfter
  rw [openFrom_append, Nat.zero_add]

/-- A function that is entered is the innermost one. -/
theorem openAfter_enter (changes : List Change) (identity : FunctionIdentity) :
    openAfter (changes ++ [.enter identity]) =
      openAfter changes ++ [⟨changes.length, identity⟩] := by
  simp [openAfter_append, leaves, openFrom]

/-- The innermost function is left, if there is one. -/
theorem openAfter_exit (changes : List Change) :
    openAfter (changes ++ [.exit]) = (openAfter changes).dropLast := by
  simp [openAfter_append, leaves, openFrom, List.dropLast_eq_take]

/-- Other changes leave the functions alone. -/
theorem openAfter_other (changes : List Change) {c : Change} (enters : ∀ f, c ≠ .enter f)
    (exits : c ≠ .exit) : openAfter (changes ++ [c]) = openAfter changes := by
  cases c with
  | enter f => exact absurd rfl (enters f)
  | exit => exact absurd rfl exits
  | _ => simp [openAfter_append, leaves, openFrom]

/-- A function is open if it was entered at its rank and nothing that follows leaves it. -/
theorem mem_openFrom_iff {changes : List Change} {e : Entrance} {rank : Nat} :
    e ∈ openFrom rank changes ↔ ∃ front back, changes = front ++ .enter e.identity :: back ∧
      e.rank = rank + front.length ∧ leaves back = 0 := by
  induction changes generalizing rank with
  | nil => simp [openFrom]
  | cons c changes ih =>
    have place : (∃ front back, c :: changes = front ++ .enter e.identity :: back ∧
        e.rank = rank + front.length ∧ leaves back = 0) ↔
        (c = .enter e.identity ∧ e.rank = rank ∧ leaves changes = 0) ∨
          e ∈ openFrom (rank + 1) changes := by
      rw [ih]
      constructor
      · rintro ⟨_ | ⟨d, front⟩, back, he, hr, hl⟩
        · obtain ⟨rfl, rfl⟩ := List.cons_eq_cons.1 he
          exact .inl ⟨rfl, hr, hl⟩
        · obtain ⟨rfl, rfl⟩ := List.cons_eq_cons.1 he
          rw [List.length_cons] at hr
          exact .inr ⟨front, back, rfl, by omega, hl⟩
      · rintro (⟨rfl, hr, hl⟩ | ⟨front, back, rfl, hr, hl⟩)
        · exact ⟨[], changes, rfl, hr, hl⟩
        · exact ⟨c :: front, back, rfl, by rw [List.length_cons]; omega, hl⟩
    rw [place]
    cases c with
    | enter identity =>
      obtain ⟨r, f⟩ := e
      by_cases kept : leaves changes = 0
      · simp [openFrom, kept, and_comm, eq_comm]
      · simp [openFrom, kept]
    | _ => simp [openFrom]

/-- The ranks of open functions are among those of the changes. -/
theorem rank_lt_of_mem {changes : List Change} {e : Entrance} {rank : Nat}
    (h : e ∈ openFrom rank changes) : rank ≤ e.rank ∧ e.rank < rank + changes.length := by
  obtain ⟨front, back, rfl, hr, -⟩ := mem_openFrom_iff.1 h
  simp only [List.length_append, List.length_cons]
  omega

/-- No function is open twice. -/
theorem nodup_openFrom (rank : Nat) (changes : List Change) : (openFrom rank changes).Nodup := by
  induction changes generalizing rank with
  | nil => exact List.nodup_nil
  | cons c changes ih =>
    cases c with
    | enter identity =>
      rw [openFrom]
      split
      · refine List.nodup_cons.2 ⟨fun h => ?_, ih _⟩
        exact absurd (rank_lt_of_mem h).1 (Nat.not_succ_le_self rank)
      · exact ih _
    | _ => exact ih _

/-! ## Declared and borrowed names -/

/-- A name was declared when a given function was the innermost open one, or when none was. -/
def DeclaredWhile (changes : List Change) (innermost : Option Entrance) (x : Sym) : Prop :=
  ∃ front names back, changes = front ++ .declare names :: back ∧ x ∈ names ∧
    (openAfter front).getLast? = innermost

/-- A name was borrowed, and the borrowed names have not been forgotten since. -/
def BorrowedSince (changes : List Change) (x : Sym) : Prop :=
  ∃ front names back, changes = front ++ .borrow names :: back ∧ x ∈ names ∧
    .clearBorrowed ∉ back

/-- A place in a list with one more member is the new one or a place in the list. -/
theorem append_cons_eq_concat {α : Type} {xs front back : List α} {a last : α} :
    xs ++ [last] = front ++ a :: back ↔
      (xs = front ∧ last = a ∧ back = []) ∨
        ∃ rest, back = rest ++ [last] ∧ xs = front ++ a :: rest := by
  constructor
  · intro h
    rcases List.eq_nil_or_concat back with rfl | ⟨rest, b, rfl⟩
    · have ⟨hx, ha⟩ := List.append_inj' h rfl
      exact .inl ⟨hx, List.singleton_inj.1 ha, rfl⟩
    · rw [List.concat_eq_append, ← List.cons_append, ← List.append_assoc] at h
      have ⟨hx, hb⟩ := List.append_inj' h rfl
      obtain rfl := List.singleton_inj.1 hb
      exact .inr ⟨rest, List.concat_eq_append, hx⟩
  · rintro (⟨rfl, rfl, rfl⟩ | ⟨rest, rfl, rfl⟩)
    · rfl
    · simp

theorem declaredWhile_append {changes : List Change} {c : Change} {innermost : Option Entrance}
    {x : Sym} : DeclaredWhile (changes ++ [c]) innermost x ↔ DeclaredWhile changes innermost x ∨
      ∃ names, c = .declare names ∧ x ∈ names ∧ (openAfter changes).getLast? = innermost := by
  constructor
  · rintro ⟨front, names, back, he, rest⟩
    rcases append_cons_eq_concat.1 he with ⟨rfl, rfl, rfl⟩ | ⟨back, rfl, rfl⟩
    · exact .inr ⟨names, rfl, rest⟩
    · exact .inl ⟨front, names, back, rfl, rest⟩
  · rintro (⟨front, names, back, rfl, rest⟩ | ⟨names, rfl, rest⟩)
    · exact ⟨front, names, back ++ [c], by simp, rest⟩
    · exact ⟨changes, names, [], rfl, rest⟩

theorem borrowedSince_append {changes : List Change} {c : Change} {x : Sym} :
    BorrowedSince (changes ++ [c]) x ↔ (BorrowedSince changes x ∧ c ≠ .clearBorrowed) ∨
      ∃ names, c = .borrow names ∧ x ∈ names := by
  constructor
  · rintro ⟨front, names, back, he, hx, kept⟩
    rcases append_cons_eq_concat.1 he with ⟨rfl, rfl, rfl⟩ | ⟨back, rfl, rfl⟩
    · exact .inr ⟨names, rfl, hx⟩
    · rw [List.mem_append, List.mem_singleton, not_or] at kept
      exact .inl ⟨⟨front, names, back, rfl, hx, kept.1⟩, Ne.symm kept.2⟩
  · rintro (⟨⟨front, names, back, rfl, hx, kept⟩, hc⟩ | ⟨names, rfl, hx⟩)
    · refine ⟨front, names, back ++ [c], by simp, hx, ?_⟩
      rw [List.mem_append, List.mem_singleton, not_or]
      exact ⟨kept, Ne.symm hc⟩
    · exact ⟨changes, names, [], rfl, hx, List.not_mem_nil⟩

/-- Nothing was declared in a function that is only now entered. -/
theorem DeclaredWhile.rank_lt {changes : List Change} {e : Entrance} {x : Sym}
    (h : DeclaredWhile changes (some e) x) : e.rank < changes.length := by
  obtain ⟨front, names, back, rfl, -, last⟩ := h
  have bound := (rank_lt_of_mem (List.mem_of_getLast? last)).2
  simp only [List.length_append]
  omega

/-! ## Layers -/

/-- The local layer and the saved ones belong to open functions, innermost first: each has the names
of the layer around it and those that were declared in its own function, and outside of all
functions it is empty. -/
inductive Nested (changes : List Change) : List Sym → List (List Sym) → List Entrance → Prop where
  | outside : Nested changes [] [] []
  | inside {layer outer : List Sym} {saved : List (List Sym)} {e : Entrance}
      {entrances : List Entrance} :
    (∀ x, x ∈ layer ↔ DeclaredWhile changes (some e) x ∨ x ∈ outer) →
      Nested changes outer saved entrances → Nested changes layer (outer :: saved) (e :: entrances)

namespace Nested

variable {changes : List Change} {c : Change} {layer : List Sym} {saved : List (List Sym)}
  {entrances : List Entrance}

/-- A name is in the local layer if it was declared in one of the functions. -/
theorem mem_iff (h : Nested changes layer saved entrances) (x : Sym) :
    x ∈ layer ↔ ∃ e ∈ entrances, DeclaredWhile changes (some e) x := by
  induction h with
  | outside => simp
  | inside mem _ ih => rw [mem, ih, List.exists_mem_cons_iff]

/-- A change that declares nothing in these functions leaves their layers alone. -/
theorem elsewhere (h : Nested changes layer saved entrances)
    (other : ∀ names, c = .declare names →
      ∀ e ∈ entrances, (openAfter changes).getLast? ≠ some e) :
    Nested (changes ++ [c]) layer saved entrances := by
  induction h with
  | outside => exact .outside
  | @inside _ _ _ e _ mem _ ih =>
    refine .inside (fun x => ?_) (ih fun names hc f hf => other names hc f (.tail _ hf))
    rw [mem, declaredWhile_append]
    constructor
    · exact Or.imp_left .inl
    · rintro ((h | ⟨names, hc, -, last⟩) | h)
      · exact .inl h
      · exact absurd last (other names hc e (.head _))
      · exact .inr h

/-- What is declared in the innermost function goes to the local layer. -/
theorem declare {names : List Sym} {e : Entrance}
    (h : Nested changes layer saved (e :: entrances))
    (last : (openAfter changes).getLast? = some e) (fresh : e ∉ entrances) :
    Nested (changes ++ [.declare names]) (names ++ layer) saved (e :: entrances) := by
  cases h with
  | inside mem outer =>
    refine .inside (fun x => ?_) (outer.elsewhere fun _ _ f hf he => ?_)
    · simp only [List.mem_append, mem, declaredWhile_append, Change.declare.injEq, last]
      constructor
      · rintro (hx | hx | hx)
        · exact .inl (.inr ⟨names, rfl, hx, trivial⟩)
        · exact .inl (.inl hx)
        · exact .inr hx
      · rintro ((hx | ⟨_, rfl, hx, -⟩) | hx)
        · exact .inr (.inl hx)
        · exact .inl hx
        · exact .inr (.inr hx)
    · rw [last, Option.some.injEq] at he
      exact fresh (he ▸ hf)

/-- A function that is entered begins with the names of those around it. -/
theorem enter (h : Nested changes layer saved entrances) (identity : FunctionIdentity) :
    Nested (changes ++ [.enter identity]) layer (layer :: saved)
      (⟨changes.length, identity⟩ :: entrances) := by
  refine .inside (fun x => ⟨.inr, ?_⟩) (h.elsewhere fun _ hc => by cases hc)
  rintro (hx | hx)
  · rcases declaredWhile_append.1 hx with hx | ⟨_, hc, -⟩
    · exact absurd hx.rank_lt (Nat.lt_irrefl _)
    · cases hc
  · exact hx

/-- The layer of the functions around the innermost one is put back. -/
theorem exit (h : Nested changes layer saved entrances) :
    Nested (changes ++ [.exit]) (saved.headD []) saved.tail entrances.tail := by
  cases h with
  | outside => exact .outside
  | inside _ outer => exact outer.elsewhere fun _ hc => by cases hc

end Nested

/-- How the parts of a scope belong to the changes behind it. -/
structure Accounts (scope : Scope) (changes : List Change) : Prop where
  functions : scope.functions = (openAfter changes).reverse.map Entrance.identity
  global : ∀ x, x ∈ scope.global ↔ DeclaredWhile changes none x
  nested : Nested changes scope.inner scope.saved (openAfter changes).reverse
  borrowed : ∀ x, x ∈ scope.borrowed ↔ BorrowedSince changes x

namespace Accounts

variable {scope : Scope} {changes : List Change}

theorem empty : Accounts Scope.empty [] where
  functions := rfl
  global x := by simp [Scope.empty, DeclaredWhile]
  nested := .outside
  borrowed x := by simp [Scope.empty, BorrowedSince]

/-- The innermost function of a scope is the last one that is open. -/
theorem current_eq (h : scope.Accounts changes) :
    scope.current = (openAfter changes).getLast?.map Entrance.identity := by
  rw [current, h.functions, List.head?_map, List.head?_reverse]

theorem depth_eq (h : scope.Accounts changes) : scope.depth = (openAfter changes).length := by
  rw [depth, h.functions, List.length_map, List.length_reverse]

theorem inFunction_iff (h : scope.Accounts changes) :
    scope.inFunction ↔ openAfter changes ≠ [] := by
  simp [inFunction, h.functions]

/-- What is declared goes to the global layer or to the local one. -/
theorem declare (h : scope.Accounts changes) (names : List Sym) :
    (scope.declare names).Accounts (changes ++ [.declare names]) := by
  have same : openAfter (changes ++ [.declare names]) = openAfter changes :=
    openAfter_other changes (by simp) (by simp)
  have borrowed : ∀ x, x ∈ scope.borrowed ↔ BorrowedSince (changes ++ [.declare names]) x := by
    simp [borrowedSince_append, h.borrowed]
  have inside := h.inFunction_iff
  rcases List.eq_nil_or_concat (openAfter changes) with none | ⟨entrances, e, he⟩
  · -- outside of every function
    have out : ¬ scope.inFunction := fun hin => inside.1 hin none
    rw [Scope.declare, if_neg out]
    constructor
    · rw [same]
      exact h.functions
    · intro x
      simp [declaredWhile_append, h.global, none, or_comm]
    · rw [same]
      exact h.nested.elsewhere fun _ _ e _ => by simp [none]
    · exact borrowed
  · rw [List.concat_eq_append] at he
    have isIn : scope.inFunction := inside.2 (by simp [he])
    have last : (openAfter changes).getLast? = some e := by simp [he]
    have fresh : e ∉ entrances.reverse := by
      have distinct := nodup_openFrom 0 changes
      rw [← openAfter, he] at distinct
      rw [List.mem_reverse]
      exact fun h => (List.nodup_append.1 distinct).2.2 e h e (List.mem_singleton_self e) rfl
    have nested := h.nested
    rw [Scope.declare, if_pos isIn]
    constructor
    · rw [same]
      exact h.functions
    · intro x
      simp [declaredWhile_append, h.global, last]
    · rw [he, List.reverse_concat] at nested
      rw [same, he, List.reverse_concat]
      exact nested.declare last fresh
    · exact borrowed

/-- A change that neither declares anything nor enters or leaves a function is one of the borrowed
names. -/
theorem setBorrowed (h : scope.Accounts changes) (c : Change)
    (declares : ∀ names, c ≠ .declare names) (enters : ∀ f, c ≠ .enter f) (exits : c ≠ .exit)
    {names : List Sym} (borrowed : ∀ x, x ∈ names ↔ BorrowedSince (changes ++ [c]) x) :
    Accounts { scope with borrowed := names } (changes ++ [c]) := by
  have same := openAfter_other changes enters exits
  constructor
  · rw [same]
    exact h.functions
  · intro x
    simp [declaredWhile_append, h.global, declares]
  · rw [same]
    exact h.nested.elsewhere fun names hc => absurd hc (declares names)
  · exact borrowed

theorem borrow (h : scope.Accounts changes) (names : List Sym) :
    (scope.borrow names).Accounts (changes ++ [.borrow names]) := by
  refine h.setBorrowed (.borrow names) (by simp) (by simp) (by simp) fun x => ?_
  simp [borrowedSince_append, h.borrowed, or_comm]

theorem clearBorrowed (h : scope.Accounts changes) :
    scope.clearBorrowed.Accounts (changes ++ [.clearBorrowed]) := by
  refine h.setBorrowed .clearBorrowed (by simp) (by simp) (by simp) fun x => ?_
  simp [borrowedSince_append]

theorem enterFunction (h : scope.Accounts changes) (identity : FunctionIdentity) :
    (scope.enterFunction identity).Accounts (changes ++ [.enter identity]) := by
  constructor
  · simp [Scope.enterFunction, openAfter_enter, h.functions]
  · intro x
    simp [Scope.enterFunction, declaredWhile_append, h.global]
  · rw [openAfter_enter, List.reverse_concat]
    exact h.nested.enter identity
  · intro x
    simp [Scope.enterFunction, borrowedSince_append, h.borrowed]

theorem exitFunction (h : scope.Accounts changes) :
    scope.exitFunction.Accounts (changes ++ [.exit]) := by
  constructor
  · simp [Scope.exitFunction, openAfter_exit, h.functions]
  · intro x
    simp [Scope.exitFunction, declaredWhile_append, h.global]
  · rw [openAfter_exit, ← List.tail_reverse]
    exact h.nested.exit
  · intro x
    simp [Scope.exitFunction, borrowedSince_append, h.borrowed]

/-- One more change keeps the account. -/
theorem change (h : scope.Accounts changes) (c : Change) :
    (scope.change c).Accounts (changes ++ [c]) := by
  cases c with
  | declare names => exact h.declare names
  | borrow names => exact h.borrow names
  | clearBorrowed => exact h.clearBorrowed
  | enter identity => exact h.enterFunction identity
  | exit => exact h.exitFunction

/-- A name is visible if one of the three layers has it. -/
theorem visible_iff (h : scope.Accounts changes) (x : Sym) :
    scope.visible x ↔ DeclaredWhile changes none x ∨
      (∃ e ∈ openAfter changes, DeclaredWhile changes (some e) x) ∨ BorrowedSince changes x := by
  have inner := h.nested.mem_iff x
  simp only [List.mem_reverse] at inner
  simp [visible, h.global, inner, h.borrowed, or_assoc]

end Accounts

/-- The layers belong to the changes, whatever these are. -/
theorem accounts_afterChanges (changes : List Change) :
    (afterChanges changes).Accounts changes := by
  induction changes using List.reverseRecOn with
  | nil => exact .empty
  | append_singleton changes c ih =>
    rw [afterChanges, List.foldl_concat]
    exact ih.change c

/-- Behind any changes, a name is visible exactly if it was declared while no function was open or
while one that is still open was the innermost one, or if it was borrowed since the borrowed names
were last forgotten. The scope tells how many functions are open and which one is the last of them,
lists the visible names in order, and chooses one of them by any stream, unless there is none. -/
theorem visible_afterChanges (changes : List Change) :
    let scope := afterChanges changes
    (∀ x, scope.visible x ↔ DeclaredWhile changes none x ∨
        (∃ e ∈ openAfter changes, DeclaredWhile changes (some e) x) ∨ BorrowedSince changes x) ∧
      scope.depth = (openAfter changes).length ∧
      scope.current = (openAfter changes).getLast?.map Entrance.identity ∧
      scope.visibleNames.Pairwise (· < ·) ∧
      (∀ x, x ∈ scope.visibleNames ↔ scope.visible x) ∧
      ∀ stream : Stream,
        (∃ x, scope.visible x ∧ (scope.randomVisible stream).1 = some x) ∨
          (∀ x, ¬ scope.visible x) ∧ (scope.randomVisible stream).1 = none := by
  intro scope
  have account : scope.Accounts changes := accounts_afterChanges changes
  refine ⟨account.visible_iff, account.depth_eq, account.current_eq, visibleNames_sorted scope,
    fun _ => mem_visibleNames, fun stream => ?_⟩
  rcases randomVisible_cases scope stream with chosen | ⟨nothing, drawn⟩
  · exact .inl chosen
  · exact .inr ⟨nothing, congrArg Prod.fst drawn⟩

/-- A function that was never entered is left, and another one is left twice. -/
example : (afterChanges [.exit, .enter .anonymous, .declare [3], .borrow [2], .exit, .exit,
    .declare [1]]).visibleNames = [1, 2] := by decide

end Scope

end Graft
