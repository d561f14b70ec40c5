import Graft.Proofs.Syntax.Mentions
import Graft.Syntax.NameIndex
import Mathlib.Data.List.Dedup

/-!
# Symbols and names

The two parts of an index are inverse to each other, whatever is mentioned and however often: a name
has at most one symbol, a symbol means one name, and neither ever changes. So the symbols are the
ranks of the names in the order in which they were mentioned first.

* `NameIndex.Inverse` - the symbol beside a name is that of the name
* `NameIndex.Ranked` - the symbols are in the order of the first mentions
* `interned_afterCalls` - what holds behind any names that were mentioned
-/

namespace Graft

namespace NameIndex

variable {index : NameIndex} {name : String} {sym : Sym} {calls : List String}

/-! ## One mention -/

theorem intern_of_lookup (h : index.lookup name = some sym) : index.intern name = (sym, index) := by
  rw [intern, h]

theorem intern_of_lookup_eq_none (h : index.lookup name = none) :
    index.intern name =
      (index.size, ⟨index.spellings.push name, (name, index.size) :: index.symbols⟩) := by
  rw [intern, h]

/-- The symbol that a mention gives is the one that is found from then on. -/
theorem lookup_intern (index : NameIndex) (name : String) :
    (index.intern name).2.lookup name = some (index.intern name).1 := by
  cases h : index.lookup name with
  | some sym => rw [intern_of_lookup h, h]
  | none => rw [intern_of_lookup_eq_none h, lookup_push, if_pos rfl]

/-- A mention leaves the symbols of other names. -/
theorem lookup_intern_of_ne (index : NameIndex) {new : String} (h : name ≠ new) :
    (index.intern new).2.lookup name = index.lookup name := by
  cases hn : index.lookup new with
  | some sym => rw [intern_of_lookup hn]
  | none =>
    rw [intern_of_lookup_eq_none hn, lookup_push, if_neg h]
    rfl

/-- A symbol that has been found is found again behind any mention. -/
theorem lookup_intern_of_lookup (h : index.lookup name = some sym) (new : String) :
    (index.intern new).2.lookup name = some sym := by
  by_cases hn : name = new
  · subst hn
    rw [intern_of_lookup h, h]
  · rw [lookup_intern_of_ne index hn, h]

/-! ## Two parts that agree -/

/-- The symbol beside a name is the one that means it. -/
def Inverse (index : NameIndex) : Prop :=
  ∀ name sym, index.lookup name = some sym ↔ index.text? sym = some name

theorem inverse_empty : empty.Inverse := by
  intro name sym
  simp [lookup, text?, empty]

namespace Inverse

theorem exists_lookup_iff (h : index.Inverse) :
    (∃ sym, index.lookup name = some sym) ↔ index.names.Has name := by
  simp only [h name]
  exact Array.mem_iff_getElem?.symm

theorem lt_size (h : index.Inverse) (hs : index.lookup name = some sym) : sym < index.size :=
  (Array.getElem?_eq_some_iff.1 ((h name sym).1 hs)).1

/-- Both parts are written at once, so that they go on agreeing. -/
theorem intern (h : index.Inverse) (new : String) : (index.intern new).2.Inverse := by
  cases hn : index.lookup new with
  | some sym => rwa [intern_of_lookup hn]
  | none =>
    intro name sym
    rw [intern_of_lookup_eq_none hn, lookup_push, text?, Array.getElem?_push]
    by_cases hname : name = new
    · -- the new name is no earlier one, so that only the new symbol means it
      subst hname
      have unknown : index.text? sym ≠ some name := fun ht => by
        rw [(h name sym).2 ht] at hn
        cases hn
      rw [if_pos rfl]
      split
      · rename_i hs
        exact iff_of_true (congrArg some hs.symm) rfl
      · rename_i hs
        exact iff_of_false (fun he => hs (Option.some.inj he).symm) unknown
    · rw [if_neg hname]
      refine (h name sym).trans ?_
      split
      · rename_i hs
        subst hs
        refine iff_of_false (fun ht => ?_) fun he => hname (Option.some.inj he).symm
        exact absurd (h.lt_size ((h name _).2 ht)) (Nat.lt_irrefl _)
      · exact Iff.rfl

/-- A mention does to the names what it does to a table without an index. -/
theorem names_intern (h : index.Inverse) (name : String) :
    (index.intern name).2.names = (index.names.intern name).2 := by
  cases hn : index.lookup name with
  | some sym =>
    rw [intern_of_lookup hn, Names.intern_of_has (h.exists_lookup_iff.1 ⟨sym, hn⟩)]
  | none =>
    have unknown : ¬ index.names.Has name := fun hk => by
      obtain ⟨sym, hs⟩ := h.exists_lookup_iff.2 hk
      rw [hn] at hs
      cases hs
    rw [intern_of_lookup_eq_none hn, names]
    exact congrArg Names.mk (Names.spellings_intern_of_not_has unknown).symm

end Inverse

/-! ## The order of the symbols -/

/-- A name has a smaller symbol than another one just when it was mentioned before it. -/
def Ranked (index : NameIndex) (calls : List String) : Prop :=
  ∀ name name' sym sym', index.lookup name = some sym → index.lookup name' = some sym' →
    (sym < sym' ↔ calls.idxOf name < calls.idxOf name')

section Mentioned

variable (inverse : index.Inverse) (known : ∀ name, index.names.Has name ↔ name ∈ calls)

include inverse known

/-- A name that has a symbol keeps its place among the mentions. -/
theorem idxOf_of_lookup (hs : index.lookup name = some sym) (new : String) :
    (calls ++ [new]).idxOf name = calls.idxOf name ∧ calls.idxOf name < calls.length := by
  have hm := (known name).1 (inverse.exists_lookup_iff.1 ⟨sym, hs⟩)
  exact ⟨List.idxOf_append_of_mem hm, List.idxOf_lt_length_iff.2 hm⟩

theorem idxOf_of_lookup_eq_none (hn : index.lookup name = none) :
    (calls ++ [name]).idxOf name = calls.length := by
  have hm : name ∉ calls := fun hm => by
    obtain ⟨sym, hs⟩ := inverse.exists_lookup_iff.2 ((known name).2 hm)
    rw [hn] at hs
    cases hs
  simp [List.idxOf_append_of_notMem hm]

/-- Behind a first mention a name is the latest one, in the order of the symbols and in that of the
mentions, or it is what it was and stands in front of the latest in both. -/
theorem latest_or_earlier {new : String} (hn : index.lookup new = none)
    (hs : (index.intern new).2.lookup name = some sym) :
    (sym = index.size ∧ (calls ++ [new]).idxOf name = calls.length) ∨
      index.lookup name = some sym ∧ sym < index.size ∧
        (calls ++ [new]).idxOf name = calls.idxOf name ∧ calls.idxOf name < calls.length := by
  by_cases hname : name = new
  · subst hname
    rw [lookup_intern, intern_of_lookup_eq_none hn] at hs
    exact .inl ⟨(Option.some.inj hs).symm, idxOf_of_lookup_eq_none inverse known hn⟩
  · rw [lookup_intern_of_ne index hname] at hs
    exact .inr ⟨hs, inverse.lt_size hs, idxOf_of_lookup inverse known hs new⟩

/-- A name that is mentioned for the first time ranks behind all others. -/
theorem Ranked.intern (h : index.Ranked calls) (new : String) :
    (index.intern new).2.Ranked (calls ++ [new]) := by
  intro name name' sym sym' hs hs'
  cases hn : index.lookup new with
  | some first =>
    rw [intern_of_lookup hn] at hs hs'
    rw [(idxOf_of_lookup inverse known hs new).1, (idxOf_of_lookup inverse known hs' new).1]
    exact h name name' sym sym' hs hs'
  | none =>
    obtain ⟨rfl, hi⟩ | ⟨hold, hlt, hi, hlen⟩ := latest_or_earlier inverse known hn hs <;>
      obtain ⟨rfl, hi'⟩ | ⟨hold', hlt', hi', hlen'⟩ := latest_or_earlier inverse known hn hs' <;>
      rw [hi, hi']
    · exact iff_of_false (Nat.lt_irrefl _) (Nat.lt_irrefl _)
    · exact iff_of_false (Nat.lt_asymm hlt') (Nat.lt_asymm hlen')
    · exact iff_of_true hlt hlen
    · exact h name name' sym sym' hold hold'

end Mentioned

/-! ## Many mentions -/

/-- An index behind names that are mentioned one after the other. -/
def mentionAll (index : NameIndex) (calls : List String) : NameIndex :=
  calls.foldl (fun index name => (index.intern name).2) index

/-- What an index that began without names knows behind a list of names. -/
structure Holds (index : NameIndex) (calls : List String) : Prop where
  inverse : index.Inverse
  ranked : index.Ranked calls
  names_eq : index.names = Names.empty.mentionAll calls

namespace Holds

theorem has_iff (h : index.Holds calls) (name : String) : index.names.Has name ↔ name ∈ calls := by
  rw [h.names_eq, Names.has_mentionAll_iff]
  exact or_iff_right (by simp [Names.Has, Names.empty])

theorem empty : NameIndex.empty.Holds [] :=
  ⟨inverse_empty, by rintro _ _ _ _ ⟨⟩, rfl⟩

theorem intern (h : index.Holds calls) (name : String) :
    (index.intern name).2.Holds (calls ++ [name]) := by
  refine ⟨h.inverse.intern name, h.ranked.intern h.inverse h.has_iff name, ?_⟩
  rw [h.inverse.names_intern, h.names_eq, Names.mentionAll_append]
  rfl

theorem mentionAll (h : index.Holds calls) (later : List String) :
    (index.mentionAll later).Holds (calls ++ later) := by
  induction later generalizing index calls with
  | nil => rwa [List.append_nil]
  | cons name later ih =>
    have := ih (h.intern name)
    rwa [List.append_assoc] at this

/-- There are as many symbols as different names. -/
theorem size_eq (h : index.Holds calls) : index.size = calls.dedup.length := by
  have distinct : index.names.Distinct := h.names_eq ▸ Names.distinct_empty.mentionAll calls
  have same : index.spellings.toList.Perm calls.dedup :=
    (List.perm_ext_iff_of_nodup distinct (List.nodup_dedup calls)).2 fun name => by
      rw [List.mem_dedup, ← h.has_iff]
      exact Array.mem_toList_iff
  exact same.length_eq

end Holds

theorem lookup_mentionAll_of_lookup (h : index.lookup name = some sym) (later : List String) :
    (index.mentionAll later).lookup name = some sym := by
  induction later generalizing index with
  | nil => exact h
  | cons new later ih => exact ih (lookup_intern_of_lookup h new)

end NameIndex

open NameIndex

/-- Behind any names that were mentioned, and whatever is mentioned later: a name has a symbol just
when it was mentioned; the symbol means the name, and to mention the name again gives this symbol
and changes nothing. Different names have different symbols, which are the numbers below the count
of different names, in the order in which the names were mentioned first. A new mention gives the
symbol that is found from then on, and neither a symbol nor what it means ever changes. A table
without an index finds the same symbols. -/
theorem interned_afterCalls (calls later : List String) :
    let index : NameIndex := NameIndex.empty.mentionAll calls
    (∀ name, (∃ sym, index.lookup name = some sym) ↔ name ∈ calls) ∧
    (∀ name sym, index.lookup name = some sym →
      index.text? sym = some name ∧ index.intern name = (sym, index)) ∧
    (∀ name name' sym, index.lookup name = some sym → index.lookup name' = some sym →
      name = name') ∧
    index.size = calls.dedup.length ∧
    (∀ sym, sym < index.size ↔ ∃ name, index.lookup name = some sym) ∧
    (∀ name name' sym sym', index.lookup name = some sym → index.lookup name' = some sym' →
      (sym < sym' ↔ calls.idxOf name < calls.idxOf name')) ∧
    (∀ name, (index.intern name).2.lookup name = some (index.intern name).1) ∧
    (∀ sym < index.size, (index.mentionAll later).text? sym = index.text? sym) ∧
    (∀ name sym, index.lookup name = some sym →
      (index.mentionAll later).lookup name = some sym) ∧
    ∀ name, (Names.empty.mentionAll calls).lookup name = index.lookup name := by
  intro index
  have holds : index.Holds calls := Holds.empty.mentionAll calls
  have holds' : (index.mentionAll later).Holds (calls ++ later) := holds.mentionAll later
  have meant : ∀ sym < index.size, ∃ name, index.lookup name = some sym := fun sym hs =>
    ⟨_, (holds.inverse _ sym).2 (Array.getElem?_eq_getElem hs)⟩
  refine ⟨fun name => holds.inverse.exists_lookup_iff.trans (holds.has_iff name),
    fun name sym hs => ⟨(holds.inverse name sym).1 hs, intern_of_lookup hs⟩,
    fun name name' sym hs hs' => ?_, holds.size_eq,
    fun sym => ⟨meant sym, fun ⟨_, hs⟩ => holds.inverse.lt_size hs⟩, holds.ranked,
    lookup_intern index, fun sym hs => ?_, fun name sym hs => lookup_mentionAll_of_lookup hs later,
    fun name => ?_⟩
  · have := ((holds.inverse name sym).1 hs).symm.trans ((holds.inverse name' sym).1 hs')
    exact Option.some.inj this
  · obtain ⟨name, hn⟩ := meant sym hs
    rw [(holds.inverse name sym).1 hn]
    exact (holds'.inverse name sym).1 (lookup_mentionAll_of_lookup hn later)
  · -- both find the only place where the name stands
    rw [← holds.names_eq]
    refine Option.ext fun sym => ?_
    rw [Names.lookup_eq_some_iff, holds.inverse name sym]
    refine and_iff_left_of_imp fun hs other ho hother => ?_
    have same := ((holds.inverse name sym).2 hs).symm.trans ((holds.inverse name other).2 hother)
    exact absurd (Option.some.inj same) (Nat.ne_of_gt ho)

/-- A name that is mentioned twice keeps its symbol. -/
example : ((empty.mentionAll ["total", "helper", "total"]).intern "helper").1 = 1 := by decide

end Graft
