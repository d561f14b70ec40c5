import Graft.Scope.Visible

/-!
# Draws from a list

Something is drawn from every list that is not empty, whatever the stream is.

* `below_lt` - a number that is drawn is below its bound
* `exists_mem_choose`, `mem_of_choose` - what is chosen from a list
* `randomVisible_cases` - the visible name that is chosen
-/

namespace Graft

open Chance (Draw Stream)

variable {α : Type}

/-- The high part of the product of a word and a bound is below the bound, and so is the number
behind it where the low part may carry. -/
theorem high_lt {word bound : Nat} (hw : word < 1 <<< 32) (hb : 0 < bound) :
    word * bound / 1 <<< 32 < bound ∧
      (1 <<< 32 < word * bound % 1 <<< 32 + bound → word * bound / 1 <<< 32 + 1 < bound) := by
  have hm : (word + 1) * bound ≤ 1 <<< 32 * bound := Nat.mul_le_mul_right bound hw
  have split := Nat.div_add_mod (word * bound) (1 <<< 32)
  rw [Nat.succ_mul] at hm
  generalize word * bound = product at hm split ⊢
  generalize product / 1 <<< 32 = high at split ⊢
  generalize product % 1 <<< 32 = low at split ⊢
  omega

/-- A number that is drawn is below its bound. -/
theorem below_lt {bound : Nat} (hb : 0 < bound) (stream : Stream) :
    (Draw.below bound stream).1 < bound := by
  obtain ⟨high, carried⟩ := high_lt (Draw.word stream).1.toNat_lt hb
  have run : Draw.below bound stream =
      (let product := (Draw.word stream).1.toNat * bound
        if product % 1 <<< 32 + bound ≤ 1 <<< 32 then pure (product / 1 <<< 32)
        else do
          let more := (← Draw.word).toNat * bound / 1 <<< 32
          pure (if product % 1 <<< 32 + more < 1 <<< 32 then product / 1 <<< 32
            else product / 1 <<< 32 + 1) : Draw Nat) (Draw.word stream).2 := rfl
  rw [run]
  dsimp only
  split
  · exact high
  · rename_i hc
    have behind := carried (Nat.lt_of_not_le hc)
    change (if _ then _ else _) < bound
    split
    · exact high
    · exact behind

/-- What is chosen from a list is in the list. -/
theorem mem_of_choose {items : List α} {stream : Stream} {a : α}
    (h : a ∈ (Draw.choose items stream).1) : a ∈ items := by
  cases items with
  | nil => cases h
  | cons x xs => exact List.mem_of_getElem? h

/-- From a list that is not empty, something is chosen. -/
theorem exists_mem_choose {items : List α} (h : items ≠ []) (stream : Stream) :
    ∃ a ∈ items, (Draw.choose items stream).1 = some a := by
  cases items with
  | nil => exact absurd rfl h
  | cons x xs =>
    have hlt : (Draw.below (x :: xs).length stream).1 < (x :: xs).length :=
      below_lt (by simp) stream
    exact ⟨_, List.getElem_mem hlt, List.getElem?_eq_getElem hlt⟩

/-- Where something is visible, the name that is chosen is visible; else there is none, and nothing
is drawn. -/
theorem randomVisible_cases (scope : Scope) (stream : Stream) :
    (∃ y, scope.visible y ∧ (scope.randomVisible stream).1 = some y) ∨
      (∀ y, ¬ scope.visible y) ∧ scope.randomVisible stream = (none, stream) := by
  unfold Scope.randomVisible
  cases hv : scope.visibleNames with
  | nil =>
    refine .inr ⟨fun y hy => ?_, rfl⟩
    rw [← Scope.mem_visibleNames, hv] at hy
    cases hy
  | cons y ys =>
    obtain ⟨a, ha, hc⟩ := exists_mem_choose (List.cons_ne_nil y ys) stream
    exact .inl ⟨a, Scope.mem_visibleNames.1 (hv ▸ ha), hc⟩

end Graft
