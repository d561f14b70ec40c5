import Graft.Corpus.Path
import Mathlib.Data.List.Lex
import Mathlib.Data.List.Nodup
import Mathlib.Data.Prod.Lex
import Mathlib.Data.String.Basic

/-!
# The order of paths

Paths are compared by the ranks and texts of their components, so that the order of paths is a
linear order of keys, and two texts are the same path if they have one key. Paths that were put in
order and freed of repetitions have keys that grow, which is what a search by halving needs.

* `before_iff`, `same_iff` - order and sameness of paths are those of their keys
* `ordered_dedup_sort` - what is sorted and freed of repetitions is in order
* `among_iff` - a search by halving finds what is there
-/

namespace Graft

/-- What a component is compared by. -/
def Component.key (c : Component) : Nat ×ₗ String :=
  toLex (c.rank, c.text)

theorem Component.key_injective : Function.Injective Component.key := by
  intro a b h
  obtain ⟨hr, ht⟩ := Prod.mk.inj (toLex.injective h)
  cases a <;> cases b <;> simp_all [Component.rank, Component.text]

theorem Component.before_iff {a b : Component} : a.before b ↔ a.key < b.key := by
  simp [before, key, Prod.Lex.toLex_lt_toLex]

namespace Path

variable {a b path : String} {paths : List String}

/-- What a path is compared by. -/
def key (path : String) : List (Nat ×ₗ String) :=
  (components path).map Component.key

theorem same_iff : same a b ↔ key a = key b := by
  rw [same, beq_iff_eq]
  exact ((List.map_injective_iff.2 Component.key_injective).eq_iff).symm

theorem same_comm : same a b ↔ same b a := by
  rw [same_iff, same_iff, eq_comm]

theorem same_congr (h : same a b) : same a = same b := by
  funext path
  rw [same, same, beq_iff_eq.1 h]

theorem componentsBefore_iff {as bs : List Component} :
    componentsBefore as bs ↔ as.map Component.key < bs.map Component.key := by
  induction as generalizing bs with
  | nil => cases bs <;> simp [componentsBefore]
  | cons c cs ih =>
    cases bs with
    | nil => simp [componentsBefore]
    | cons d ds =>
      rw [List.map_cons, List.map_cons, List.cons_lt_cons_iff, ← ih, ← Component.before_iff,
        Component.key_injective.eq_iff]
      simp [componentsBefore]

theorem before_iff : before a b ↔ key a < key b :=
  componentsBefore_iff

/-! ## Paths in order -/

/-- Paths whose keys grow, so that none is there twice. -/
def Ordered (paths : List String) : Prop :=
  paths.Pairwise fun a b => key a < key b

theorem pairwise_sort (paths : List String) :
    (sort paths).Pairwise fun a b => key a ≤ key b := by
  have le : ∀ a b, (!before b a) = true ↔ key a ≤ key b := fun a b => by
    rw [Bool.not_eq_true', ← Bool.not_eq_true, before_iff, not_lt]
  refine (List.pairwise_mergeSort (fun a b c hab hbc => ?_) (fun a b => ?_) paths).imp
    fun hab => (le _ _).1 hab
  · exact (le a c).2 (le_trans ((le a b).1 hab) ((le b c).1 hbc))
  · rw [Bool.or_eq_true, le, le]
    exact le_total _ _

/-- Of paths that are the same, the first one stays. -/
theorem exists_dedup_cons (a : String) (paths : List String) :
    ∃ rest, dedup (a :: paths) = a :: rest := by
  cases paths with
  | nil => exact ⟨[], rfl⟩
  | cons b paths =>
    rw [dedup]
    cases dedup (b :: paths) with
    | nil => exact ⟨[], rfl⟩
    | cons c rest =>
      dsimp only
      split
      · exact ⟨rest, rfl⟩
      · exact ⟨c :: rest, rfl⟩

theorem dedup_cons_cons (a b : String) (paths : List String) : ∃ rest,
    dedup (b :: paths) = b :: rest ∧
      dedup (a :: b :: paths) = if same a b then a :: rest else a :: b :: rest := by
  obtain ⟨rest, he⟩ := exists_dedup_cons b paths
  exact ⟨rest, he, by rw [dedup, he]⟩

theorem ordered_dedup (h : paths.Pairwise fun a b => key a ≤ key b) : Ordered (dedup paths) := by
  induction paths with
  | nil => exact .nil
  | cons a paths ih =>
    cases paths with
    | nil => exact List.pairwise_singleton _ _
    | cons b paths =>
      obtain ⟨first, rest⟩ := List.pairwise_cons.1 h
      obtain ⟨kept, he, hd⟩ := dedup_cons_cons a b paths
      have ordered := ih rest
      rw [he] at ordered
      obtain ⟨behind, kept_ordered⟩ := List.pairwise_cons.1 ordered
      have hab := first b List.mem_cons_self
      rw [hd]
      split
      · refine List.pairwise_cons.2 ⟨fun c hc => lt_of_le_of_lt hab (behind c hc), kept_ordered⟩
      · rename_i hs
        have hlt : key a < key b := lt_of_le_of_ne hab fun he => hs (same_iff.2 he)
        refine List.pairwise_cons.2 ⟨List.forall_mem_cons.2 ⟨hlt, fun c hc => ?_⟩, ordered⟩
        exact hlt.trans (behind c hc)

/-- Every path stays in one of its spellings. -/
theorem exists_same_dedup (path : String) :
    (∃ p ∈ dedup paths, same path p) ↔ ∃ p ∈ paths, same path p := by
  induction paths with
  | nil => rfl
  | cons a paths ih =>
    cases paths with
    | nil => rfl
    | cons b paths =>
      obtain ⟨kept, he, hd⟩ := dedup_cons_cons a b paths
      rw [List.exists_mem_cons_iff, ← ih, he, hd]
      split
      · rename_i hs
        have hab : same path b ↔ same path a := by rw [same_iff, same_iff, same_iff.1 hs]
        rw [List.exists_mem_cons_iff, List.exists_mem_cons_iff, hab, ← or_assoc, or_self]
      · rw [List.exists_mem_cons_iff]

theorem ordered_dedup_sort (paths : List String) : Ordered (dedup (sort paths)) :=
  ordered_dedup (pairwise_sort paths)

theorem exists_same_dedup_sort (path : String) :
    (∃ p ∈ dedup (sort paths), same path p) ↔ ∃ p ∈ paths, same path p := by
  rw [exists_same_dedup]
  exact exists_congr fun p => and_congr_left fun _ => (List.mergeSort_perm _ _).mem_iff

/-! ## Searching -/

theorem among_of_drop {middle : String} {behind : List String}
    (hd : paths.drop (paths.length / 2) = middle :: behind) :
    among path paths =
      if before path middle then among path (paths.take (paths.length / 2))
      else if before middle path then among path behind
      else true := by
  conv_lhs => unfold among
  split
  · rename_i hn
    rw [hd] at hn
    cases hn
  · rename_i hm
    cases hd.symm.trans hm
    rfl

/-- The halves of paths in order around the middle one. -/
theorem Ordered.halves (h : Ordered paths) {middle : String} {behind : List String}
    (hd : paths.drop (paths.length / 2) = middle :: behind) :
    paths = paths.take (paths.length / 2) ++ middle :: behind ∧
      Ordered (paths.take (paths.length / 2)) ∧ Ordered behind ∧
      (∀ p ∈ paths.take (paths.length / 2), key p < key middle) ∧
      ∀ p ∈ behind, key middle < key p := by
  have halves := List.take_append_drop (paths.length / 2) paths
  rw [hd] at halves
  rw [Ordered, ← halves] at h
  obtain ⟨front, back, across⟩ := List.pairwise_append.1 h
  obtain ⟨after, back⟩ := List.pairwise_cons.1 back
  exact ⟨halves.symm, front, back, fun p hp => across p hp middle List.mem_cons_self, after⟩

/-- A search by halving finds a path if one of its spellings is there. -/
theorem among_iff (h : Ordered paths) : among path paths ↔ ∃ p ∈ paths, same path p := by
  induction paths using among.induct path with
  | case1 paths hd =>
    have len := congrArg List.length hd
    simp only [List.length_drop, List.length_nil] at len
    obtain rfl : paths = [] := List.eq_nil_of_length_eq_zero (by omega)
    have none : among path [] = false := by
      unfold among
      rfl
    simp [none]
  | case2 paths middle behind hd hlt ih =>
    obtain ⟨halves, front, -, -, after⟩ := h.halves hd
    rw [among_of_drop hd, if_pos hlt, ih front]
    rw [before_iff] at hlt
    -- What is not in front of the middle one is behind the path.
    refine ⟨fun ⟨p, hp, hs⟩ => ⟨p, List.mem_of_mem_take hp, hs⟩, fun ⟨p, hp, hs⟩ => ?_⟩
    rw [same_iff] at hs
    rw [halves, List.mem_append, List.mem_cons] at hp
    rcases hp with hp | rfl | hp
    · exact ⟨p, hp, same_iff.2 hs⟩
    · exact absurd hs hlt.ne
    · exact absurd hs (hlt.trans (after p hp)).ne
  | case3 paths middle behind hd hnlt hgt ih =>
    obtain ⟨halves, -, back, across, -⟩ := h.halves hd
    rw [among_of_drop hd, if_neg hnlt, if_pos hgt, ih back]
    rw [before_iff] at hgt
    refine ⟨fun ⟨p, hp, hs⟩ => ⟨p, ?_, hs⟩, fun ⟨p, hp, hs⟩ => ?_⟩
    · rw [halves]
      exact List.mem_append_right _ (List.mem_cons_of_mem _ hp)
    rw [same_iff] at hs
    rw [halves, List.mem_append, List.mem_cons] at hp
    rcases hp with hp | rfl | hp
    · exact absurd hs ((across p hp).trans hgt).ne'
    · exact absurd hs hgt.ne'
    · exact ⟨p, hp, same_iff.2 hs⟩
  | case4 paths middle behind hd hnlt hngt =>
    rw [among_of_drop hd, if_neg hnlt, if_neg hngt]
    rw [before_iff, not_lt] at hnlt hngt
    refine iff_of_true rfl ⟨middle, ?_, same_iff.2 (le_antisymm hngt hnlt)⟩
    exact List.mem_of_mem_drop (i := paths.length / 2) (hd ▸ List.mem_cons_self)

end Path

end Graft
