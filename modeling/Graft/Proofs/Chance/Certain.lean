import Graft.Chance.Stream

/-!
# Chances that leave nothing open

A probability of one or more comes out true without a draw, and one of zero or less never does,
whatever the stream is.

* `ofFloat_of_one_le`, `ofFloat_of_le_zero` - numbers at the ends, and behind them
* `bool_always`, `bool_never` - what is drawn with such a chance
-/

namespace Graft

open Chance (Draw Probability Stream)
open Float.Model (UnpackedFloat)

/-! ## Numbers at the ends -/

theorem ofFloat_of_one_le {p : Float} (h : 1.0 ≤ p) : Probability.ofFloat p = .always :=
  if_pos h

theorem unpack_zero : (0.0 : Float).toModel.unpack = .zero .positive := by
  with_unfolding_all rfl

theorem unpack_one :
    ∃ h, (1.0 : Float).toModel.unpack = .finite .positive 0x10000000000000 (-52) h :=
  ⟨by decide, by with_unfolding_all rfl⟩

/-- The unit in which chances are counted is that of whole parts. -/
theorem unpack_parts :
    ∃ h, (18446744073709551616.0 : Float).toModel.unpack =
      .finite .positive 0x10000000000000 12 h :=
  ⟨by decide, by with_unfolding_all rfl⟩

theorem le_iff_unpack (p q : Float) : p ≤ q ↔ p.toModel.unpack.le q.toModel.unpack = true := by
  change p.le q = true ↔ _
  rw [Float.le, decide_eq_true_iff]
  rfl

theorem unpack_pack_zero (sign : UnpackedFloat.Sign) :
    (Float.Model.pack (.zero sign)).unpack = .zero sign := by
  cases sign <;> with_unfolding_all rfl

/-- A zero of either sign has no parts. -/
theorem parts_of_zero {p : Float} {sign : UnpackedFloat.Sign}
    (h : p.toModel.unpack = .zero sign) : (p * 18446744073709551616.0).toUInt64 = 0 := by
  obtain ⟨_, hs⟩ := unpack_parts
  change (Float.Model.pack (UnpackedFloat.mul _ p.toModel.unpack
    (18446744073709551616.0 : Float).toModel.unpack)).unpack.toUInt64 = 0
  rw [h, hs]
  change (Float.Model.pack (.zero _)).unpack.toUInt64 = 0
  rw [unpack_pack_zero]
  rfl

/-- A number that is not above zero is zero, of either sign, or below zero. -/
theorem cases_of_le_zero {p : Float} (h : p ≤ 0.0) :
    ¬ 1.0 ≤ p ∧ (¬ 0.0 ≤ p ∨ ∃ sign, p.toModel.unpack = .zero sign) := by
  obtain ⟨_, ho⟩ := unpack_one
  rw [le_iff_unpack, unpack_zero] at h
  rw [le_iff_unpack, le_iff_unpack, unpack_zero, ho]
  revert h
  have no {p : Prop} : false = true → p := nofun
  rcases p.toModel.unpack with sign | _ | sign | ⟨sign, m, e, hm⟩
  case notANumber => exact no
  case zero =>
    cases sign <;> exact fun _ => ⟨no, .inr ⟨_, rfl⟩⟩
  case infinity =>
    cases sign with
    | positive => exact no
    | negative => exact fun _ => ⟨no, .inl no⟩
  case finite =>
    cases sign with
    | positive => exact no
    | negative => exact fun _ => ⟨no, .inl no⟩

theorem ofFloat_of_le_zero {p : Float} (h : p ≤ 0.0) : Probability.ofFloat p = .never := by
  obtain ⟨hone, hzero | ⟨sign, hz⟩⟩ := cases_of_le_zero h
  · rw [Probability.ofFloat, if_neg hone, if_neg hzero]
  · rw [Probability.ofFloat, if_neg hone, parts_of_zero hz]
    exact ite_self _

/-! ## Draws -/

/-- What always happens needs no draw. -/
theorem bool_always (stream : Stream) : Draw.bool .always stream = (true, stream) := rfl

/-- What never happens takes a draw all the same. -/
theorem bool_never (stream : Stream) :
    Draw.bool .never stream = (false, (Draw.long stream).2) := by
  have open_chance : Probability.never ≠ Probability.always := by decide
  rw [Draw.bool, if_neg open_chance]
  exact Prod.ext (decide_eq_false (Nat.not_lt_zero (Draw.long stream).1)) rfl

end Graft
