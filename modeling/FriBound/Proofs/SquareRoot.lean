import FriBound.Proofs.Range
import Mathlib.Data.Nat.Sqrt
import Mathlib.Tactic.Linarith

/-!
# The square root

The whole square root is found by Newton's steps downwards from a power of two. By the inequality of
the arithmetic and the geometric mean no step gets below the root, so the first step that does not
go down has reached it.

## Main results

* `floorSqrt_eq` — the steps end at the whole square root
* `Binary64.sqrt_fin`, `Binary64.sqrt_pos` — the root of a positive number
-/

namespace FriBound

/-- A step of Newton's does not get below the root. -/
theorem lt_succ_newton_sq {n r : Nat} (hr : 0 < r) :
    n < ((r + n / r) / 2 + 1) * ((r + n / r) / 2 + 1) := by
  have hn : n < (n / r + 1) * r := (Nat.div_lt_iff_lt_mul hr).mp (Nat.lt_succ_self _)
  have ht : r + n / r ≤ 2 * ((r + n / r) / 2) + 1 := by omega
  generalize (r + n / r) / 2 = t at *
  generalize n / r = q at *
  nlinarith [sq_nonneg ((r : ℤ) - q - 1)]

theorem floorSqrtFrom_spec {n r : Nat} (hn : n < (r + 1) * (r + 1)) :
    floorSqrtFrom n r * floorSqrtFrom n r ≤ n ∧
      n < (floorSqrtFrom n r + 1) * (floorSqrtFrom n r + 1) := by
  induction r using Nat.strongRecOn with
  | _ r ih =>
    rw [floorSqrtFrom]
    split
    · rename_i hlt
      exact ih _ hlt (lt_succ_newton_sq (Nat.zero_lt_of_lt hlt))
    · rename_i hstop
      refine ⟨?_, hn⟩
      rcases Nat.eq_zero_or_pos r with rfl | hr
      · exact Nat.zero_le n
      · exact (Nat.le_div_iff_mul_le hr).mp (by omega)

/-- Newton's steps end at the whole square root. -/
theorem floorSqrt_eq (n : Nat) : floorSqrt n = n.sqrt := by
  have hstart : n < (2 ^ (n.log2 / 2 + 1) + 1) * (2 ^ (n.log2 / 2 + 1) + 1) :=
    calc n < 2 ^ (n.log2 + 1) := Nat.lt_log2_self
      _ ≤ 2 ^ (n.log2 / 2 + 1 + (n.log2 / 2 + 1)) := Nat.pow_le_pow_right Nat.two_pos (by omega)
      _ = 2 ^ (n.log2 / 2 + 1) * 2 ^ (n.log2 / 2 + 1) := Nat.pow_add ..
      _ ≤ _ := Nat.mul_le_mul (Nat.le_succ _) (Nat.le_succ _)
  exact Nat.eq_sqrt.mpr (floorSqrtFrom_spec hstart)

namespace Binary64

variable {x : Binary64}

/-- What the root of a magnitude is rounded from, in halves of a unit: twice the whole root, and one
more unless that is the root. -/
def rootHalves (n : Nat) : Nat := 2 * n.sqrt + if n.sqrt * n.sqrt = n then 0 else 1

theorem sqrt_fin {m : Magnitude} (hm : m.units ≠ 0) :
    (fin false m).sqrt = round false (rootHalves (m.units * unitsPerOne)) 2 := by
  rw [sqrt, if_neg hm, if_neg Bool.false_ne_true, sqrtMagnitude, floorSqrt_eq]
  rfl

/-- The root of a positive number is positive. -/
theorem sqrt_pos (hx : x.isFinite = true) (hpos : (zero false).lt x = true) :
    (zero false).lt x.sqrt = true := by
  obtain ⟨m, rfl, hm⟩ := exists_fin_of_pos hx hpos
  have hroot : 1 ≤ (m.units * unitsPerOne).sqrt :=
    Nat.sqrt_pos.mpr (Nat.mul_pos (Nat.pos_of_ne_zero hm) unitsPerOne_pos)
  have hlimit := unitLimit_pos
  have hone : (1 : Int) ≤ roundPlace (rootHalves (m.units * unitsPerOne)) 2 := by
    refine le_roundPlace (short_of_le (by decide)) (by omega) Nat.two_pos ?_
    rw [rootHalves]
    omega
  rw [sqrt_fin hm]
  exact lt_iff_place.mpr ⟨_, _, place_zero _, place_round_false .., by omega⟩

/-- And it is finite, since it has half as many digits above its last place. -/
theorem isFinite_sqrt_of_pos (hx : x.isFinite = true) (hpos : (zero false).lt x = true) :
    x.sqrt.isFinite = true := by
  obtain ⟨m, rfl, hm⟩ := exists_fin_of_pos hx hpos
  obtain ⟨e, he⟩ : ∃ e, topDigits + places = e + e := ⟨1586, rfl⟩
  have hsquare : m.units * unitsPerOne < 2 ^ e * 2 ^ e :=
    calc m.units * unitsPerOne < unitLimit * unitsPerOne :=
          Nat.mul_lt_mul_of_pos_right m.small unitsPerOne_pos
      _ = 2 ^ (topDigits + places) := by rw [unitLimit_eq, unitsPerOne_eq, Nat.pow_add]
      _ = 2 ^ e * 2 ^ e := by rw [he, Nat.pow_add]
  have hroot := Nat.sqrt_lt.mpr hsquare
  rw [sqrt_fin hm]
  refine AtMost.isFinite (v := 2 ^ e) (AtMost.of_place (place_round_false ..) Nat.two_pos
    (short_two_pow _) ?_) ?_
  · rw [Int.natAbs_natCast, rootHalves]
    split <;> omega
  · rw [unitLimit_eq]
    exact Nat.pow_lt_pow_right Nat.one_lt_two (by unfold topDigits places at *; omega)

end Binary64

end FriBound
