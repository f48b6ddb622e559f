import FriBound.Proofs.LogSum

/-!
# Whole exponents

A choice of elementary functions that looks at exponents only: the power of two is taken at the
whole part of its exponent, and the logarithm is the whole part of the true one. It is coarse, and
exact where values are powers of two. It shows that what is asked of elementary functions can be
had together.

## Main definitions

* `Elementary.whole` — the choice

## Main results

* `Elementary.logLaws_whole` — it obeys the laws
-/

namespace FriBound

namespace Binary64

theorem twoPow_zero : twoPow 0 = ofInt 1 := by
  obtain ⟨o, ho, -⟩ := exists_one
  rw [twoPow, ho]
  exact round_of_lt (roundShort_of_short o.short Nat.one_pos)

/-- A power of two with an exponent that is not positive. -/
theorem twoPow_bounds {n : Int} (hn : n ≤ 0) : zero false ≤ twoPow n ∧ twoPow n ≤ ofInt 1 := by
  obtain ⟨o, ho, hunits⟩ := exists_one
  have hbounds : ∀ {x : Binary64} {b : Nat}, 0 < b → x.place = some (roundPlace o.units b) →
      zero false ≤ x ∧ x ≤ ofInt 1 := by
    intro x b hb hx
    refine ⟨zero_le_iff_place.mpr ⟨_, hx, roundPlace_nonneg b (by omega)⟩, ?_⟩
    refine le_iff_place.mpr ⟨_, _, hx, place_one, ?_⟩
    calc roundPlace o.units b ≤ roundPlace (o.units * (1 : Nat)) 1 := by
          refine roundPlace_mono hb Nat.one_pos ?_
          rw [Int.mul_assoc]
          exact Int.mul_le_mul_of_nonneg_left (by omega) (by omega)
      _ = unitsPerOne := by
          rw [hunits]
          exact roundPlace_place place_one Nat.one_pos
  have htwo : twoPow n = scale (fin false o) n := congrArg (scale · n) ho
  rw [htwo]
  cases n with
  | ofNat e =>
    obtain rfl : e = 0 := by
      have : (Int.ofNat e) = (e : Int) := rfl
      omega
    rw [scale, Nat.pow_zero, Nat.mul_one]
    exact hbounds Nat.one_pos (place_round_false ..)
  | negSucc e =>
    rw [scale]
    exact hbounds (Nat.two_pow_pos _) (place_round_false ..)

/-- The power of two whose exponent is the whole part of `x`. -/
def wholeExp2 : Binary64 → Binary64
  | .nan => .nan
  | .inf neg => if neg then zero false else .inf false
  | .fin neg x => twoPow (signed neg x / unitsPerOne)

/-- The whole part of the logarithm. -/
def wholeLog2 : Binary64 → Binary64
  | .nan => .nan
  | .inf neg => if neg then .nan else .inf false
  | .fin neg x =>
    if x.units = 0 then .inf true else if neg then .nan else .ofInt (x.units.log2 - places)

theorem wholeLog2_fin {m : Magnitude} (hm : m.units ≠ 0) :
    wholeLog2 (fin false m) = ofInt (m.units.log2 - places) := by
  rw [wholeLog2, if_neg hm, if_neg Bool.false_ne_true]

end Binary64

namespace Elementary

open Binary64

/-- Elementary functions that are exact for whole exponents, and for powers of two. -/
def whole : Elementary where
  exp2 := wholeExp2
  log2 := wholeLog2
  pow x y := wholeExp2 (y * wholeLog2 x)

theorem logLaws_whole : whole.LogLaws where
  abs_log2_le x hx hpos := by
    obtain ⟨m, rfl, hm⟩ := exists_fin_of_pos hx hpos
    have hlog := m.small
    rw [unitLimit_eq, ← Nat.log2_lt hm] at hlog
    show (wholeLog2 (fin false m)).abs ≤ _
    rw [wholeLog2_fin hm]
    have hle : (m.units.log2 - places : Int).natAbs ≤ 1074 := by
      unfold topDigits at hlog
      unfold places
      omega
    exact abs_ofInt_le hle
  log2_inf := rfl
  log2_nan := rfl
  exp2_zero := by
    show twoPow ((0 : Int) / unitsPerOne) = _
    rw [Int.zero_ediv, twoPow_zero]
  exp2_nan := rfl
  exp2_bounds x hx := by
    show zero false ≤ wholeExp2 x ∧ wholeExp2 x ≤ ofInt 1
    cases hfin : x.isFinite with
    | false =>
      rw [eq_inf_of_nonpos hx hfin]
      exact ⟨zero_le_zero, le_of_lt one_pos⟩
    | true =>
      obtain ⟨s, m, rfl⟩ := exists_fin hfin
      have hneg := (le_iff_of_place (place_fin s m) (place_zero false)).mp hx
      have hunit := unitsPerOne_pos
      rw [wholeExp2]
      exact twoPow_bounds (Int.ediv_nonpos_of_nonpos_of_neg (by omega) (by omega))

end Elementary

end FriBound
