import FriBound.Proofs.Range

/-!
# Small numbers

Where a formula needs bounds below one, or bounds that are no power of two, sizes are counted in
grains, the `2 ^ 40`-th parts of one. Up to `2 ^ 53` grains a bound is a number of the format, so
rounding does not lead out of it.

## Main definitions

* `Binary64.Small` — a bound on the size, in grains

## Main results

* `Binary64.Small.add`, `Binary64.Small.mul` and others — bounds on results
-/

namespace FriBound

namespace Binary64

variable {x y : Binary64}

/-- The `2 ^ 40`-th part of one, in units. -/
def grain : Nat := 2 ^ (places - 40)

theorem grain_eq : grain = 2 ^ (places - 40) := rfl

-- Like the powers of two that belong to the format.
attribute [irreducible] grain

/-- The number is at most `n * 2 ^ (-40)` in size. -/
def Small (n : Nat) (x : Binary64) : Prop := AtMost (n * grain) x

instance {n : Nat} : Decidable (Small n x) := inferInstanceAs (Decidable (AtMost _ x))

theorem short_grains {n : Nat} (h : n ≤ 2 ^ 53) : Short (n * grain) :=
  ⟨n, places - 40, h, by rw [grain_eq]⟩

theorem grains_lt {n : Nat} (h : n ≤ 2 ^ 53) : n * grain < unitLimit := by
  have hlt : 2 ^ (53 + (places - 40)) < unitLimit := by
    rw [unitLimit_eq]
    exact Nat.pow_lt_pow_right Nat.one_lt_two (by decide)
  rw [Nat.pow_add, ← grain_eq] at hlt
  exact Nat.lt_of_le_of_lt (Nat.mul_le_mul_right grain h) hlt

theorem unitsPerOne_eq_mul_grain : unitsPerOne = 2 ^ 40 * grain := by
  rw [unitsPerOne_eq, grain_eq, ← Nat.pow_add, Nat.add_sub_cancel' (by decide)]

namespace Small

variable {m n l : Nat}

theorem isFinite (h : Small n x) (hn : n ≤ 2 ^ 53) : x.isFinite = true :=
  AtMost.isFinite h (grains_lt hn)

theorem mono (h : Small m x) (hmn : m ≤ n) : Small n x := AtMost.mono h (Nat.mul_le_mul_right _ hmn)

theorem leading (h : Small n x) (hn : n ≤ 2 ^ 53) (k : Nat) : Small n (x.leading k) :=
  AtMost.leading h (grains_lt hn) k

theorem add (hx : Small m x) (hy : Small n y) (h : m + n ≤ l ∧ l ≤ 2 ^ 53) : Small l (x + y) := by
  refine AtMost.add hx hy (grains_lt (by omega)) (grains_lt (by omega)) (short_grains h.2) ?_
  rw [← Nat.add_mul]
  exact Nat.mul_le_mul_right _ h.1

theorem sub (hx : Small m x) (hy : Small n y) (h : m + n ≤ l ∧ l ≤ 2 ^ 53) : Small l (x - y) :=
  hx.add (AtMost.neg hy) h

theorem mul (hx : Small m x) (hy : Small n y)
    (h : m * n ≤ l * 2 ^ 40 ∧ m ≤ 2 ^ 53 ∧ n ≤ 2 ^ 53 ∧ l ≤ 2 ^ 53) : Small l (x * y) := by
  obtain ⟨hmn, hm, hn, hl⟩ := h
  refine AtMost.mul hx hy (grains_lt hm) (grains_lt hn) (short_grains hl) ?_
  calc m * grain * (n * grain) = m * n * (grain * grain) := Nat.mul_mul_mul_comm ..
    _ ≤ l * 2 ^ 40 * (grain * grain) := Nat.mul_le_mul_right _ hmn
    _ = l * grain * unitsPerOne := by rw [unitsPerOne_eq_mul_grain, Nat.mul_mul_mul_comm]

/-- A number differs from a sum with it by about what was added. -/
theorem sub_add (hx : Small m x) (hy : Small n y) (h : m + n ≤ 2 ^ 53 ∧ 2 * n ≤ l ∧ l ≤ 2 ^ 53) :
    Small l (x - (x + y)) := by
  obtain ⟨hmn, hnl, hl⟩ := h
  have hxy := (hx.add hy ⟨Nat.le_refl _, hmn⟩).isFinite hmn
  refine AtMost.sub_add hx hy (grains_lt (by omega)) (grains_lt (by omega)) hxy (short_grains hl) ?_
  rw [← Nat.mul_assoc]
  exact Nat.mul_le_mul_right _ hnl

theorem ofInt {n : Int} {k : Nat} (h : n.natAbs ≤ k ∧ k ≤ 2 ^ 13) :
    Small (k * 2 ^ 40) (ofInt n) := by
  refine ⟨_, place_ofInt_of_short (by omega), ?_⟩
  rw [Int.natAbs_mul, Int.natAbs_natCast, unitsPerOne_eq_mul_grain, ← Nat.mul_assoc]
  exact Nat.mul_le_mul_right _ (Nat.mul_le_mul_right _ h.1)

theorem abs_le {k : Nat} (h : Small (k * 2 ^ 40) x) (hk : k ≤ 2 ^ 13) :
    x.abs ≤ Binary64.ofInt k := by
  obtain ⟨a, ha, hak⟩ := h
  refine abs_le_iff_place.mpr ⟨a, _, ha, place_ofInt_of_short (by omega), ?_⟩
  rw [Nat.mul_assoc, ← unitsPerOne_eq_mul_grain] at hak
  exact_mod_cast hak

end Small

end Binary64

end FriBound
