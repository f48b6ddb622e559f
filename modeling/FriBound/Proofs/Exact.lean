import Mathlib
import FriBound.LogBound

/-!
# The exact reading

The formulas of the bound are written over any kind of number. Here they are read over the extended
real numbers, where every operation has its exact value: nothing is rounded, `⊥` is the logarithm of
zero, and `⊥` is the one exponent whose power of two vanishes.

The operations are total. Outside their domain (the logarithm and the root of a negative number, a
power with an infinite side) their value has no meaning, and the theorems about the bound do not
reach it: with a positive `m` every root and every logarithm is taken of a number that is not
negative.

## Main definitions

* `Exact.exp2`, `Exact.log2`, `Exact.sqrt`, `Exact.pow` — the functions
* the instance of `Scalar` on `EReal`
* `Exact.weight` — the power of two as a real number
* `Exact.realRate`, `realAlpha`, `realAritySum`, `realProximity`, `realFolding` — the parts of the
  bound as real numbers
* `Exact.clipped` — what the exponent of the squared domain size loses
* `Exact.logScaleTotal` — the sum whose logarithm is evaluated

## Main results

* `Exact.powNat_coe`, `Exact.sum_coe` — repeated squaring is the power, the running sum is the sum
* `Exact.log2SumExp2_eq` — taking out the largest exponent first does not change the logarithm of a
  sum of powers
-/

namespace FriBound

namespace Exact

/-! ### The functions -/

/-- `2 ^ x`, which vanishes at minus infinity. -/
noncomputable def exp2 : EReal → EReal
  | ⊥ => 0
  | ⊤ => ⊤
  | (x : ℝ) => ((2 ^ x : ℝ) : EReal)

/-- The logarithm to base two, minus infinity at zero. -/
noncomputable def log2 : EReal → EReal
  | ⊥ => ⊥
  | ⊤ => ⊤
  | (x : ℝ) => if x = 0 then ⊥ else (Real.logb 2 x : EReal)

/-- The square root. -/
noncomputable def sqrt : EReal → EReal
  | ⊥ => ⊥
  | ⊤ => ⊤
  | (x : ℝ) => (√x : EReal)

/-- The power of real numbers. -/
noncomputable def pow (x y : EReal) : EReal := ((x.toReal ^ y.toReal : ℝ) : EReal)

open Classical in
noncomputable instance : Scalar EReal where
  ofInt n := ((n : ℝ) : EReal)
  ofHalves n := ((n / 2 : ℝ) : EReal)
  negInf := ⊥
  sqrt := sqrt
  exp2 := exp2
  log2 := log2
  pow := pow
  larger := max
  lt x y := decide (x < y)
  same x y := decide (x = y)
  isFinite x := decide (x ≠ ⊥ ∧ x ≠ ⊤)
  isNaN _ := false

theorem ofInt_eq (n : ℤ) : (Scalar.ofInt n : EReal) = ((n : ℝ) : EReal) := rfl

theorem ofHalves_eq (n : ℤ) : (Scalar.ofHalves n : EReal) = ((n / 2 : ℝ) : EReal) := rfl

theorem exp2_coe (x : ℝ) : exp2 x = ((2 ^ x : ℝ) : EReal) := rfl

theorem sqrt_coe (x : ℝ) : sqrt x = (√x : EReal) := rfl

theorem pow_coe (x y : ℝ) : pow x y = ((x ^ y : ℝ) : EReal) := rfl

theorem isFinite_coe (x : ℝ) : Scalar.isFinite (x : EReal) = true := by
  simp [Scalar.isFinite]

theorem isFinite_bot : Scalar.isFinite (⊥ : EReal) = false := by
  simp [Scalar.isFinite]

/-! ### Logarithms -/

theorem log2_zero : log2 (0 : ℝ) = ⊥ := if_pos rfl

theorem log2_coe {x : ℝ} (h : x ≠ 0) : log2 x = (Real.logb 2 x : ℝ) := if_neg h

theorem logb_two_rpow (x : ℝ) : Real.logb 2 (2 ^ x) = x :=
  Real.logb_rpow two_pos (by norm_num)

theorem log2_coe_ne_top (x : ℝ) : log2 x ≠ ⊤ := by
  by_cases hx : x = 0
  · rw [hx, log2_zero]
    exact bot_ne_top
  · rw [log2_coe hx]
    exact EReal.coe_ne_top _

/-- The logarithm of a product whose second factor may vanish. -/
theorem log2_coe_mul {x : ℝ} (hx : 0 < x) (y : ℝ) :
    log2 ((x * y : ℝ) : EReal) = (Real.logb 2 x : ℝ) + log2 y := by
  by_cases hy : y = 0
  · rw [hy, mul_zero, log2_zero, EReal.add_bot]
  · rw [log2_coe (mul_ne_zero hx.ne' hy), Real.logb_mul hx.ne' hy, log2_coe hy, EReal.coe_add]

theorem exp2_log2 {x : ℝ} (hx : 0 ≤ x) : exp2 (log2 x) = x := by
  rcases hx.eq_or_lt with rfl | hx
  · rw [log2_zero]
    rfl
  · rw [log2_coe hx.ne', exp2_coe, Real.rpow_logb two_pos (by norm_num) hx]

/-! ### Powers and sums -/

theorem powNatFrom_coe (r x : ℝ) (n : ℕ) :
    Scalar.powNatFrom (r : EReal) x n = ((r * x ^ n : ℝ) : EReal) := by
  induction n using Nat.strong_induction_on generalizing r x with
  | _ n ih =>
    have hn : n = 2 * (n / 2) + n % 2 := by omega
    have hx : x ^ n = (x * x) ^ (n / 2) * x ^ (n % 2) := by
      conv_lhs => rw [hn, pow_add, pow_mul, pow_two]
    have hr : (if n % 2 = 1 then (r : EReal) * x else r) = ((r * x ^ (n % 2) : ℝ) : EReal) := by
      rcases Nat.mod_two_eq_zero_or_one n with h | h <;> simp [h]
    have hsquare : (x : EReal) * x = ((x * x : ℝ) : EReal) := (EReal.coe_mul x x).symm
    rw [Scalar.powNatFrom, hsquare]
    simp only [hr]
    by_cases h0 : n / 2 = 0
    · rw [if_pos h0, hx, h0, pow_zero, one_mul]
    · rw [if_neg h0, ih (n / 2) (by omega), hx]
      congr 1
      ring

theorem powNat_coe (x : ℝ) (n : ℕ) : Scalar.powNat (x : EReal) n = ((x ^ n : ℝ) : EReal) := by
  have h1 : (Scalar.ofInt 1 : EReal) = ((1 : ℝ) : EReal) := by rw [ofInt_eq, Int.cast_one]
  rw [Scalar.powNat, h1, powNatFrom_coe, one_mul]

theorem foldl_add_coe (a : ℝ) (xs : List ℝ) :
    (xs.map fun x : ℝ => (x : EReal)).foldl (· + ·) (a : EReal) = ((a + xs.sum : ℝ) : EReal) := by
  induction xs generalizing a with
  | nil => simp
  | cons x xs ih =>
    rw [List.map_cons, List.foldl_cons, ← EReal.coe_add, ih, List.sum_cons, add_assoc]

theorem sum_coe (xs : List ℝ) :
    Scalar.sum (xs.map fun x : ℝ => (x : EReal)) = ((xs.sum : ℝ) : EReal) := by
  have h0 : (-Scalar.ofInt 0 : EReal) = ((0 : ℝ) : EReal) := by
    rw [ofInt_eq, Int.cast_zero, EReal.coe_zero, neg_zero]
  rw [Scalar.sum, h0]
  exact (foldl_add_coe 0 xs).trans (by rw [zero_add])

/-! ### The logarithm of a sum of powers -/

/-- `2 ^ x` as a real number. -/
noncomputable def weight (x : EReal) : ℝ := (exp2 x).toReal

@[simp] theorem weight_bot : weight ⊥ = 0 := EReal.toReal_zero

@[simp] theorem weight_coe (x : ℝ) : weight x = 2 ^ x := EReal.toReal_coe _

theorem weight_nonneg (x : EReal) : 0 ≤ weight x := by
  induction x with
  | bot => exact weight_bot.ge
  | top => exact EReal.toReal_top.ge
  | coe x => rw [weight_coe]; positivity

theorem weight_log2 {x : ℝ} (hx : 0 ≤ x) : weight (log2 x) = x := by
  rw [weight, exp2_log2 hx, EReal.toReal_coe]

theorem exp2_sub_coe {x : EReal} (hx : x ≠ ⊤) (t : ℝ) :
    exp2 (x - t) = ((weight x * 2 ^ (-t) : ℝ) : EReal) := by
  induction x with
  | bot => rw [weight_bot, zero_mul]; rfl
  | top => exact absurd rfl hx
  | coe x =>
    rw [weight_coe, ← EReal.coe_sub, exp2_coe, ← Real.rpow_add two_pos, ← sub_eq_add_neg]

/-- The largest of a list is an upper bound of it, and one of its members unless it is where the
search started. -/
theorem foldl_max_spec (a : EReal) (xs : List EReal) :
    (∀ x ∈ xs, x ≤ xs.foldl max a) ∧ a ≤ xs.foldl max a ∧
      (xs.foldl max a = a ∨ xs.foldl max a ∈ xs) := by
  induction xs generalizing a with
  | nil => simp
  | cons y ys ih =>
    obtain ⟨hall, hstart, hmem⟩ := ih (max a y)
    rw [List.foldl_cons]
    refine ⟨?_, (le_max_left a y).trans hstart, ?_⟩
    · intro x hx
      rcases List.mem_cons.mp hx with rfl | hx
      · exact (le_max_right a x).trans hstart
      · exact hall x hx
    · rcases hmem with h | h
      · rcases max_choice a y with hay | hay
        · exact Or.inl (h.trans hay)
        · exact Or.inr (by rw [h, hay]; exact List.mem_cons_self ..)
      · exact Or.inr (List.mem_cons_of_mem _ h)

theorem sum_weight_pos {xs : List EReal} {t : ℝ} (ht : (t : EReal) ∈ xs) :
    0 < (xs.map weight).sum := by
  have hnn : ∀ w ∈ xs.map weight, 0 ≤ w := by
    intro w hw
    obtain ⟨x, -, rfl⟩ := List.mem_map.mp hw
    exact weight_nonneg x
  calc (0 : ℝ) < weight t := by rw [weight_coe]; positivity
    _ ≤ (xs.map weight).sum := List.single_le_sum hnn _ (List.mem_map_of_mem ht)

/-- **Taking out the largest exponent changes nothing.** The logarithm of a sum of powers of two is
what its name says. Terms that vanish are minus infinity in the list, and so is the result when all
of them vanish. -/
theorem log2SumExp2_eq {xs : List EReal} (hxs : ∀ x ∈ xs, x ≠ ⊤) :
    Scalar.log2SumExp2 xs = log2 ((xs.map weight).sum : ℝ) := by
  obtain ⟨hle, -, hmem⟩ := foldl_max_spec ⊥ xs
  have htop : Scalar.largest xs = xs.foldl max ⊥ := rfl
  rw [Scalar.log2SumExp2, htop]
  by_cases hbot : xs.foldl max ⊥ = ⊥
  · have hzero : (xs.map weight).sum = 0 := by
      apply List.sum_eq_zero
      intro w hw
      obtain ⟨x, hx, rfl⟩ := List.mem_map.mp hw
      have hxbot : x = ⊥ := le_bot_iff.mp (hbot ▸ hle x hx)
      rw [hxbot, weight_bot]
    rw [hbot, isFinite_bot, hzero, log2_zero]
    rfl
  · have hin : xs.foldl max ⊥ ∈ xs := hmem.resolve_left hbot
    generalize xs.foldl max ⊥ = top at *
    lift top to ℝ using ⟨hxs top hin, hbot⟩
    have hmap : (xs.map fun x => Scalar.exp2 (x - (top : EReal)))
        = ((xs.map weight).map (· * 2 ^ (-top))).map fun w : ℝ => (w : EReal) := by
      rw [List.map_map, List.map_map]
      exact List.map_congr_left fun x hx => exp2_sub_coe (hxs x hx) top
    have hsum : Scalar.sum (xs.map fun x => Scalar.exp2 (x - (top : EReal)))
        = ((2 ^ (-top) * (xs.map weight).sum : ℝ) : EReal) := by
      rw [hmap, sum_coe, List.sum_map_mul_right, List.map_id', mul_comm]
    have hpos : 0 < (xs.map weight).sum := sum_weight_pos hin
    rw [isFinite_coe, if_pos rfl, hsum]
    calc (top : EReal) + log2 ((2 ^ (-top) * (xs.map weight).sum : ℝ) : EReal)
        = (top : EReal) + ((-top : ℝ) + log2 ((xs.map weight).sum : ℝ)) := by
          rw [log2_coe_mul (by positivity), logb_two_rpow]
      _ = log2 ((xs.map weight).sum : ℝ) := by
          rw [← add_assoc, ← EReal.coe_add, add_neg_cancel, EReal.coe_zero, zero_add]

/-! ### The bound as a real number -/

/-- The rate of the code. -/
noncomputable def realRate (p : Params EReal) : ℝ := 2 ^ (-(p.rateBits.toInt : ℝ))

/-- The chance of one query. -/
noncomputable def realAlpha (p : Params EReal) (m : ℝ) : ℝ :=
  √(realRate p) * (1 + 1 / (2 * m))

/-- The sum of the folding arities. -/
noncomputable def realAritySum (p : Params EReal) : ℝ :=
  (p.arityBits.map fun a => (2 : ℝ) ^ (a.toNat : ℝ)).sum

/-- The proximity error. -/
noncomputable def realProximity (p : Params EReal) (m : ℝ) : ℝ :=
  (m + 1 / 2) ^ 7 * 2 ^ (p.codewordSquareBits : ℝ)
    / (2 * realRate p ^ (3 / 2 : ℝ) * 2 ^ (p.fieldSizeBits.toInt : ℝ))

/-- The folding error. -/
noncomputable def realFolding (p : Params EReal) (m : ℝ) : ℝ :=
  (2 * m + 1) * (2 ^ (p.codewordSizeBits.toInt : ℝ) + 1) / √(realRate p) * realAritySum p
    / 2 ^ (p.fieldSizeBits.toInt : ℝ)

theorem realFolding_of_nil {p : Params EReal} (h : p.arityBits = []) (m : ℝ) :
    realFolding p m = 0 := by
  simp [realFolding, realAritySum, h]

/-- What the exponent of the squared domain size loses by being kept within its word. -/
def clipped (p : Params EReal) : ℤ := 2 * p.codewordSizeBits.toInt - p.codewordSquareBits

/-- The sum whose logarithm is evaluated: the terms, with the exponent that was not clipped. -/
noncomputable def logScaleTotal (p : Params EReal) (m : ℝ) : ℝ :=
  2 ^ (clipped p : ℝ) * realProximity p m + realFolding p m + realAlpha p m ^ p.numQueries.toNat

end Exact

end FriBound
