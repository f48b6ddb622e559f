import FriBound.Bound
import FriBound.Proofs.Range

/-!
# Products, quotients and repeated squaring

A product of numbers that are not negative is ordered as its factors are, for the same reason as a
sum: it is one rounding of the exact product. So is a quotient. The power by repeated squaring is a
tree of such products, and what products preserve it preserves.

For a base between zero and one the power falls as the exponent grows. This is not what the real
power says, since each product is rounded and neighbouring exponents lead to different trees. The
reason is one of carrying: going from `n` to `n + 1` replaces the lowest digits `0 1 … 1` by
`1 0 … 0`, hence the product of the first squares by the next square, and that square is the
smaller of the two (`powNatFrom_succ_le`).

## Main results

* `Binary64.mul_le_mul`, `Binary64.one_mul` — products and order
* `Binary64.place_div`, `Binary64.ne_zero_of_isFinite_div` — quotients by a positive number, by zero
* `Binary64.powNatFrom_half` — one step of repeated squaring
* `Binary64.powNat_antitone` — powers of a number between zero and one fall
-/

namespace FriBound

namespace Binary64

variable {x y r : Binary64}

/-! ### Products -/

/-- The exact product of a number with one is the number. -/
theorem one_mul (hx : x.isFinite = true) : ofInt 1 * x = x := by
  obtain ⟨o, ho, hunits⟩ := exists_one
  obtain ⟨s, x, rfl⟩ := exists_fin hx
  have hround : roundShort (o.units * x.units) unitsPerOne = x.units := by
    rw [hunits, Nat.mul_comm]
    exact roundShort_of_short x.short unitsPerOne_pos
  rw [ho, fin_mul_fin, round_of_lt hround, Bool.false_bne]

/-- Products of numbers that are not negative are ordered as their factors are. -/
theorem mul_le_mul {x' y' : Binary64} (hx : x ≤ x') (hy : y ≤ y') (hx0 : zero false ≤ x)
    (hy0 : zero false ≤ y) (hxfin : x'.isFinite = true) (hyfin : y'.isFinite = true) :
    x * y ≤ x' * y' := by
  have hxfin₀ := isFinite_of_le_of_le hx0 hx rfl hxfin
  have hyfin₀ := isFinite_of_le_of_le hy0 hy rfl hyfin
  obtain ⟨a, a', ha, ha', haa⟩ := le_iff_place.mp hx
  obtain ⟨b, b', hb, hb', hbb⟩ := le_iff_place.mp hy
  have hpos := (le_iff_of_place (place_zero _) ha).mp hx0
  have hpos' := (le_iff_of_place (place_zero _) hb).mp hy0
  refine le_iff_place.mpr ⟨_, _, place_mul hxfin₀ hyfin₀ ha hb, place_mul hxfin hyfin ha' hb', ?_⟩
  refine roundPlace_mono unitsPerOne_pos unitsPerOne_pos ?_
  exact Int.mul_le_mul_of_nonneg_right (Int.mul_le_mul haa hbb hpos' (by omega)) (by omega)

theorem mul_nonneg (hx : zero false ≤ x) (hy : zero false ≤ y) (hxfin : x.isFinite = true)
    (hyfin : y.isFinite = true) : zero false ≤ x * y := by
  obtain ⟨a, ha, hpos⟩ := zero_le_iff_place.mp hx
  obtain ⟨b, hb, hpos'⟩ := zero_le_iff_place.mp hy
  refine zero_le_iff_place.mpr ⟨_, place_mul hxfin hyfin ha hb, ?_⟩
  exact roundPlace_nonneg _ (Int.mul_nonneg hpos hpos')

theorem mul_comm (hx : x.isFinite = true) (hy : y.isFinite = true) : x * y = y * x := by
  obtain ⟨s, x, rfl⟩ := exists_fin hx
  obtain ⟨t, y, rfl⟩ := exists_fin hy
  rw [fin_mul_fin, fin_mul_fin, Nat.mul_comm, bne_comm]

/-! ### Quotients -/

theorem place_div {a : Int} {b : Nat} (hx : x.isFinite = true) (hy : y.isFinite = true)
    (ha : x.place = some a) (hb : y.place = some (b : Int)) (hpos : 0 < b) :
    (x / y).place = some (roundPlace (a * unitsPerOne) b) := by
  obtain ⟨s, x, rfl⟩ := exists_fin hx
  have hypos : (zero false).lt y = true :=
    lt_iff_place.mpr ⟨_, _, place_zero _, hb, Int.natCast_pos.mpr hpos⟩
  obtain ⟨y, rfl, hunits⟩ := exists_fin_of_pos hy hypos
  obtain rfl : y.units = b := by
    rw [place_fin, Option.some.injEq] at hb
    exact Int.ofNat_inj.mp hb
  obtain rfl := place_inj (place_fin s x) ha
  rw [fin_div_fin, if_neg hunits, place_round]
  congr 2
  cases s <;> grind [signed]

/-- A quotient of a number that is not negative by a positive one. -/
theorem div_nonneg (hx : x.isFinite = true) (hx0 : zero false ≤ x) (hy : y.isFinite = true)
    (hpos : (zero false).lt y = true) : zero false ≤ x / y := by
  obtain ⟨a, ha, ha0⟩ := zero_le_iff_place.mp hx0
  obtain ⟨m, rfl, hunits⟩ := exists_fin_of_pos hy hpos
  refine zero_le_iff_place.mpr ⟨_, place_div hx hy ha rfl (Nat.pos_of_ne_zero hunits), ?_⟩
  exact roundPlace_nonneg _ (Int.mul_nonneg ha0 (Int.natCast_nonneg _))

/-- A quotient by zero is never finite. -/
theorem ne_zero_of_isFinite_div (h : (x / y).isFinite = true) : ¬∃ s, y = zero s := by
  rintro ⟨t, rfl⟩
  obtain ⟨s, x, rfl⟩ := exists_fin (isFinite_div h).1
  rw [zero, fin_div_fin, if_pos units_zero] at h
  split at h <;> exact Bool.false_ne_true h

end Binary64

/-! ### Repeated squaring -/

namespace Scalar

variable {α : Type} [Scalar α]

theorem powNatFrom_zero (r x : α) : powNatFrom r x 0 = r := by
  rw [powNatFrom]
  rfl

/-- One step: the lowest digit goes into the result, the others are left for the square. -/
theorem powNatFrom_half (r x : α) (n : Nat) :
    powNatFrom r x n = powNatFrom (if n % 2 = 1 then r * x else r) (x * x) (n / 2) := by
  rw [powNatFrom]
  by_cases h : n / 2 = 0
  · rw [h, powNatFrom_zero]
    rfl
  · exact if_neg h

/-- The power of binary numbers does not depend on the choice of elementary functions. -/
theorem powNatFrom_scalar (E : Elementary) (r x : Binary64) (n : Nat) :
    @powNatFrom _ E.scalar r x n = powNatFrom r x n := by
  induction n using Nat.strongRecOn generalizing r x with
  | _ n ih =>
    rcases Nat.eq_zero_or_pos n with rfl | hn
    · exact (@powNatFrom_zero _ E.scalar r x).trans (powNatFrom_zero r x).symm
    · calc @powNatFrom _ E.scalar r x n
          = @powNatFrom _ E.scalar (if n % 2 = 1 then r * x else r) (x * x) (n / 2) :=
            @powNatFrom_half _ E.scalar r x n
        _ = powNatFrom (if n % 2 = 1 then r * x else r) (x * x) (n / 2) :=
            ih (n / 2) (by omega) _ _
        _ = powNatFrom r x n := (powNatFrom_half r x n).symm

end Scalar

namespace Binary64

open Scalar (powNatFrom_zero powNatFrom_half)

variable {x y r : Binary64}

/-- What products preserve is true of the power, each exponent being charged as it is used. -/
theorem powNatFrom_induction {P : Nat → Binary64 → Prop}
    (hmul : ∀ {k l : Nat} {x y : Binary64}, P k x → P l y → P (k + l) (x * y)) {k l : Nat}
    (hr : P k r) (hx : P l x) (n : Nat) : P (k + l * n) (Scalar.powNatFrom r x n) := by
  induction n using Nat.strongRecOn generalizing r x k l with
  | _ n ih =>
    rcases Nat.eq_zero_or_pos n with rfl | hn
    · rw [powNatFrom_zero, Nat.mul_zero, Nat.add_zero]
      exact hr
    rw [powNatFrom_half]
    have hstep := @ih (n / 2) (by omega)
    rcases Nat.mod_two_eq_zero_or_one n with h | h
    · have hcount : k + (l + l) * (n / 2) = k + l * n := by
        rw [← Nat.two_mul, Nat.mul_comm 2, Nat.mul_assoc, Nat.mul_div_cancel' (by omega)]
      rw [if_neg (by omega), ← hcount]
      exact hstep hr (hmul hx hx)
    · have hcount : k + l + (l + l) * (n / 2) = k + l * n := by
        have hn' : l * (1 + 2 * (n / 2)) = l * n := congrArg (l * ·) (by omega)
        rw [← hn', Nat.mul_add, Nat.mul_one, ← Nat.two_mul, Nat.mul_comm 2, Nat.mul_assoc,
          Nat.add_assoc]
      rw [if_pos h, ← hcount]
      exact hstep (hmul hr hx) (hmul hx hx)

/-! ### Numbers between zero and one -/

/-- The number lies between zero and one. -/
def InUnit (x : Binary64) : Prop := zero false ≤ x ∧ x ≤ ofInt 1

namespace InUnit

theorem isFinite (h : InUnit x) : x.isFinite = true :=
  isFinite_of_le_of_le h.1 h.2 rfl isFinite_one

theorem le_self (h : InUnit x) : x ≤ x := by
  obtain ⟨s, x, rfl⟩ := exists_fin h.isFinite
  exact le_refl (by simp)

theorem one : InUnit (ofInt 1) := by
  obtain ⟨o, ho, -⟩ := exists_one
  exact ⟨le_of_lt one_pos, le_refl (by simp [ho])⟩

theorem mul (hx : InUnit x) (hy : InUnit y) : InUnit (x * y) := by
  refine ⟨mul_nonneg hx.1 hy.1 hx.isFinite hy.isFinite, ?_⟩
  calc x * y ≤ ofInt 1 * ofInt 1 := mul_le_mul hx.2 hy.2 hx.1 hy.1 isFinite_one isFinite_one
    _ = ofInt 1 := one_mul isFinite_one

theorem powNatFrom (hr : InUnit r) (hx : InUnit x) (n : Nat) :
    InUnit (Scalar.powNatFrom r x n) :=
  powNatFrom_induction (P := fun _ => InUnit) (k := 0) (l := 0) mul hr hx n

theorem powNat (hx : InUnit x) (n : Nat) : InUnit (Scalar.powNat x n) := powNatFrom one hx n

end InUnit

/-- A smaller start gives a smaller power. -/
theorem powNatFrom_le {r' : Binary64} (hr' : InUnit r') (hr : InUnit r) (hle : r' ≤ r)
    (hx : InUnit x) (n : Nat) : Scalar.powNatFrom r' x n ≤ Scalar.powNatFrom r x n := by
  induction n using Nat.strongRecOn generalizing r r' x with
  | _ n ih =>
    rcases Nat.eq_zero_or_pos n with rfl | hn
    · rwa [powNatFrom_zero, powNatFrom_zero]
    rw [powNatFrom_half r', powNatFrom_half r]
    split
    · refine ih (n / 2) (by omega) (hr'.mul hx) (hr.mul hx) ?_ (hx.mul hx)
      exact mul_le_mul hle hx.le_self hr'.1 hx.1 hr.isFinite hx.isFinite
    · exact ih (n / 2) (by omega) hr' hr hle (hx.mul hx)

/-- **The step of one query.** The power with the exponent `n + 1` is at most the one with `n`, and
this stays so when the latter starts from a number above the base: such a start is the product of
the lower squares, once all lower digits of `n` are ones. -/
theorem powNatFrom_succ_le (hr : InUnit r) (hx : InUnit x) (hle : x ≤ r) (n : Nat) :
    Scalar.powNatFrom (ofInt 1) x (n + 1) ≤ Scalar.powNatFrom r x n := by
  induction n using Nat.strongRecOn generalizing r x with
  | _ n ih =>
    rw [powNatFrom_half (ofInt 1), powNatFrom_half r]
    rcases Nat.mod_two_eq_zero_or_one n with h | h
    · -- The digit zero becomes a one, and all higher digits agree.
      rw [if_pos (by omega), if_neg (by omega), one_mul hx.isFinite,
        show (n + 1) / 2 = n / 2 by omega]
      exact powNatFrom_le hx hr hle (hx.mul hx) (n / 2)
    · -- The digit one becomes a zero and is carried.
      rw [if_neg (by omega), if_pos h, show (n + 1) / 2 = n / 2 + 1 by omega]
      refine ih (n / 2) (by omega) (hr.mul hx) (hx.mul hx) ?_
      exact mul_le_mul hle hx.le_self hx.1 hx.1 hr.isFinite hx.isFinite

/-- **Powers of a number between zero and one fall as the exponent grows.** -/
theorem powNat_antitone (hx : InUnit x) {n k : Nat} (h : n ≤ k) :
    Scalar.powNat x k ≤ Scalar.powNat x n := by
  induction h with
  | refl => exact (hx.powNat n).le_self
  | step _ ih => exact le_trans (powNatFrom_succ_le .one hx hx.2 _) ih

end Binary64

end FriBound
