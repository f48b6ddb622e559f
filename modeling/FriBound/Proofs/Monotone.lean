import FriBound.Proofs.ValidBound
import Mathlib.Data.List.Forall2

/-!
# How results move with their operands

The terms of the bound are sums, products and quotients of numbers that are not negative, and a
rounded operation keeps the order of its operands. This module carries that through the places where
a result may be infinite: the last sum, which is not checked, and a divisor, which may be out of
range without anything else being so.

Equality is the usual outcome of rounding, so that an order is strict has a reason of its own. Twice
the divisor halves the quotient, and a half of a number of four units or more is rounded to
something smaller than the number is (`roundShort_lt_roundShort`).

## Main definitions

* `Binary64.Dominated` — a number lies between zero and a finite one

## Main results

* `Binary64.mul_le_mul_of_nonneg`, `Binary64.mul_le_mul_of_pos` — products that may be infinite
* `Binary64.div_le_div`, `Binary64.div_le_div_left`, `Binary64.div_lt_div` — quotients and order
* `Binary64.Dominated.foldl_add` — a running sum grows with its summands and their number
* `Binary64.Dominated.powNat` — a power grows with its base
* `Binary64.sqrt_pos_of_isFinite_div`, `Binary64.sqrt_le_sqrt`, `Binary64.sqrt_le_one` — roots
* `Elementary.dominated_folding`, `Elementary.dominated_proximity` — the errors of an instance and
  what they grow with
-/

namespace FriBound

/-! ### Halves -/

/-- A quotient of four or more is rounded to a larger number than its half is. Between the two lies
a number of two binary digits, next to the power of two that starts the digits of the quotient. -/
theorem roundShort_lt_roundShort {a b b' : Nat} (hb : 0 < b) (hbb : 2 * b ≤ b') (h : 4 * b ≤ a) :
    roundShort a b' < roundShort a b := by
  have hb' : 0 < b' := by omega
  have hquot : 4 ≤ a / b := (Nat.le_div_iff_mul_le hb).mpr h
  obtain ⟨k, hk⟩ : ∃ k, (a / b).log2 = k + 2 :=
    ⟨(a / b).log2 - 2, by have := (Nat.le_log2 (n := a / b) (k := 2) (by omega)).mpr hquot; omega⟩
  have hlow : 2 ^ (k + 2) * b ≤ a :=
    (Nat.le_div_iff_mul_le hb).mp (hk ▸ Nat.log2_self_le (by omega))
  have hhigh : a < 2 ^ (k + 2 + 1) * b :=
    (Nat.div_lt_iff_lt_mul hb).mp (hk ▸ Nat.lt_log2_self)
  have hpos := Nat.two_pow_pos k
  have hthree : ∀ s, Short (3 * 2 ^ s) := fun s => ⟨3, s, by decide, rfl⟩
  have hdouble : ∀ c : Nat, c * 2 * b ≤ c * b' := by
    intro c
    rw [Nat.mul_assoc]
    exact Nat.mul_le_mul_left c hbb
  rcases Nat.lt_or_ge a (3 * 2 ^ (k + 1) * b) with hlt | hge
  · calc roundShort a b' ≤ 3 * 2 ^ k := by
          refine roundShort_le (hthree k) hb' ?_
          have hle := hdouble (3 * 2 ^ k)
          rw [Nat.pow_succ, ← Nat.mul_assoc] at hlt
          omega
      _ < 2 ^ (k + 2) := by
          rw [Nat.pow_add]
          omega
      _ ≤ roundShort a b := le_roundShort (short_two_pow _) hb hlow
  · calc roundShort a b' ≤ 2 ^ (k + 2) := by
          refine roundShort_le (short_two_pow _) hb' ?_
          have hle := hdouble (2 ^ (k + 2))
          rw [Nat.pow_succ _ (k + 2)] at hhigh
          omega
      _ < 3 * 2 ^ (k + 1) := by
          rw [Nat.pow_add, Nat.pow_succ]
          omega
      _ ≤ roundShort a b := le_roundShort (hthree _) hb hge

namespace Binary64

variable {x y z c x' : Binary64}

/-! ### Sums -/

/-- A finite number is added to two numbers that are not negative and may be infinite. -/
theorem add_le_add_right (hxy : x ≤ y) (hx : zero false ≤ x) (hz : z.isFinite = true) :
    x + z ≤ y + z := by
  cases hy : y.isFinite with
  | true =>
    have hxfin := isFinite_of_le_of_le hx hxy rfl hy
    exact add_le_add hxy (le_refl (ne_nan_of_isFinite hz)) ⟨hxfin, hz⟩ ⟨hy, hz⟩
  | false =>
    rw [eq_inf_of_nonneg (le_trans hx hxy) hy, inf_add false hz]
    refine le_inf ?_
    cases hxfin : x.isFinite with
    | true =>
      obtain ⟨s, x, rfl⟩ := exists_fin hxfin
      obtain ⟨t, z, rfl⟩ := exists_fin hz
      exact (ne_nan_of_le (le_iff_place.mpr
        ⟨_, _, place_fin_add_fin .., place_fin_add_fin .., Int.le_refl _⟩)).1
    | false =>
      rw [eq_inf_of_nonneg hx hxfin, inf_add false hz]
      simp

theorem add_le_add_left (hxy : x ≤ y) (hx : zero false ≤ x) (hz : z.isFinite = true) :
    z + x ≤ z + y := by
  have hcomm : ∀ {w : Binary64}, zero false ≤ w → z + w = w + z := by
    intro w hw
    cases hfin : w.isFinite with
    | true => exact add_comm hz hfin
    | false => rw [eq_inf_of_nonneg hw hfin, add_inf false hz, inf_add false hz]
  rw [hcomm hx, hcomm (le_trans hx hxy)]
  exact add_le_add_right hxy hx hz

/-- What is not negative does not lower a finite number, in range or out of it. -/
theorem le_add_of_zero_le (hx : x.isFinite = true) (hy : zero false ≤ y) : x ≤ x + y :=
  le_trans (le_add_of_nonneg hx rfl zero_le_zero).1 (add_le_add_left hy zero_le_zero hx)

/-- The factor of `alpha` that comes from `m` is positive, in range or out of it. -/
theorem one_add_pos (hx : zero false ≤ x) : (zero false).lt (ofInt 1 + x) = true :=
  lt_of_lt_of_le one_pos (le_add_of_zero_le isFinite_one hx)

theorem le_foldl_add {t : Binary64} {ys : List Binary64} (hys : ∀ y ∈ ys, zero false ≤ y)
    (hfin : (ys.foldl (· + ·) t).isFinite = true) : t ≤ ys.foldl (· + ·) t := by
  induction ys generalizing t with
  | nil => exact le_refl (ne_nan_of_isFinite hfin)
  | cons y ys ih =>
    obtain ⟨hy, hys⟩ := List.forall_mem_cons.mp hys
    have hstep : Scalar.isFinite (t + y) = true := (Scalar.isFinite_foldl_add hfin).1
    obtain ⟨htfin, hyfin⟩ := isFinite_add hstep
    exact le_trans (le_add_of_nonneg htfin hyfin hy).1 (ih hys hfin)

/-- No summand is above the sum. -/
theorem le_foldl_add_of_mem {t : Binary64} {ys : List Binary64} (ht : zero false ≤ t)
    (hys : ∀ y ∈ ys, zero false ≤ y) (hfin : (ys.foldl (· + ·) t).isFinite = true)
    (hx : x ∈ ys) : x ≤ ys.foldl (· + ·) t := by
  induction ys generalizing t with
  | nil => simp at hx
  | cons y ys ih =>
    obtain ⟨hy, hrest⟩ := List.forall_mem_cons.mp hys
    have hstep : Scalar.isFinite (t + y) = true := (Scalar.isFinite_foldl_add hfin).1
    obtain ⟨htfin, hyfin⟩ := isFinite_add hstep
    rcases List.mem_cons.mp hx with rfl | hx
    · exact le_trans (le_add_of_nonneg hyfin htfin ht).2 (le_foldl_add hrest hfin)
    · exact ih (add_nonneg ht hy hstep) hrest hfin hx

/-- Of two numbers that are not negative one is infinite. -/
theorem add_eq_inf {y : Binary64} (hx : zero false ≤ x) (hy : zero false ≤ y)
    (h : x = inf false ∨ y = inf false) : x + y = inf false := by
  cases hxfin : x.isFinite with
  | true =>
    rcases h with rfl | rfl
    · exact absurd hxfin (by simp [isFinite])
    · exact add_inf false hxfin
  | false =>
    rw [eq_inf_of_nonneg hx hxfin]
    cases hyfin : y.isFinite with
    | true => exact inf_add false hyfin
    | false =>
      rw [eq_inf_of_nonneg hy hyfin]
      rfl

theorem zero_le_add {y : Binary64} (hx : zero false ≤ x) (hy : zero false ≤ y) :
    zero false ≤ x + y := by
  by_cases h : x.isFinite = true ∧ y.isFinite = true
  · exact le_trans hx (le_add_of_nonneg h.1 h.2 hy).1
  · have hinf : x = inf false ∨ y = inf false := by
      rcases Decidable.not_and_iff_or_not.mp h with hxfin | hyfin
      · exact .inl (eq_inf_of_nonneg hx (Bool.eq_false_of_not_eq_true hxfin))
      · exact .inr (eq_inf_of_nonneg hy (Bool.eq_false_of_not_eq_true hyfin))
    rw [add_eq_inf hx hy hinf]
    exact le_of_lt (zero_lt_inf false)

/-- A running sum that meets an infinite number stays there. -/
theorem foldl_add_eq_inf {t : Binary64} {ys : List Binary64} (ht : zero false ≤ t)
    (hys : ∀ y ∈ ys, zero false ≤ y) (h : t = inf false ∨ inf false ∈ ys) :
    ys.foldl (· + ·) t = inf false := by
  induction ys generalizing t with
  | nil => exact h.resolve_right List.not_mem_nil
  | cons y ys ih =>
    obtain ⟨hy, hys⟩ := List.forall_mem_cons.mp hys
    refine ih (zero_le_add ht hy) hys ?_
    rcases h with rfl | hmem
    · exact .inl (add_eq_inf ht hy (.inl rfl))
    · exact (List.mem_cons.mp hmem).imp_left fun hinf => add_eq_inf ht hy (.inr hinf.symm)

/-! ### Products -/

/-- An infinite number times a positive one, which may be infinite too. -/
theorem inf_mul_of_pos (hpos : (zero false).lt y = true) :
    inf false * y = inf false ∧ y * inf false = inf false := by
  cases hfin : y.isFinite with
  | true =>
    obtain ⟨m, rfl, hm⟩ := exists_fin_of_pos hfin hpos
    refine ⟨?_, mul_inf_of_pos rfl hpos⟩
    show mul _ _ = _
    rw [mul, if_neg hm]
    rfl
  | false =>
    rw [eq_inf_of_nonneg (le_of_lt hpos) hfin]
    exact ⟨rfl, rfl⟩

/-- A number that is not negative and may be infinite, times a positive finite one. -/
theorem zero_le_mul (hx : zero false ≤ x) (hy : y.isFinite = true)
    (hpos : (zero false).lt y = true) : zero false ≤ x * y ∧ zero false ≤ y * x := by
  cases hfin : x.isFinite with
  | true =>
    exact ⟨mul_nonneg hx (le_of_lt hpos) hfin hy, mul_nonneg (le_of_lt hpos) hx hy hfin⟩
  | false =>
    obtain ⟨hinf, hinf'⟩ := inf_mul_of_pos hpos
    rw [eq_inf_of_nonneg hx hfin, hinf, hinf']
    exact ⟨le_of_lt (zero_lt_inf false), le_of_lt (zero_lt_inf false)⟩

/-- Products with a positive finite number are ordered as the other factor, which may be
infinite. -/
theorem mul_le_mul_of_nonneg (hx : zero false ≤ x) (hxx : x ≤ x') (hy : y.isFinite = true)
    (hpos : (zero false).lt y = true) : x * y ≤ x' * y ∧ y * x ≤ y * x' := by
  cases hfin : x'.isFinite with
  | true =>
    have hyy := le_refl (ne_nan_of_isFinite hy)
    exact ⟨mul_le_mul hxx hyy hx (le_of_lt hpos) hfin hy,
      mul_le_mul hyy hxx (le_of_lt hpos) hx hy hfin⟩
  | false =>
    obtain ⟨hleft, hright⟩ := zero_le_mul hx hy hpos
    obtain ⟨hinf, hinf'⟩ := inf_mul_of_pos hpos
    rw [eq_inf_of_nonneg (le_trans hx hxx) hfin, hinf, hinf']
    exact ⟨le_inf (ne_nan_of_le hleft).2, le_inf (ne_nan_of_le hright).2⟩

/-- A positive finite factor keeps the order above a finite number of any sign. -/
theorem mul_le_mul_left_of_pos (hxy : x ≤ y) (hx : x.isFinite = true) (hc : c.isFinite = true)
    (hpos : (zero false).lt c = true) : c * x ≤ c * y := by
  obtain ⟨a, b, ha, hb, hab⟩ := le_iff_place.mp hxy
  obtain ⟨k, hk, hk0⟩ := zero_le_iff_place.mp (le_of_lt hpos)
  have hplace := place_mul hc hx hk ha
  rcases isFinite_or_eq_inf_of_le hxy hx with hy | rfl
  · refine le_iff_place.mpr ⟨_, _, hplace, place_mul hc hy hk hb, ?_⟩
    refine roundPlace_mono unitsPerOne_pos unitsPerOne_pos ?_
    exact Int.mul_le_mul_of_nonneg_right (Int.mul_le_mul_of_nonneg_left hab hk0) (by omega)
  · rw [mul_inf_of_pos hc hpos]
    exact le_inf (ne_nan_of_le (le_iff_place.mpr ⟨_, _, hplace, hplace, Int.le_refl _⟩)).1

theorem zero_le_mul_of_pos (hx : (zero false).lt x = true) (hy : (zero false).lt y = true) :
    zero false ≤ x * y := by
  cases hfin : y.isFinite with
  | true => exact (zero_le_mul (le_of_lt hx) hfin hy).1
  | false =>
    rw [eq_inf_of_nonneg (le_of_lt hy) hfin, (inf_mul_of_pos hx).2]
    exact le_of_lt (zero_lt_inf false)

/-- And so are products of positive numbers that may all be infinite. -/
theorem mul_le_mul_of_pos {y' : Binary64} (hx : (zero false).lt x = true)
    (hy : (zero false).lt y = true) (hxx : x ≤ x') (hyy : y ≤ y') : x * y ≤ x' * y' := by
  have hnan := (ne_nan_of_le (zero_le_mul_of_pos hx hy)).2
  have hx' := lt_of_lt_of_le hx hxx
  have hy' := lt_of_lt_of_le hy hyy
  cases hxfin : x'.isFinite with
  | true =>
    cases hyfin : y'.isFinite with
    | true => exact mul_le_mul hxx hyy (le_of_lt hx) (le_of_lt hy) hxfin hyfin
    | false =>
      rw [eq_inf_of_nonneg (le_of_lt hy') hyfin, (inf_mul_of_pos hx').2]
      exact le_inf hnan
  | false =>
    rw [eq_inf_of_nonneg (le_of_lt hx') hxfin, (inf_mul_of_pos hy').1]
    exact le_inf hnan

/-! ### Quotients -/

/-- A divisor that is not negative is positive if the quotient is finite. -/
theorem pos_of_isFinite_div (hy : zero false ≤ y) (hfin : (x / y).isFinite = true) :
    (zero false).lt y = true := by
  cases hyfin : y.isFinite with
  | true => exact pos_of_finite hyfin (not_lt_of_le hy) (ne_zero_of_isFinite_div hfin)
  | false =>
    rw [eq_inf_of_nonneg hy hyfin]
    exact zero_lt_inf false

theorem isFinite_div_nan (x : Binary64) : (x / nan).isFinite = false := by
  cases x <;> rfl

/-- Quotients by a positive number, which may be infinite, are ordered as what is divided. -/
theorem div_le_div (hx : zero false ≤ x) (hxx : x ≤ x') (hfin : x'.isFinite = true)
    (hpos : (zero false).lt y = true) : x / y ≤ x' / y := by
  have hxfin := isFinite_of_le_of_le hx hxx rfl hfin
  cases hy : y.isFinite with
  | true =>
    obtain ⟨m, rfl, hm⟩ := exists_fin_of_pos hy hpos
    obtain ⟨a, a', ha, ha', haa⟩ := le_iff_place.mp hxx
    have hm' := Nat.pos_of_ne_zero hm
    refine le_iff_place.mpr ⟨_, _, place_div hxfin hy ha rfl hm', place_div hfin hy ha' rfl hm', ?_⟩
    refine roundPlace_mono hm' hm' (Int.mul_le_mul_of_nonneg_right ?_ (Int.natCast_nonneg _))
    exact Int.mul_le_mul_of_nonneg_right haa (Int.natCast_nonneg _)
  | false =>
    obtain ⟨s, x, rfl⟩ := exists_fin hxfin
    obtain ⟨s', x', rfl⟩ := exists_fin hfin
    rw [eq_inf_of_nonneg (le_of_lt hpos) hy]
    exact le_iff_place.mpr ⟨0, 0, place_zero _, place_zero _, Int.le_refl 0⟩

/-- And they are not negative. -/
theorem zero_le_div (hx : zero false ≤ x) (hfin : x.isFinite = true)
    (hpos : (zero false).lt y = true) : zero false ≤ x / y := by
  have hzero : zero false / y ≤ x / y := div_le_div zero_le_zero hx hfin hpos
  refine le_trans ?_ hzero
  cases hy : y.isFinite with
  | true => exact div_nonneg rfl zero_le_zero hy hpos
  | false =>
    rw [eq_inf_of_nonneg (le_of_lt hpos) hy]
    exact zero_le_iff_place.mpr ⟨0, place_zero _, Int.le_refl 0⟩

/-- A larger divisor, which may be infinite, does not give a larger quotient. -/
theorem div_le_div_left {y' : Binary64} (hx : zero false ≤ x) (hfin : x.isFinite = true)
    (hpos : (zero false).lt y = true) (hyy : y ≤ y') : x / y' ≤ x / y := by
  cases hyfin : y'.isFinite with
  | true =>
    have hyfin' := isFinite_of_le_of_le (le_of_lt hpos) hyy rfl hyfin
    obtain ⟨a, ha, ha0⟩ := zero_le_iff_place.mp hx
    obtain ⟨m, rfl, hm⟩ := exists_fin_of_pos hyfin' hpos
    obtain ⟨k, rfl, hk⟩ := exists_fin_of_pos hyfin (lt_of_lt_of_le hpos hyy)
    have hmk := (le_iff_of_place (place_fin ..) (place_fin ..)).mp hyy
    have hm' := Nat.pos_of_ne_zero hm
    have hk' := Nat.pos_of_ne_zero hk
    refine le_iff_place.mpr
      ⟨_, _, place_div hfin hyfin ha rfl hk', place_div hfin hyfin' ha rfl hm', ?_⟩
    refine roundPlace_mono hk' hm' (Int.mul_le_mul_of_nonneg_left hmk ?_)
    exact Int.mul_nonneg ha0 (Int.natCast_nonneg _)
  | false =>
    refine le_trans ?_ (zero_le_div hx hfin hpos)
    obtain ⟨s, x, rfl⟩ := exists_fin hfin
    rw [eq_inf_of_nonneg (le_trans (le_of_lt hpos) hyy) hyfin]
    exact le_zero_iff_place.mpr ⟨0, place_zero _, Int.le_refl 0⟩

/-- **Twice the divisor, a smaller quotient.** The quotient is at least four units, and finite. -/
theorem div_lt_div {a : Int} {b b' : Nat} (hx : x.isFinite = true) (ha : x.place = some a)
    (hy : y.isFinite = true) (hz : z.isFinite = true) (hb : y.place = some (b : Int))
    (hb' : z.place = some (b' : Int)) (hpos : 0 < b) (hbb : 2 * b ≤ b')
    (hlow : (4 * b : Int) ≤ a * unitsPerOne) (hfin : (x / y).isFinite = true) :
    (x / z).lt (x / y) = true := by
  have hunit := unitsPerOne_pos
  have ha0 : 0 ≤ a := by
    by_contra hneg
    have := Int.mul_neg_of_neg_of_pos (Int.not_le.mp hneg) (Int.natCast_pos.mpr hunit)
    omega
  obtain ⟨a, rfl⟩ := Int.eq_ofNat_of_zero_le ha0
  have hplace := place_div hx hy ha hb hpos
  rw [← Int.natCast_mul, roundPlace_natCast] at hplace
  have hsmall := natAbs_place_lt hfin hplace
  have hplace' := place_div hx hz ha hb' (by omega)
  rw [← Int.natCast_mul, roundPlace_natCast] at hplace'
  have hlt := roundShort_lt_roundShort (a := a * unitsPerOne) hpos hbb (by exact_mod_cast hlow)
  have hmin : min (roundShort (a * unitsPerOne) b') unitLimit
      < min (roundShort (a * unitsPerOne) b) unitLimit := by
    rw [Int.natAbs_natCast] at hsmall
    generalize unitLimit = limit at hsmall ⊢
    omega
  exact lt_iff_place.mpr ⟨_, _, hplace', hplace, Int.ofNat_lt.mpr hmin⟩

/-! ### Numbers below finite numbers -/

/-- The number `x` lies between zero and the finite number `x'`. -/
structure Dominated (x x' : Binary64) : Prop where
  nonneg : zero false ≤ x
  le : x ≤ x'
  isFinite' : x'.isFinite = true

namespace Dominated

variable {y' : Binary64}

theorem refl (hx : zero false ≤ x) (hfin : x.isFinite = true) : Dominated x x :=
  ⟨hx, le_refl (ne_nan_of_isFinite hfin), hfin⟩

theorem isFinite (h : Dominated x x') : x.isFinite = true :=
  isFinite_of_le_of_le h.nonneg h.le rfl h.isFinite'

theorem add (hx : Dominated x x') (hy : Dominated y y') (hfin : (x' + y').isFinite = true) :
    Dominated (x + y) (x' + y') :=
  ⟨le_trans hx.nonneg (le_add_of_nonneg hx.isFinite hy.isFinite hy.nonneg).1,
    add_le_add hx.le hy.le ⟨hx.isFinite, hy.isFinite⟩ ⟨hx.isFinite', hy.isFinite'⟩, hfin⟩

theorem mul (hx : Dominated x x') (hy : Dominated y y') (hfin : (x' * y').isFinite = true) :
    Dominated (x * y) (x' * y') :=
  ⟨mul_nonneg hx.nonneg hy.nonneg hx.isFinite hy.isFinite,
    mul_le_mul hx.le hy.le hx.nonneg hy.nonneg hx.isFinite' hy.isFinite', hfin⟩

/-- The divisor is common and may be infinite. -/
theorem div (hx : Dominated x x') (hpos : (zero false).lt y = true)
    (hfin : (x' / y).isFinite = true) : Dominated (x / y) (x' / y) :=
  ⟨zero_le_div hx.nonneg hx.isFinite hpos, div_le_div hx.nonneg hx.le hx.isFinite' hpos, hfin⟩

/-- **A running sum grows with its summands.** Summands may be left out and others lowered. -/
theorem foldl_add {ys ys' : List Binary64} (h : List.SublistForall₂ (· ≤ ·) ys ys')
    (hys : ∀ y ∈ ys, zero false ≤ y) (hys' : ∀ y ∈ ys', zero false ≤ y) (hx : zero false ≤ x)
    (hxx : x ≤ x') (hfin : (ys'.foldl (· + ·) x').isFinite = true) :
    Dominated (ys.foldl (· + ·) x) (ys'.foldl (· + ·) x') := by
  induction h generalizing x x' with
  | nil => exact ⟨hx, le_trans hxx (le_foldl_add hys' hfin), hfin⟩
  | @cons y y' ys ys' hyy _ ih =>
    obtain ⟨hy, hys⟩ := List.forall_mem_cons.mp hys
    obtain ⟨-, hys'⟩ := List.forall_mem_cons.mp hys'
    have hstep : Scalar.isFinite (x' + y') = true := (Scalar.isFinite_foldl_add hfin).1
    obtain ⟨hxfin, hyfin⟩ := isFinite_add hstep
    have hsum := add ⟨hx, hxx, hxfin⟩ ⟨hy, hyy, hyfin⟩ hstep
    exact ih hys hys' hsum.nonneg hsum.le hfin
  | @cons_right y' ys ys' _ ih =>
    obtain ⟨hy', hys'⟩ := List.forall_mem_cons.mp hys'
    have hstep : Scalar.isFinite (x' + y') = true := (Scalar.isFinite_foldl_add hfin).1
    obtain ⟨hxfin, hyfin⟩ := isFinite_add hstep
    exact ih hys hys' hx (le_trans hxx (le_add_of_nonneg hxfin hyfin hy').1) hfin

/-- The divisor may be larger on the other side, and infinite there. -/
theorem div_of_le (hx : Dominated x x') (hpos : (zero false).lt y' = true) (hyy : y' ≤ y)
    (hfin : (x' / y').isFinite = true) : Dominated (x / y) (x' / y') := by
  refine ⟨zero_le_div hx.nonneg hx.isFinite (lt_of_lt_of_le hpos hyy), ?_, hfin⟩
  exact le_trans (div_le_div_left hx.nonneg hx.isFinite hpos hyy)
    (div_le_div hx.nonneg hx.le hx.isFinite' hpos)

/-- **Powers grow with their base.** The larger power is finite, and so is all that is computed on
the way to it. -/
theorem powNatFrom {r r' : Binary64} (hr : Dominated r r') (hx : zero false ≤ x) (hxx : x ≤ x')
    {n : Nat} (hfin : (Scalar.powNatFrom r' x' n).isFinite = true) :
    Dominated (Scalar.powNatFrom r x n) (Scalar.powNatFrom r' x' n) := by
  induction n using Nat.strongRecOn generalizing r r' x x' with
  | _ n ih =>
    rcases Nat.eq_zero_or_pos n with rfl | hn
    · rwa [Scalar.powNatFrom_zero, Scalar.powNatFrom_zero]
    change Scalar.isFinite (Scalar.powNatFrom r' x' n) = true at hfin
    have hbase : Dominated x x' := ⟨hx, hxx, (Scalar.isFinite_powSteps hfin).2.1 (Nat.ne_of_gt hn)⟩
    have hsquare := mul_le_mul hxx hxx hx hx hbase.isFinite' hbase.isFinite'
    have hsquare0 := mul_nonneg hx hx hbase.isFinite hbase.isFinite
    rw [Scalar.powNatFrom_half r'] at hfin
    rw [Scalar.powNatFrom_half r, Scalar.powNatFrom_half r']
    have hstart := (Scalar.isFinite_powSteps hfin).1
    by_cases hodd : n % 2 = 1
    · rw [if_pos hodd] at hfin hstart ⊢
      rw [if_pos hodd]
      exact ih (n / 2) (by omega) (hr.mul hbase hstart) hsquare0 hsquare hfin
    · rw [if_neg hodd] at hfin hstart ⊢
      rw [if_neg hodd]
      exact ih (n / 2) (by omega) hr hsquare0 hsquare hfin

theorem powNat (hx : zero false ≤ x) (hxx : x ≤ x') {n : Nat}
    (hfin : (Scalar.powNat x' n).isFinite = true) :
    Dominated (Scalar.powNat x n) (Scalar.powNat x' n) :=
  (refl (le_of_lt one_pos) isFinite_one).powNatFrom hx hxx hfin

end Dominated

/-! ### Roots -/

/-- A finite quotient by a root has a positive number under the root. -/
theorem sqrt_pos_of_isFinite_div (h : (x / y.sqrt).isFinite = true) :
    (zero false).lt y = true ∧ (zero false).lt y.sqrt = true := by
  have hnan : y.sqrt ≠ nan := by
    intro hnan
    rw [hnan, isFinite_div_nan] at h
    exact Bool.false_ne_true h
  cases y with
  | nan => exact absurd rfl hnan
  | inf s =>
    cases s with
    | true => exact absurd rfl hnan
    | false => exact ⟨zero_lt_inf false, zero_lt_inf false⟩
  | fin s m =>
    have hm : m.units ≠ 0 := by
      intro h0
      refine ne_zero_of_isFinite_div h ⟨s, ?_⟩
      rw [sqrt, if_pos h0]
    cases s with
    | true =>
      rw [sqrt, if_neg hm] at hnan
      exact absurd rfl hnan
    | false =>
      have hpos : (zero false).lt (fin false m) = true :=
        lt_iff_place.mpr ⟨0, _, place_zero _, place_fin false m, by
          have := Nat.pos_of_ne_zero hm
          simpa [signed] using this⟩
      exact ⟨hpos, sqrt_pos rfl hpos⟩

/-- The rounded root, before its last rounding, grows with what it is the root of. -/
theorem rootHalves_mono {n k : Nat} (h : n ≤ k) : rootHalves n ≤ rootHalves k := by
  have hroot := Nat.sqrt_le_sqrt h
  rw [rootHalves, rootHalves]
  rcases Nat.lt_or_eq_of_le hroot with hlt | heq
  · split <;> split <;> omega
  · rw [heq]
    have hle := Nat.sqrt_le k
    have hle' := Nat.sqrt_le n
    rw [heq] at hle'
    split <;> split <;> omega

theorem sqrt_le_sqrt (hpos : (zero false).lt x = true) (hxx : x ≤ x') : x.sqrt ≤ x'.sqrt := by
  cases hfin : x'.isFinite with
  | true =>
    have hxfin := isFinite_of_le_of_le (le_of_lt hpos) hxx rfl hfin
    obtain ⟨m, rfl, hm⟩ := exists_fin_of_pos hxfin hpos
    obtain ⟨k, rfl, hk⟩ := exists_fin_of_pos hfin (lt_of_lt_of_le hpos hxx)
    have hunits : m.units ≤ k.units :=
      Int.ofNat_le.mp ((le_iff_of_place (place_fin ..) (place_fin ..)).mp hxx)
    have hhalves := rootHalves_mono (Nat.mul_le_mul_right unitsPerOne hunits)
    rw [sqrt_fin hm, sqrt_fin hk]
    refine le_iff_place.mpr ⟨_, _, place_round_false .., place_round_false .., ?_⟩
    exact roundPlace_mono Nat.two_pos Nat.two_pos
      (Int.mul_le_mul_of_nonneg_right (Int.ofNat_le.mpr hhalves) (by decide))
  | false =>
    rw [eq_inf_of_nonneg (le_trans (le_of_lt hpos) hxx) hfin]
    refine le_inf ?_
    cases hxfin : x.isFinite with
    | true => exact ne_nan_of_isFinite (isFinite_sqrt_of_pos hxfin hpos)
    | false =>
      rw [eq_inf_of_nonneg (le_of_lt hpos) hxfin]
      simp [sqrt]

theorem sqrt_le_one (hx : x.isFinite = true) (hpos : (zero false).lt x = true)
    (hone : x ≤ ofInt 1) : x.sqrt ≤ ofInt 1 := by
  obtain ⟨m, rfl, hm⟩ := exists_fin_of_pos hx hpos
  have hunits : m.units ≤ unitsPerOne :=
    Int.ofNat_le.mp ((le_iff_of_place (place_fin ..) place_one).mp hone)
  have hsquare : m.units * unitsPerOne ≤ unitsPerOne * unitsPerOne := Nat.mul_le_mul_right _ hunits
  have hhalves : rootHalves (m.units * unitsPerOne) ≤ unitsPerOne * 2 := by
    have hroot : (m.units * unitsPerOne).sqrt ≤ unitsPerOne :=
      (Nat.sqrt_le_sqrt hsquare).trans (Nat.sqrt_eq unitsPerOne).le
    rw [rootHalves]
    rcases Nat.lt_or_eq_of_le hroot with hlt | heq
    · split <;> omega
    · have hle := Nat.sqrt_le (m.units * unitsPerOne)
      rw [heq] at hle ⊢
      rw [if_pos (Nat.le_antisymm hle hsquare)]
      omega
  rw [sqrt_fin hm]
  refine le_iff_place.mpr ⟨_, _, place_round_false .., place_one, ?_⟩
  refine roundPlace_le (short_place place_one) (natAbs_place_le place_one) Nat.two_pos ?_
  exact_mod_cast hhalves

end Binary64

/-! ### The errors of two instances -/

namespace Elementary

open Binary64

variable {E : Elementary} {p p' : Params Binary64}

/-- The rate and its root are positive if the folding error is finite. -/
theorem rate_pos (hfin : (E.values p).folding.isFinite = true) :
    (zero false).lt (E.values p).rate = true ∧ (zero false).lt (E.values p).rate.sqrt = true := by
  rw [folding_formula] at hfin
  exact sqrt_pos_of_isFinite_div (isFinite_mul (isFinite_div hfin).1).1

/-- So is the field size, -/
theorem field_pos (hsize : ∀ n, zero false ≤ E.size n)
    (hfin : (E.values p).folding.isFinite = true) :
    (zero false).lt (E.size p.fieldSizeBits.toInt) = true := by
  rw [folding_formula] at hfin
  exact pos_of_isFinite_div (hsize _) hfin

/-- and what the proximity error is divided by. -/
theorem denominator_pos (hsize : ∀ n, zero false ≤ E.size n)
    (hpow : zero false ≤ E.pow (E.values p).rate (ofHalves 3))
    (hguarded : ∀ g ∈ E.guarded p, g.2.isFinite = true) :
    (zero false).lt (E.denominator p) = true := by
  obtain ⟨-, -, hfield, -, hproximity, hfolding, -⟩ := guarded_iff.mp hguarded
  rw [proximity_formula] at hproximity
  have hdouble := (zero_le_mul hpow isFinite_two ofInt_two_pos).2
  refine pos_of_isFinite_div ?_ hproximity
  rw [denominator_formula]
  exact (zero_le_mul hdouble hfield (field_pos hsize hfolding)).1

section

variable (hm0 : (zero false).lt p.m = true) (hm : p.m ≤ p'.m)

include hm0 hm

/-- The folding error grows with `m`, with the domain and with the arities, and falls with the
rate. -/
theorem dominated_folding (hsizes : ∀ n, zero false ≤ E.size n)
    (hsize : Dominated (E.size p.codewordSizeBits.toInt) (E.size p'.codewordSizeBits.toInt))
    (hroot : (E.values p').rate.sqrt ≤ (E.values p).rate.sqrt)
    (hsum : Dominated (E.aritySum p) (E.aritySum p')) (hfield : p.fieldSizeBits = p'.fieldSizeBits)
    (hfin : (E.values p').folding.isFinite = true) :
    Dominated (E.values p).folding (E.values p').folding := by
  have hroot0 := (rate_pos hfin).2
  have hfield0 := field_pos hsizes hfin
  rw [folding_formula] at hfin
  rw [folding_formula, folding_formula, hfield]
  have hprod := (isFinite_div hfin).1
  have hquot := (isFinite_mul hprod).1
  have hhead := (isFinite_div hquot).1
  obtain ⟨hlist, hsize1⟩ := isFinite_mul hhead
  have htwice := (isFinite_add hlist).1
  obtain ⟨-, hmfin⟩ := isFinite_mul htwice
  have hone : Dominated (ofInt 1) (ofInt 1) := .refl (le_of_lt one_pos) isFinite_one
  have htwo : Dominated (ofInt 2) (ofInt 2) := .refl (le_of_lt ofInt_two_pos) isFinite_two
  have hlist' := (htwo.mul ⟨le_of_lt hm0, hm, hmfin⟩ htwice).add hone hlist
  have hhead' := hlist'.mul (hsize.add hone hsize1) hhead
  exact ((hhead'.div_of_le hroot0 hroot hquot).mul hsum hprod).div hfield0 hfin

/-- And so does the proximity error, where the rate stands in the denominator. -/
theorem dominated_proximity
    (hsquare : Dominated (E.size p.codewordSquareBits) (E.size p'.codewordSquareBits))
    (hden0 : (zero false).lt (E.denominator p') = true)
    (hden : E.denominator p' ≤ E.denominator p)
    (hfin : (E.values p').proximity.isFinite = true) :
    Dominated (E.values p).proximity (E.values p').proximity := by
  rw [proximity_formula] at hfin
  rw [proximity_formula, proximity_formula]
  have hnum := (isFinite_div hfin).1
  have hpow := (isFinite_mul hnum).1
  have hbase := add_le_add_right hm (le_of_lt hm0) isFinite_half
  have hbase0 : zero false ≤ p.m + ofHalves 1 :=
    zero_le_add (le_of_lt hm0) (le_of_lt half_pos)
  exact ((Dominated.powNat hbase0 hbase hpow).mul hsquare hnum).div_of_le hden0 hden hfin

end

end Elementary

end FriBound
