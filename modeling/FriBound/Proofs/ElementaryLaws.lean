import FriBound.Proofs.WholeElementary

/-!
# What is asked of powers

The evaluation of the bound takes powers of two with whole exponents only, and two general powers:
the rate to the power `3 / 2`, and `alpha` to a number of queries beyond the range of repeated
squaring. This module says what is asked of them. Powers of two are exact where the format has them,
and beyond its ends they are infinite and zero (`Elementary.ExpLaws`). Of the general power little
is needed (`Elementary.PowLaws`): its sign, its special values, and a bound on powers of the rate
that is far from sharp. Where two rates are compared, it is enough that rates and their powers are
ordered as the exponents are, in the format and out of it (`Elementary.RateLaws`).

The laws of powers of two are shown here of the functions of this library. Those of the general
power ask for more, since it has to be followed through its logarithm and exponential; they are in
`FriBound.Proofs.PowSize`.

## Main definitions

* `Elementary.ExpLaws`, `Elementary.PowLaws`, `Elementary.RateLaws` — the laws
* `Elementary.WholeExpLaws` — the first of them at whole exponents only

## Main results

* `Elementary.expLaws_tabulated` — the functions of this library form powers of two as asked
* `Elementary.expLaws_whole`, `Elementary.powLaws_whole`, `Elementary.rateLaws_whole` — the laws can
  be had together
-/

namespace FriBound

namespace Binary64

variable {x : Binary64} {n : Int}

/-! ### Whole numbers -/

theorem neg_ofInt (hn : n ≠ 0) : -ofInt n = ofInt (-n) := by
  have hneg : ∀ (s : Bool) (a b : Nat), -round s a b = round (!s) a b := by
    intro s a b
    show neg (round s a b) = _
    rw [round, round]
    split <;> rfl
  have hsign : (!decide (n < 0)) = decide (-n < 0) := by
    by_cases h : n < 0
    · rw [decide_eq_true h, decide_eq_false (by omega)]
      rfl
    · rw [decide_eq_false h, decide_eq_true (by omega)]
      rfl
  rw [ofInt, ofInt, hneg, Int.natAbs_neg, hsign]

/-- Whole numbers of 53 digits are held exactly. -/
theorem ofInt_eq_fin (h : n.natAbs ≤ 2 ^ 53) :
    ∃ m : Magnitude, ofInt n = fin (decide (n < 0)) m ∧ m.units = n.natAbs * unitsPerOne := by
  have hshort : Short (n.natAbs * unitsPerOne) := ⟨_, places, h, by rw [unitsPerOne_eq]⟩
  have hsmall : n.natAbs * unitsPerOne < unitLimit :=
    calc n.natAbs * unitsPerOne ≤ 2 ^ 53 * unitsPerOne := Nat.mul_le_mul_right _ h
      _ = 2 ^ (53 + places) := (two_pow_add_places 53).symm
      _ < unitLimit := two_pow_lt_unitLimit (by decide)
  have hround := roundShort_of_short hshort Nat.one_pos
  rw [Nat.mul_one] at hround
  exact ⟨⟨_, hshort, hsmall⟩, round_of_lt hround, rfl⟩

theorem ofInt_lt_ofInt {k : Int} (hn : n.natAbs ≤ 2 ^ 53) (hk : k.natAbs ≤ 2 ^ 53) :
    (ofInt n).lt (ofInt k) = decide (n < k) := by
  have hunit : (0 : Int) < unitsPerOne := by
    have := unitsPerOne_pos
    omega
  rw [lt, place_ofInt_of_short hn, place_ofInt_of_short hk]
  exact decide_eq_decide.mpr (Int.mul_lt_mul_right hunit)

theorem toInt?_ofInt (h : n.natAbs ≤ 2 ^ 53) : (ofInt n).toInt? = some n := by
  obtain ⟨m, hm, hunits⟩ := ofInt_eq_fin h
  rw [hm, toInt?, hunits, Nat.mul_mod_left, if_pos rfl, Nat.mul_div_cancel _ unitsPerOne_pos]
  show some (if decide (n < 0) = true then -(n.natAbs : Int) else n.natAbs) = some n
  by_cases hn : n < 0
  · rw [decide_eq_true hn, if_pos rfl, Option.some.injEq]
    omega
  · rw [decide_eq_false hn, if_neg Bool.false_ne_true, Option.some.injEq]
    omega

theorem isFinite_ofInt_of_lt {n : Nat} (hn : n < 2 ^ 64) : (ofInt n).isFinite = true :=
  Within.isFinite (e := 64) (Within.ofInt (by omega)) (by decide)

theorem ofInt_pos {n : Nat} (hn : 0 < n) : (zero false).lt (ofInt n) = true :=
  lt_of_lt_of_le one_pos (ofInt_le_ofInt (by omega))

/-! ### Powers of two -/

/-- Within the format, a power of two is exact. -/
theorem place_twoPow (h : -1074 ≤ n) (h' : n ≤ 1023) :
    (twoPow n).place = some ((2 ^ (n + places).toNat : Nat) : Int) := by
  refine place_scale_of_short isFinite_one place_one (short_two_pow _) ?_ ?_
  · rw [Int.natAbs_natCast, unitLimit_eq]
    exact Nat.pow_le_pow_right Nat.two_pos (by unfold places topDigits; omega)
  · rw [unitsPerOne_eq, ← Int.natCast_mul, ← Int.natCast_mul, ← Nat.pow_add, ← Nat.pow_add]
    exact congrArg (fun e : Nat => ((2 ^ e : Nat) : Int)) (by unfold places; omega)

theorem isFinite_twoPow (h : -1074 ≤ n) (h' : n ≤ 1023) : (twoPow n).isFinite = true := by
  refine isFinite_iff_place.mpr ⟨_, place_twoPow h h', ?_⟩
  rw [Int.natAbs_natCast, unitLimit_eq]
  exact Nat.pow_lt_pow_right Nat.one_lt_two (by unfold places topDigits; omega)

theorem twoPow_pos (h : -1074 ≤ n) (h' : n ≤ 1023) : (zero false).lt (twoPow n) = true := by
  have hpos := Nat.two_pow_pos (n + places).toNat
  exact lt_iff_place.mpr ⟨_, _, place_zero _, place_twoPow h h', by omega⟩

theorem twoPow_le_twoPow {k : Int} (h : -1074 ≤ n) (hnk : n ≤ k) (hk : k ≤ 1023) :
    twoPow n ≤ twoPow k := by
  refine le_iff_place.mpr ⟨_, _, place_twoPow h (by omega), place_twoPow (by omega) hk, ?_⟩
  exact Int.ofNat_le.mpr (Nat.pow_le_pow_right Nat.two_pos (by omega))

/-- Above the format it is infinite. -/
theorem twoPow_of_large (h : 1024 ≤ n) : twoPow n = inf false := by
  have hneg : (-n).toNat = 0 := by omega
  have hplace := place_scale isFinite_one place_one n
  have hlarge : (unitLimit : Int) ≤ roundPlace (unitsPerOne * (2 ^ n.toNat : Nat)) 1 := by
    refine le_roundPlace (short_place (x := inf false) rfl) (by simp) Nat.one_pos ?_
    rw [unitLimit_eq, unitsPerOne_eq, ← Int.natCast_mul, ← Int.natCast_mul, Nat.mul_one,
      ← Nat.pow_add]
    exact Int.ofNat_le.mpr (Nat.pow_le_pow_right Nat.two_pos (by unfold places topDigits; omega))
  rw [hneg, Nat.pow_zero] at hplace
  have hinf := eq_inf_of_place hplace (by omega)
  rwa [decide_eq_false (by omega)] at hinf

/-- Below the format it is zero, half of the smallest number included. -/
theorem twoPow_of_small (h : n ≤ -1075) : twoPow n = zero false := by
  obtain ⟨o, ho, hunits⟩ := exists_one
  obtain ⟨e, rfl⟩ : ∃ e, n = Int.negSucc e := ⟨(-n - 1).toNat, by omega⟩
  have hdouble : 2 * o.units ≤ 2 ^ (e + 1) := by
    rw [hunits, unitsPerOne_eq, Nat.mul_comm, ← Nat.pow_succ]
    exact Nat.pow_le_pow_right Nat.two_pos (by unfold places; omega)
  have hpos : 0 < o.units := by
    rw [hunits]
    exact unitsPerOne_pos
  have hround : roundShort o.units (2 ^ (e + 1)) = 0 := by
    have hdiv : o.units / 2 ^ (e + 1) = 0 := Nat.div_eq_of_lt (by omega)
    have hnear : divNearest o.units (2 ^ (e + 1)) ≤ 0 :=
      (divNearest_le_iff (Nat.two_pow_pos _)).mpr (by omega)
    rw [roundShort, hdiv]
    simpa [Magnitude.spare] using hnear
  have htwo : twoPow (Int.negSucc e) = scale (fin false o) (Int.negSucc e) :=
    congrArg (scale · _) ho
  rw [htwo, scale]
  exact round_of_lt hround

/-- Within the format, a product of powers of two is not below the power it stands for. -/
theorem twoPow_add_le {k : Int} (hn : -1074 ≤ n) (hn' : n ≤ 1023) (hk : -1074 ≤ k)
    (hk' : k ≤ 1023) (h : -1074 ≤ n + k) (h' : n + k ≤ 1023) :
    twoPow (n + k) ≤ twoPow n * twoPow k := by
  have hexact : ((2 ^ (n + places).toNat : Nat) : Int) * (2 ^ (k + places).toNat : Nat)
      = (2 ^ (n + k + places).toNat : Nat) * unitsPerOne := by
    rw [unitsPerOne_eq, ← Int.natCast_mul, ← Int.natCast_mul, ← Nat.pow_add, ← Nat.pow_add]
    exact congrArg (fun e : Nat => ((2 ^ e : Nat) : Int)) (by unfold places; omega)
  have hplace := place_mul (isFinite_twoPow hn hn') (isFinite_twoPow hk hk') (place_twoPow hn hn')
    (place_twoPow hk hk')
  rw [hexact, roundPlace_place (place_twoPow h h') unitsPerOne_pos] at hplace
  exact le_iff_place.mpr ⟨_, _, place_twoPow h h', hplace, Int.le_refl _⟩

theorem twoPow_nonneg (n : Int) : zero false ≤ twoPow n := by
  rcases Int.lt_or_le n (-1074) with hlow | hlow
  · rw [twoPow_of_small (by omega)]
    exact zero_le_zero
  rcases Int.lt_or_le 1023 n with hhigh | hhigh
  · rw [twoPow_of_large (by omega)]
    exact le_of_lt (zero_lt_inf false)
  · exact le_of_lt (twoPow_pos hlow hhigh)

theorem twoPow_mono {k : Int} (h : n ≤ k) : twoPow n ≤ twoPow k := by
  rcases Int.lt_or_le n (-1074) with hlow | hlow
  · rw [twoPow_of_small (by omega)]
    exact twoPow_nonneg k
  rcases Int.lt_or_le 1023 k with hhigh | hhigh
  · rw [twoPow_of_large (n := k) (by omega)]
    exact le_inf (ne_nan_of_le (twoPow_nonneg n)).2
  · exact twoPow_le_twoPow hlow h hhigh

theorem twoPow_neg_one : twoPow (-1) = ofHalves 1 := by
  obtain ⟨o, ho, hunits⟩ := exists_one
  rw [twoPow, ho]
  show round false o.units (2 ^ (0 + 1)) = round false (1 * unitsPerOne) 2
  rw [hunits, Nat.one_mul, Nat.zero_add, Nat.pow_one]

theorem twoPow_le_half (h : n ≤ -1) : twoPow n ≤ ofHalves 1 := by
  rcases Int.lt_or_le n (-1074) with hlow | hlow
  · rw [twoPow_of_small (by omega)]
    exact le_of_lt half_pos
  · exact twoPow_neg_one ▸ twoPow_le_twoPow hlow h (by decide)

end Binary64

namespace Elementary

open Binary64

variable {E : Elementary} {n : Int}

/-! ### The laws -/

/-- What is asked of the power of two. -/
structure ExpLaws (E : Elementary) : Prop where
  /-- At a whole exponent within the format it is exact. -/
  exp2_ofInt : ∀ n : Int, -1074 ≤ n → n ≤ 1023 → E.exp2 (ofInt n) = twoPow n
  /-- Above the format it is infinite. -/
  exp2_large : ∀ x : Binary64, ofInt 1024 ≤ x → E.exp2 x = inf false
  /-- Below the format it is zero. -/
  exp2_small : ∀ x : Binary64, x ≤ ofInt (-1075) → E.exp2 x = zero false

/-- What is asked of the power of two where only whole exponents enter. -/
structure WholeExpLaws (E : Elementary) : Prop where
  exp2_ofInt : ∀ n : Int, -1074 ≤ n → n ≤ 1023 → E.exp2 (ofInt n) = twoPow n
  exp2_large : ∀ n : Int, 1024 ≤ n → E.exp2 (ofInt n) = inf false
  exp2_small : ∀ n : Int, n ≤ -1075 → E.exp2 (ofInt n) = zero false

/-- The special values that are asked of the general power, for exponents that are words of 64
bits. -/
structure PowSpecial (E : Elementary) : Prop where
  /-- A power of infinity with a positive whole exponent is infinite. -/
  pow_inf : ∀ n : Nat, 0 < n → n < 2 ^ 64 → E.pow (inf false) (ofInt n) = inf false
  pow_nan : ∀ n : Nat, 0 < n → n < 2 ^ 64 → E.pow nan (ofInt n) = nan

/-- What else is asked of it. -/
structure PowLaws (E : Elementary) : Prop extends PowSpecial E where
  /-- A power of a number that is not negative is not negative. -/
  pow_nonneg : ∀ (x : Binary64) (n : Nat), zero false ≤ x → 0 < n → n < 2 ^ 64 →
    zero false ≤ E.pow x (ofInt n)
  /-- The power `3 / 2` of a rate below one is at most a half. -/
  pow_rate : ∀ r : Nat, 1 ≤ r → r ≤ 1074 → zero false ≤ E.pow (twoPow (-r)) (ofHalves 3) ∧
    E.pow (twoPow (-r)) (ofHalves 3) ≤ ofHalves 1

/-- What is asked of the functions that sizes and rates go through, within the format or not. A rate
is the power of two with the opposite of a whole exponent, and the opposite of zero is a zero of its
own. -/
structure RateLaws (E : Elementary) : Prop where
  /-- A size is not negative. -/
  exp2_nonneg : ∀ n : Int, zero false ≤ E.exp2 (ofInt n)
  /-- Rates fall as their exponents grow, -/
  exp2_mono : ∀ n k : Int, n ≤ k → E.exp2 (-ofInt k) ≤ E.exp2 (-ofInt n)
  /-- and so do their powers `3 / 2`, which are not negative. -/
  pow_mono : ∀ n k : Int, n ≤ k →
    E.pow (E.exp2 (-ofInt k)) (ofHalves 3) ≤ E.pow (E.exp2 (-ofInt n)) (ofHalves 3)
  pow_nonneg : ∀ n : Int, zero false ≤ E.pow (E.exp2 (-ofInt n)) (ofHalves 3)

namespace WholeExpLaws

theorem eq_twoPow (h : E.WholeExpLaws) (n : Int) : E.exp2 (ofInt n) = twoPow n := by
  rcases Int.lt_or_le n (-1074) with hlow | hlow
  · rw [h.exp2_small _ (by omega), twoPow_of_small (by omega)]
  rcases Int.lt_or_le 1023 n with hhigh | hhigh
  · rw [h.exp2_large _ (by omega), twoPow_of_large (by omega)]
  · exact h.exp2_ofInt n hlow hhigh

theorem nonneg (h : E.WholeExpLaws) (n : Int) : zero false ≤ E.exp2 (ofInt n) :=
  h.eq_twoPow n ▸ twoPow_nonneg n

/-- A size is finite if its exponent is below the upper end of the format. -/
theorem isFinite_exp2 (h : E.WholeExpLaws) (n : Int) :
    (E.exp2 (ofInt n)).isFinite = decide (n ≤ 1023) := by
  rcases Int.lt_or_le n (-1074) with hlow | hlow
  · rw [h.exp2_small _ (by omega), decide_eq_true (by omega)]
    rfl
  rcases Int.lt_or_le 1023 n with hhigh | hhigh
  · rw [h.exp2_large _ (by omega), decide_eq_false (by omega)]
    rfl
  · rw [h.exp2_ofInt n hlow hhigh, isFinite_twoPow hlow hhigh, decide_eq_true hhigh]

end WholeExpLaws

namespace ExpLaws

theorem wholeExpLaws (h : E.ExpLaws) : E.WholeExpLaws where
  exp2_ofInt := h.exp2_ofInt
  exp2_large _ hn := h.exp2_large _ (ofInt_le_ofInt hn)
  exp2_small _ hn := h.exp2_small _ (ofInt_le_ofInt hn)

theorem eq_twoPow (h : E.ExpLaws) (n : Int) : E.exp2 (ofInt n) = twoPow n :=
  h.wholeExpLaws.eq_twoPow n

theorem nonneg (h : E.ExpLaws) (n : Int) : zero false ≤ E.exp2 (ofInt n) :=
  h.wholeExpLaws.nonneg n

/-- A rate is a power of two, be its exponent zero or not. -/
theorem exp2_neg (h : E.ExpLaws) (hzero : E.exp2 (zero true) = twoPow 0) (n : Int) :
    E.exp2 (-ofInt n) = twoPow (-n) := by
  by_cases hn : n = 0
  · have hneg : -ofInt 0 = zero true := by
      rw [ofInt_zero]
      rfl
    rw [hn, hneg, hzero, Int.neg_zero]
  · rw [neg_ofInt hn, h.eq_twoPow]

theorem le_of_isFinite (h : E.ExpLaws) (hfin : (E.exp2 (ofInt n)).isFinite = true) :
    n ≤ 1023 :=
  of_decide_eq_true ((h.wholeExpLaws.isFinite_exp2 n).symm.trans hfin)

end ExpLaws

/-- The functions of this library form powers of two as asked. -/
theorem expLaws_tabulated : tabulated.ExpLaws where
  exp2_ofInt n hlow hhigh := by
    have habs : n.natAbs ≤ 2 ^ 53 := by omega
    obtain ⟨m, hm, -⟩ := ofInt_eq_fin habs
    have hnan : (ofInt n).isNaN = false := by rw [hm]; rfl
    have hlt : (ofInt n).lt (ofInt 1024) = true := by
      rw [ofInt_lt_ofInt habs (by decide)]
      exact decide_eq_true (by omega)
    have hgt : (ofInt (-1075)).lt (ofInt n) = true := by
      rw [ofInt_lt_ofInt (by decide) habs]
      exact decide_eq_true (by omega)
    show Binary64.exp2 (ofInt n) = _
    rw [Binary64.exp2, hnan, hlt, hgt, toInt?_ofInt habs]
    rfl
  exp2_large x hx := by
    show Binary64.exp2 x = _
    rw [Binary64.exp2, isNaN_eq_false_of_ne (ne_nan_of_le hx).2, not_lt_of_le hx]
    rfl
  exp2_small x hx := by
    have hlt : x.lt (ofInt 1024) = true := by
      refine lt_of_le_of_lt hx ?_
      rw [ofInt_lt_ofInt (by decide) (by decide)]
      rfl
    show Binary64.exp2 x = _
    rw [Binary64.exp2, isNaN_eq_false_of_ne (ne_nan_of_le hx).1, hlt, not_lt_of_le hx]
    rfl

/-- And their general power has the special values: at these bases it is the square of the base. -/
theorem powSpecial_tabulated : tabulated.PowSpecial := by
  have hsquare : ∀ n : Nat, 0 < n → n < 2 ^ 64 → ∀ x : Binary64, x = inf false ∨ x = nan →
      tabulated.pow x (ofInt n) = x * x := by
    intro n hn hn' x hx
    obtain ⟨m, hm, hunits⟩ := exists_fin_of_pos (isFinite_ofInt_of_lt hn') (ofInt_pos hn)
    have hzero : (fin false m).same (zero false) = false := by
      simp [same, signed, zero, Magnitude.zero, hunits]
    have hone : (inf false).same (ofInt 1) = false := by
      have hlt := two_pow_lt_unitLimit (e := 0) (by decide)
      rw [two_pow_add_places, Nat.pow_zero, Nat.one_mul] at hlt
      rw [same, place_one]
      exact decide_eq_false (Int.ne_of_gt (Int.ofNat_lt.mpr hlt))
    show Binary64.pow x (ofInt n) = _
    rw [hm]
    rcases hx with rfl | rfl
    · rw [Binary64.pow, powSpecial, hzero, hone]
      · rfl
      · simp
    · rw [Binary64.pow, powSpecial, hzero]
      · rfl
      · simp
  exact {
    pow_inf := fun n hn hn' => hsquare n hn hn' _ (Or.inl rfl)
    pow_nan := fun n hn hn' => hsquare n hn hn' _ (Or.inr rfl) }

/-! ### The laws for whole exponents -/

section Whole

variable {x : Binary64}

theorem wholeExp2_nonneg (hx : x ≠ nan) : zero false ≤ wholeExp2 x := by
  cases x with
  | nan => exact absurd rfl hx
  | inf s =>
    cases s with
    | true => exact zero_le_zero
    | false => exact le_of_lt (zero_lt_inf false)
  | fin s m => exact twoPow_nonneg _

theorem wholeExp2_of_place {a : Int} (hx : x.isFinite = true) (ha : x.place = some a) :
    wholeExp2 x = twoPow (a / unitsPerOne) := by
  obtain ⟨s, m, rfl, rfl⟩ := exists_fin_of_place hx ha
  rfl

theorem wholeExp2_ofInt (h : n.natAbs ≤ 2 ^ 53) : wholeExp2 (ofInt n) = twoPow n := by
  obtain ⟨m, hm, -⟩ := ofInt_eq_fin h
  have hunit := unitsPerOne_pos
  rw [wholeExp2_of_place (by rw [hm]; rfl) (place_ofInt_of_short h),
    Int.mul_ediv_cancel _ (by omega)]

theorem expLaws_whole : whole.ExpLaws where
  exp2_ofInt n hlow hhigh := wholeExp2_ofInt (by omega)
  exp2_large x hx := by
    obtain ⟨a, ha, hba⟩ := exists_place_of_le hx (place_ofInt_of_short (by decide))
    have hunit := unitsPerOne_pos
    show wholeExp2 x = _
    cases hfin : x.isFinite with
    | true =>
      rw [wholeExp2_of_place hfin ha]
      exact twoPow_of_large ((Int.le_ediv_iff_mul_le (by omega)).mpr hba)
    | false =>
      have hpos : zero false ≤ x := zero_le_iff_place.mpr ⟨a, ha, by omega⟩
      rw [eq_inf_of_nonneg hpos hfin]
      rfl
  exp2_small x hx := by
    obtain ⟨a, ha, hab⟩ := exists_place_of_ge hx (place_ofInt_of_short (by decide))
    have hunit := unitsPerOne_pos
    show wholeExp2 x = _
    cases hfin : x.isFinite with
    | true =>
      rw [wholeExp2_of_place hfin ha]
      refine twoPow_of_small (Int.lt_add_one_iff.mp ?_)
      exact Int.ediv_lt_of_lt_mul (by omega) (by omega)
    | false =>
      have hneg : x ≤ zero false := le_zero_iff_place.mpr ⟨a, ha, by omega⟩
      rw [eq_inf_of_nonpos hneg hfin]
      rfl

theorem wholeLog2_ne_nan (hx : zero false ≤ x) : wholeLog2 x ≠ nan := by
  cases hfin : x.isFinite with
  | false =>
    rw [eq_inf_of_nonneg hx hfin]
    simp [wholeLog2]
  | true =>
    by_cases hzero : ∃ s, x = zero s
    · obtain ⟨s, rfl⟩ := hzero
      simp [wholeLog2, zero, Magnitude.zero]
    · obtain ⟨m, rfl, hm⟩ := exists_fin_of_pos hfin (pos_of_finite hfin (not_lt_of_le hx) hzero)
      rw [wholeLog2_fin hm]
      exact (ne_nan_of_le (ofInt_le_ofInt (Int.le_refl _))).1

theorem wholeLog2_twoPow (h : -1074 ≤ n) (h' : n ≤ 1023) : wholeLog2 (twoPow n) = ofInt n := by
  obtain ⟨m, hm, hunits⟩ := exists_fin_of_pos (isFinite_twoPow h h') (twoPow_pos h h')
  have hplace := place_twoPow h h'
  rw [hm, place_fin, Option.some.injEq] at hplace
  have hlog : m.units = 2 ^ (n + places).toNat := Int.ofNat_inj.mp hplace
  have hexp : ((m.units.log2 : Int) - places) = n := by
    rw [hlog, Nat.log2_two_pow]
    unfold places
    omega
  rw [hm, wholeLog2_fin hunits, hexp]

/-- A positive finite number can be multiplied by any number. -/
theorem mul_ne_nan {y : Binary64} (hx : x.isFinite = true) (hpos : (zero false).lt x = true)
    (hy : y ≠ nan) : x * y ≠ nan := by
  obtain ⟨m, rfl, hm⟩ := exists_fin_of_pos hx hpos
  show mul _ _ ≠ nan
  cases y with
  | nan => exact absurd rfl hy
  | inf s => simp [mul, hm]
  | fin s y =>
    rw [mul, Binary64.round]
    split <;> simp

/-- The general power of `whole` is a power of two. -/
theorem zero_le_whole_pow {y : Binary64} (hx : zero false ≤ x) (hy : y.isFinite = true)
    (hpos : (zero false).lt y = true) : zero false ≤ whole.pow x y :=
  wholeExp2_nonneg (mul_ne_nan hy hpos (wholeLog2_ne_nan hx))

/-- The exponent `3 / 2 * n` is not above a negative `n`. -/
theorem ofHalves_three_mul (h : -1074 ≤ n) (hn : n < 0) : ∃ a : Int,
    (ofHalves 3 * ofInt n).isFinite = true ∧ (ofHalves 3 * ofInt n).place = some a ∧
      a ≤ n * unitsPerOne := by
  have hexp : (ofInt n).place = some (n * unitsPerOne) := place_ofInt_of_short (by omega)
  have hwithin : Within 11 (ofInt n) := Within.ofInt (by omega)
  have hhalves : Within 1 (ofHalves 3) := Within.ofHalves (by decide)
  have hunit := unitsPerOne_pos
  have hone : unitsPerOne ≤ roundPlace (3 * unitsPerOne) 2 :=
    le_roundPlace (short_place place_one) (natAbs_place_le place_one) Nat.two_pos (by omega)
  have hneg : n * unitsPerOne ≤ 0 := Int.mul_nonpos_of_nonpos_of_nonneg (by omega) (by omega)
  refine ⟨_, (hhalves.mul hwithin (e := 12) (by decide)).isFinite (by decide),
    place_mul (hhalves.isFinite (by decide)) (hwithin.isFinite (by decide)) (place_ofHalves 3) hexp,
    ?_⟩
  calc roundPlace (roundPlace (3 * unitsPerOne) 2 * (n * unitsPerOne)) unitsPerOne
      ≤ roundPlace (unitsPerOne * (n * unitsPerOne)) unitsPerOne :=
        roundPlace_mono hunit hunit (Int.mul_le_mul_of_nonneg_right
          (Int.mul_le_mul_of_nonpos_right hone hneg) (by omega))
    _ = n * unitsPerOne := by rw [Int.mul_comm, roundPlace_place hexp hunit]

theorem powLaws_whole : whole.PowLaws where
  pow_inf n hn hn' := by
    show wholeExp2 (ofInt n * inf false) = _
    rw [mul_inf_of_pos (isFinite_ofInt_of_lt hn') (ofInt_pos hn)]
    rfl
  pow_nan n hn hn' := by
    obtain ⟨m, hm, -⟩ := exists_fin_of_pos (isFinite_ofInt_of_lt hn') (ofInt_pos hn)
    show wholeExp2 (ofInt n * nan) = _
    rw [hm]
    rfl
  pow_nonneg _ _ hx hn hn' := zero_le_whole_pow hx (isFinite_ofInt_of_lt hn') (ofInt_pos hn)
  pow_rate r hr hr' := by
    obtain ⟨a, hfin, ha, hle⟩ := ofHalves_three_mul (n := -r) (by omega) (by omega)
    have hunit := unitsPerOne_pos
    have hexp : a / unitsPerOne ≤ -r := Int.ediv_le_of_le_mul (by omega) hle
    show zero false ≤ wholeExp2 (ofHalves 3 * wholeLog2 (twoPow (-r))) ∧
      wholeExp2 (ofHalves 3 * wholeLog2 (twoPow (-r))) ≤ ofHalves 1
    rw [wholeLog2_twoPow (by omega) (by omega), wholeExp2_of_place hfin ha]
    exact ⟨twoPow_nonneg _, twoPow_le_half (by omega)⟩

/-! ### Rates -/

theorem whole_exp2_neg (n : Int) : whole.exp2 (-ofInt n) = twoPow (-n) := by
  refine expLaws_whole.exp2_neg ?_ n
  show twoPow ((0 : Int) / unitsPerOne) = _
  rw [Int.zero_ediv]

theorem isFinite_ofHalves_three : (ofHalves 3).isFinite = true :=
  Within.isFinite (e := 1) (Within.ofHalves (by decide)) (by decide)

theorem ofHalves_three_pos : (zero false).lt (ofHalves 3) = true := by decide +kernel

theorem whole_pow_twoPow_nonneg (n : Int) : zero false ≤ whole.pow (twoPow n) (ofHalves 3) :=
  zero_le_whole_pow (twoPow_nonneg n) isFinite_ofHalves_three ofHalves_three_pos

/-- Within the format the exponent is multiplied by `3 / 2`, up to rounding. -/
theorem whole_pow_twoPow (hlow : -1074 ≤ n) (hhigh : n ≤ 1023) :
    whole.pow (twoPow n) (ofHalves 3) =
      twoPow (roundPlace (roundPlace (3 * unitsPerOne) 2 * (n * unitsPerOne)) unitsPerOne
        / unitsPerOne) := by
  have hhalves : Within 1 (ofHalves 3) := Within.ofHalves (by decide)
  have hwithin : Within 11 (ofInt n) := Within.ofInt (by omega)
  show wholeExp2 (ofHalves 3 * wholeLog2 (twoPow n)) = _
  rw [wholeLog2_twoPow hlow hhigh, wholeExp2_of_place
    ((hhalves.mul hwithin (e := 12) (by decide)).isFinite (by decide))
    (place_mul isFinite_ofHalves_three (hwithin.isFinite (by decide)) (place_ofHalves 3)
      (place_ofInt_of_short (by omega)))]

theorem whole_pow_twoPow_le {k : Int} (hnk : n ≤ k) :
    whole.pow (twoPow n) (ofHalves 3) ≤ whole.pow (twoPow k) (ofHalves 3) := by
  rcases Int.lt_or_le n (-1074) with hlow | hlow
  · have hzero : whole.pow (twoPow n) (ofHalves 3) = zero false := by
      rw [twoPow_of_small (by omega)]
      decide +kernel
    exact hzero ▸ whole_pow_twoPow_nonneg k
  rcases Int.lt_or_le 1023 k with hhigh | hhigh
  · have hinf : whole.pow (twoPow k) (ofHalves 3) = inf false := by
      rw [twoPow_of_large (by omega)]
      decide +kernel
    exact hinf ▸ le_inf (ne_nan_of_le (whole_pow_twoPow_nonneg n)).2
  · have hunit := unitsPerOne_pos
    have hthree := roundPlace_nonneg 2 (z := 3 * unitsPerOne) (by omega)
    rw [whole_pow_twoPow hlow (by omega), whole_pow_twoPow (by omega) hhigh]
    refine twoPow_mono (Int.ediv_le_ediv (by omega) (roundPlace_mono hunit hunit ?_))
    refine Int.mul_le_mul_of_nonneg_right (Int.mul_le_mul_of_nonneg_left ?_ hthree) (by omega)
    exact Int.mul_le_mul_of_nonneg_right hnk (by omega)

theorem rateLaws_whole : whole.RateLaws where
  exp2_nonneg := expLaws_whole.nonneg
  exp2_mono n k hnk := by
    rw [whole_exp2_neg, whole_exp2_neg]
    exact twoPow_mono (Int.neg_le_neg hnk)
  pow_mono n k hnk := by
    rw [whole_exp2_neg, whole_exp2_neg]
    exact whole_pow_twoPow_le (Int.neg_le_neg hnk)
  pow_nonneg n := by
    rw [whole_exp2_neg]
    exact whole_pow_twoPow_nonneg _

end Whole

end Elementary

end FriBound
