import FriBound.Proofs.Monotone
import FriBound.Proofs.PowerError

/-!
# The sign of the query error

Parameters need not be valid, and for an `m` between `-1/2` and `0` the number `alpha` is negative.
The query error is then a power of a negative number, and its sign should go by the parity of the
number of queries. The two ways of forming a power take that parity from different places. Repeated
squaring goes by the last binary digit of the whole number. The general power goes by an exponent
that is a number of the format, and there the last digit is lost from `2 ^ 53` on, where all numbers
of the format are even.

So below `2 ^ 53` queries the sign is right on both sides of the switch, and beyond it the query
error of an odd number of queries is that of an even one.

A power may get too small for the format, and its sign is then that of a zero. The results leave
the sign of a zero open, but the proof for repeated squaring keeps track of it: the sign of a
product is decided by those of its factors, and whether its size has been lost does not matter.

## Main definitions

* `Binary64.OfSign` — a sign, with zeros on both sides
* `Elementary.PowSign` — what is asked of the general power
* `Elementary.QuerySign` — the sign of the query error
* `Elementary.flipCode` — a code for which `alpha` is minus one

## Main results

* `Binary64.isNegative_powNat`, `Binary64.parity?_ofInt` — the parity on both sides of the switch
* `Elementary.alpha_lt_zero_iff` — when `alpha` is negative
* `Elementary.query_sign` — the sign of the query error for a negative `alpha`
-/

namespace FriBound

namespace Binary64

variable {x y a m : Binary64}

/-! ### Signs -/

/-- A number with the sign `neg`, or a zero. -/
def OfSign (neg : Bool) (x : Binary64) : Prop := if neg then x ≤ zero false else zero false ≤ x

theorem ofSign_isNegative (hx : x ≠ nan) : OfSign x.isNegative x := by
  cases x with
  | nan => exact absurd rfl hx
  | inf s =>
    cases s with
    | true => exact negInf_le (by simp [zero])
    | false => exact le_of_lt (zero_lt_inf false)
  | fin s m =>
    cases s with
    | true => exact le_zero_iff_place.mpr ⟨_, place_fin true m, by simp [signed]⟩
    | false => exact zero_le_iff_place.mpr ⟨_, place_fin false m, by simp [signed]⟩

theorem isNegative_of_lt_zero (hx : x.lt (zero false) = true) : x.isNegative = true := by
  cases x with
  | nan => simp [lt, place] at hx
  | inf s =>
    cases s with
    | true => rfl
    | false => simp [lt_asymm (zero_lt_inf false)] at hx
  | fin s m =>
    cases s with
    | true => rfl
    | false =>
      obtain ⟨u, v, hu, hv, huv⟩ := lt_iff_place.mp hx
      simp [signed] at hu hv
      omega

theorem isNegative_round (s : Bool) (u v : Nat) : (round s u v).isNegative = s := by
  rw [round]
  split <;> rfl

/-- The sign of a product is decided by those of its factors, also where the product is a zero. -/
theorem isNegative_mul (h : (x * y).isFinite = true) :
    (x * y).isNegative = (x.isNegative != y.isNegative) := by
  obtain ⟨hx, hy⟩ := isFinite_mul h
  obtain ⟨s, x, rfl⟩ := exists_fin hx
  obtain ⟨t, y, rfl⟩ := exists_fin hy
  rw [fin_mul_fin, isNegative_round]
  rfl

theorem isNegative_powNat (ha : a.isNegative = true) {n : ℕ}
    (hfin : (Scalar.powNat a n).isFinite = true) :
    (Scalar.powNat a n).isNegative = decide (n % 2 = 1) := by
  rcases Nat.eq_zero_or_pos n with rfl | hn
  · obtain ⟨o, ho, -⟩ := exists_one
    have hone : Scalar.powNat a 0 = ofInt 1 := Scalar.powNatFrom_zero _ _
    rw [hone, ho]
    rfl
  · -- The power is a tree of products, and a product has as many leaves as its factors together.
    refine powNat_induction (P := fun k y => y.isNegative = decide (k % 2 = 1)) ?_ ha hn hfin
    intro k l y z _ _ hyz hy hz
    rw [isNegative_mul hyz, hy, hz]
    rcases Nat.mod_two_eq_zero_or_one k with hk | hk <;>
      rcases Nat.mod_two_eq_zero_or_one l with hl | hl <;> simp [Nat.add_mod, hk, hl]

/-! ### Exponents -/

/-- From `2 ^ 53` ones on, all numbers of the format are even. -/
theorem two_mul_unitsPerOne_dvd {m : Magnitude} (hm : 2 ^ (53 + places) ≤ m.units) :
    2 * unitsPerOne ∣ m.units := by
  have hlog : 53 + places ≤ m.units.log2 :=
    (Nat.le_log2 (Nat.ne_of_gt (Nat.lt_of_lt_of_le (Nat.two_pow_pos _) hm))).mpr hm
  have hspare : places + 1 ≤ Magnitude.spare m.units := by
    rw [Magnitude.spare]
    omega
  have hunits : 2 * unitsPerOne = 2 ^ (places + 1) := by
    rw [Nat.pow_succ, Nat.mul_comm, unitsPerOne_eq]
  rw [hunits]
  exact Nat.dvd_trans (Nat.pow_dvd_pow 2 hspare) (Magnitude.two_pow_spare_dvd m.short)

theorem parity?_of_dvd (s : Bool) {m : Magnitude} (hm : 2 * unitsPerOne ∣ m.units) :
    (fin s m).parity? = some false := by
  obtain ⟨k, hk⟩ := hm
  have hswap : m.units = unitsPerOne * (2 * k) := by
    rw [hk, Nat.mul_comm 2, Nat.mul_assoc]
  have hmod : m.units % unitsPerOne = 0 := by rw [hswap, Nat.mul_mod_right]
  have hdiv : m.units / unitsPerOne = 2 * k := by
    rw [hswap, Nat.mul_div_cancel_left _ unitsPerOne_pos]
  rw [parity?, toInt?, if_pos hmod, hdiv, Option.map_some, Option.some.injEq, beq_eq_false_iff_ne]
  cases s
  · rw [if_neg Bool.false_ne_true]
    omega
  · rw [if_pos rfl]
    omega

/-- **The parity of a number of queries**, taken as an exponent, is lost from `2 ^ 53` on. -/
theorem parity?_ofInt {n : ℕ} (hn : n < 2 ^ 64) :
    (ofInt n).parity? = some (decide (n < 2 ^ 53 ∧ n % 2 = 1)) := by
  rcases Nat.lt_or_ge n (2 ^ 53) with hlt | hge
  · rw [parity?, toInt?_ofInt (by omega), Option.map_some, Option.some.injEq, Bool.eq_iff_iff]
    simp only [beq_iff_eq, decide_eq_true_eq]
    omega
  · have hlarge : 2 ^ (53 + places) ≤ roundShort (n * unitsPerOne) 1 := by
      refine le_roundShort (short_two_pow _) Nat.one_pos ?_
      rw [Nat.mul_one, two_pow_add_places]
      exact Nat.mul_le_mul_right _ hge
    have hfin := isFinite_ofInt_of_lt hn
    have hround : ofInt n = round false (n * unitsPerOne) 1 := by
      rw [ofInt, Int.natAbs_natCast, decide_eq_false (by omega)]
    rw [hround, round] at hfin ⊢
    split at hfin
    · rw [dif_pos ‹_›, parity?_of_dvd false (two_mul_unitsPerOne_dvd hlarge),
        decide_eq_false (by omega)]
    · exact absurd hfin Bool.false_ne_true

/-! ### Opposite numbers -/

theorem neg_neg (x : Binary64) : - -x = x := by
  show x.neg.neg = x
  cases x <;> simp [neg]

/-- The zero may be of either sign. -/
theorem neg_lt_zero_iff : (-x).lt (zero false) = true ↔ (zero false).lt x = true := by
  have hzero : zero false ≤ -zero false ∧ -zero false ≤ zero false := by decide
  constructor
  · intro h
    have hneg := lt_of_le_of_lt hzero.1 (neg_lt_neg h)
    rwa [neg_neg] at hneg
  · intro h
    exact lt_of_lt_of_le (neg_lt_neg h) hzero.2

theorem mul_neg (x y : Binary64) : x * -y = -(x * y) := by
  show x.mul y.neg = (x.mul y).neg
  have hsign : ∀ s t : Bool, (s != !t) = !(s != t) := by decide
  cases x <;> cases y <;> simp only [mul, neg, hsign]
  case inf.fin => split <;> rfl
  case fin.inf => split <;> rfl
  case fin.fin => exact round_not ..

theorem div_neg (x y : Binary64) : x / -y = -(x / y) := by
  have hsign : ∀ s t : Bool, (s != !t) = !(s != t) := by decide
  cases x <;> cases y
  case fin.fin s x t y =>
    show fin s x / fin (!t) y = -(fin s x / fin t y)
    rw [fin_div_fin, fin_div_fin, hsign]
    split
    · split <;> rfl
    · exact round_not ..
  case inf.fin s t y =>
    show inf (s != !t) = inf (!(s != t))
    rw [hsign]
  case fin.inf s x t =>
    show zero (s != !t) = zero (!(s != t))
    rw [hsign]
  all_goals rfl

/-! ### Factors of `alpha` -/

/-- Both factors may be infinite. Infinity times zero is left out. -/
theorem zero_le_mul_of_ne_nan (hx : (zero false).lt x = true) (hy : zero false ≤ y)
    (h : x * y ≠ nan) : zero false ≤ x * y := by
  cases hpos : (zero false).lt y with
  | true => exact zero_le_mul_of_pos hx hpos
  | false =>
    obtain ⟨s, rfl⟩ := exists_eq_zero (le_of_not_lt (by simp [zero]) (ne_nan_of_le hy).2 hpos) hy
    cases hfin : x.isFinite with
    | true => exact mul_nonneg (le_of_lt hx) hy hfin rfl
    | false =>
      rw [eq_inf_of_nonneg (le_of_lt hx) hfin] at h
      exact absurd rfl h

/-- A product with a positive number is negative only if the other factor is. -/
theorem lt_zero_of_mul_lt_zero (hx : (zero false).lt x = true)
    (h : (x * y).lt (zero false) = true) : y.lt (zero false) = true := by
  have hprod : x * y ≠ nan := (ne_nan_of_le (le_of_lt h)).1
  have hy : y ≠ nan := by
    rintro rfl
    exact hprod (by cases x <;> rfl)
  by_contra hneg
  have hy0 := le_of_not_lt hy (by simp [zero]) (Bool.eq_false_of_not_eq_true hneg)
  rw [not_lt_of_le (zero_le_mul_of_ne_nan hx hy0 hprod)] at h
  exact Bool.false_ne_true h

/-- It is negative if the two are not so small that the product vanishes. -/
theorem mul_lt_zero (hx : twoPow (-537) ≤ x) (hy : y ≤ -twoPow (-52)) :
    (x * y).lt (zero false) = true := by
  have hroot : (zero false).lt (twoPow (-537)) = true := twoPow_pos (by decide) (by decide)
  have hfactor : (zero false).lt (twoPow (-52)) = true := twoPow_pos (by decide) (by decide)
  have hprod : (zero false).lt (twoPow (-537) * twoPow (-52)) = true :=
    lt_of_lt_of_le (twoPow_pos (n := -537 + -52) (by decide) (by decide))
      (twoPow_add_le (by decide) (by decide) (by decide) (by decide) (by decide) (by decide))
  have hopposite := neg_le_neg hy
  rw [neg_neg] at hopposite
  have hpos := lt_of_lt_of_le hprod (mul_le_mul_of_pos hroot hfactor hx hopposite)
  rwa [← neg_lt_zero_iff, mul_neg, neg_neg] at hpos

/-- No root is smaller than that of the smallest number. -/
theorem twoPow_le_sqrt (hx : (zero false).lt x = true) : twoPow (-537) ≤ x.sqrt := by
  have hconst : (zero false).lt (twoPow (-1074)) = true ∧ (twoPow (-1074)).sqrt = twoPow (-537) ∧
      (twoPow (-1074)).place = some 1 := by
    decide +kernel
  obtain ⟨hpos, hsqrt, hplace⟩ := hconst
  obtain ⟨a, b, ha, hb, hab⟩ := lt_iff_place.mp hx
  rw [place_zero, Option.some.injEq] at ha
  exact hsqrt ▸ sqrt_le_sqrt hpos (le_iff_place.mpr ⟨1, b, hplace, hb, by omega⟩)

/-- The largest number below a half. -/
def belowHalf : Binary64 := (ofInt (2 ^ 53 - 1)).scale (-54)

/-- Its place next to that of the half, and the factor of `alpha` that it leads to. -/
theorem belowHalf_spec :
    (belowHalf.place = some ((2 ^ (places - 54) * (2 ^ 53 - 1) : Nat) : Int) ∧
      (ofHalves 1).place = some ((2 ^ (53 + (places - 54)) : Nat) : Int)) ∧
    ofInt 1 + -(ofInt 1 / (ofInt 2 * belowHalf)) = -twoPow (-52) ∧
      (ofInt 1 / (ofInt 2 * belowHalf)).isFinite = true := by
  decide +kernel

theorem le_belowHalf (hx : x.lt (ofHalves 1) = true) : x ≤ belowHalf := by
  obtain ⟨⟨hbelow, hhalf⟩, -⟩ := belowHalf_spec
  obtain ⟨a, b, ha, hb, hab⟩ := lt_iff_place.mp hx
  obtain rfl := place_inj hhalf hb
  refine le_iff_place.mpr ⟨a, _, ha, hbelow, ?_⟩
  rcases Int.le_total a 0 with hneg | hpos
  · exact Int.le_trans hneg (Int.natCast_nonneg _)
  · obtain ⟨n, rfl⟩ := Int.eq_ofNat_of_zero_le hpos
    exact Int.ofNat_le.mpr ((short_place ha).le_of_lt_two_pow (Int.ofNat_lt.mp hab))

/-- The factor of `alpha` that comes from `-m`, for an `m` of a half or more: the reciprocal takes
at most one away. -/
theorem zero_le_factor (hm : ofHalves 1 ≤ m) :
    zero false ≤ ofInt 1 + -(ofInt 1 / (ofInt 2 * m)) := by
  have hconst : ofInt 2 * ofHalves 1 = ofInt 1 ∧ ofInt 1 / ofInt 1 = ofInt 1 ∧
      ofInt 1 + -ofInt 1 = zero false := by
    decide +kernel
  obtain ⟨htwo, hone, hsum⟩ := hconst
  have htwice := mul_le_mul_left_of_pos hm isFinite_half isFinite_two ofInt_two_pos
  rw [htwo] at htwice
  have hrecip := div_le_div_left (le_of_lt one_pos) isFinite_one one_pos htwice
  rw [hone] at hrecip
  have hrecip0 := zero_le_recip (lt_of_lt_of_le one_pos htwice)
  have hfin := isFinite_of_le_of_le hrecip0 hrecip rfl isFinite_one
  calc zero false = ofInt 1 + -ofInt 1 := hsum.symm
    _ ≤ ofInt 1 + -(ofInt 1 / (ofInt 2 * m)) :=
      add_le_add (le_refl (ne_nan_of_isFinite isFinite_one)) (neg_le_neg hrecip)
        ⟨isFinite_one, isFinite_neg.trans isFinite_one⟩ ⟨isFinite_one, isFinite_neg.trans hfin⟩

/-- And for an `m` below a half it takes more than one away. The half is a number of the format, and
next to it the format is fine enough for the reciprocal not to be rounded to one. -/
theorem factor_le (hm : (zero false).lt m = true) (hm' : m.lt (ofHalves 1) = true) :
    ofInt 1 + -(ofInt 1 / (ofInt 2 * m)) ≤ -twoPow (-52) := by
  obtain ⟨-, hsum, hfin'⟩ := belowHalf_spec
  have hmfin := isFinite_of_le_of_le (le_of_lt hm) (le_of_lt hm') rfl isFinite_half
  have htwice0 := twice_pos hmfin hm
  have htwice := mul_le_mul_left_of_pos (le_belowHalf hm') hmfin isFinite_two ofInt_two_pos
  have hrecip := div_le_div_left (le_of_lt one_pos) isFinite_one htwice0 htwice
  cases hfin : (ofInt 1 / (ofInt 2 * m)).isFinite with
  | true =>
    calc ofInt 1 + -(ofInt 1 / (ofInt 2 * m)) ≤ ofInt 1 + -(ofInt 1 / (ofInt 2 * belowHalf)) :=
          add_le_add (le_refl (ne_nan_of_isFinite isFinite_one)) (neg_le_neg hrecip)
            ⟨isFinite_one, isFinite_neg.trans hfin⟩ ⟨isFinite_one, isFinite_neg.trans hfin'⟩
      _ = -twoPow (-52) := hsum
  | false =>
    have hinf : ofInt 1 + -inf false = inf true := add_inf true isFinite_one
    rw [eq_inf_of_nonneg (zero_le_recip htwice0) hfin, hinf]
    refine negInf_le (ne_nan_of_isFinite (isFinite_neg.trans ?_))
    exact isFinite_twoPow (by decide) (by decide)

/-- So the factor is negative for these `m` only. -/
theorem bounds_of_factor_lt_zero (hm : m.isFinite = true) (hzero : ¬∃ s, m = zero s)
    (h : (ofInt 1 + ofInt 1 / (ofInt 2 * m)).lt (zero false) = true) :
    (-ofHalves 1).lt m = true ∧ m.lt (zero false) = true := by
  have hneg : m.lt (zero false) = true := by
    by_contra hnot
    have hpos := pos_of_finite hm (Bool.eq_false_of_not_eq_true hnot) hzero
    rw [lt_asymm (one_add_pos (zero_le_recip (twice_pos hm hpos)))] at h
    exact Bool.false_ne_true h
  refine ⟨?_, hneg⟩
  by_contra hnot
  have hle := neg_le_neg (le_of_not_lt (ne_nan_of_isFinite (isFinite_neg.trans isFinite_half))
    (ne_nan_of_isFinite hm) (Bool.eq_false_of_not_eq_true hnot))
  rw [neg_neg] at hle
  rw [← neg_neg m, mul_neg, div_neg, not_lt_of_le (zero_le_factor hle)] at h
  exact Bool.false_ne_true h

end Binary64

/-! ### The sign of `alpha` -/

namespace Elementary

open Binary64

variable {E : Elementary} {p : Params Binary64} {t : Terms Binary64} {a : Binary64} {q : UInt64}

/-- **When `alpha` is negative.** The rate does not matter: its root is positive, and it does not
vanish. -/
theorem alpha_lt_zero_iff (hm : p.m.isFinite = true) (hzero : ¬∃ s, p.m = zero s)
    (hfolding : (E.values p).folding.isFinite = true) :
    (E.values p).alpha.lt (zero false) = true ↔
      (-ofHalves 1).lt p.m = true ∧ p.m.lt (zero false) = true := by
  obtain ⟨hrate, hroot⟩ := rate_pos hfolding
  rw [alpha_formula]
  constructor
  · intro h
    exact bounds_of_factor_lt_zero hm hzero (lt_zero_of_mul_lt_zero hroot h)
  · rintro ⟨hhalf, hneg⟩
    have hhalf' := neg_lt_neg hhalf
    rw [← Binary64.neg_neg p.m, neg_lt_zero_iff] at hneg
    rw [Binary64.neg_neg] at hhalf'
    have hfactor := factor_le hneg hhalf'
    rw [← div_neg, ← mul_neg, Binary64.neg_neg] at hfactor
    exact mul_lt_zero (twoPow_le_sqrt hrate) hfactor

/-! ### The sign of the query error -/

/-- The sign of a power of a negative number, minus infinity included, with a whole and positive
exponent. -/
structure PowSign (E : Elementary) : Prop where
  pow_sign : ∀ (x y : Binary64) (odd : Bool), x.lt (zero false) = true →
    (zero false).lt y = true → y.parity? = some odd → OfSign odd (E.pow x y)

/-- On both sides of the switch, the sign goes by the parity that is left of the number of
queries. -/
theorem ofSign_queryPower (h : E.PowSign) (ha : a.lt (zero false) = true)
    (hfin : (E.queryPower a q).isFinite = true) :
    OfSign (decide (q.toNat < 2 ^ 53 ∧ q.toNat % 2 = 1)) (E.queryPower a q) := by
  rcases Nat.lt_or_ge q.toNat (2 ^ 31) with hlt | hge
  · -- Here the parity is that of the whole number, and all counts are below `2 ^ 53`.
    rw [queryPower_eq_powNat hlt] at hfin ⊢
    have hsign := ofSign_isNegative (ne_nan_of_isFinite hfin)
    have hsame : (q.toNat < 2 ^ 53 ∧ q.toNat % 2 = 1) ↔ q.toNat % 2 = 1 := by omega
    rwa [isNegative_powNat (isNegative_of_lt_zero ha) hfin, ← decide_eq_decide.mpr hsame] at hsign
  · have hpow : E.queryPower a q = E.pow a (ofInt q.toNat) := if_neg (by omega)
    rw [hpow]
    exact h.pow_sign a _ _ ha (ofInt_pos (by omega)) (parity?_ofInt q.toNat_lt)

/-- The sign of the query error of a negative `alpha`. -/
structure QuerySign (p : Params Binary64) (t : Terms Binary64) : Prop where
  /-- It is right for an even number of queries. -/
  nonneg_of_even : p.numQueries.toNat % 2 = 0 → zero false ≤ t.query
  /-- For an odd number it is right below `2 ^ 53` queries, -/
  nonpos_iff_of_odd : p.numQueries.toNat % 2 = 1 →
    (t.query ≤ zero false ↔ p.numQueries.toNat < 2 ^ 53 ∨ ∃ s, t.query = zero s)
  /-- and beyond that it is the sign of an even number. -/
  nonneg_of_le : 2 ^ 53 ≤ p.numQueries.toNat → zero false ≤ t.query

/-- **The sign of the query error**, and when there is something to say about it. -/
theorem query_sign (h : E.PowSign) (ht : E.terms p = .ok t) :
    (t.alpha.lt (zero false) = true ↔
      (-ofHalves 1).lt p.m = true ∧ p.m.lt (zero false) = true) ∧
    (t.alpha.lt (zero false) = true → QuerySign p t) := by
  obtain ⟨hm, hzero, hguarded, rfl⟩ := terms_eq_ok_iff_guarded.mp ht
  obtain ⟨-, -, -, -, -, hfolding, hquery⟩ := guarded_iff.mp hguarded
  refine ⟨alpha_lt_zero_iff hm hzero hfolding, fun halpha => ?_⟩
  have hsign : OfSign _ (E.values p).query := ofSign_queryPower h halpha hquery
  refine {
    nonneg_of_even := fun heven => ?even
    nonpos_iff_of_odd := fun hodd => ?odd
    nonneg_of_le := fun hlarge => ?large }
  case even => rwa [decide_eq_false (by omega)] at hsign
  case large => rwa [decide_eq_false (by omega)] at hsign
  case odd =>
    rcases Nat.lt_or_ge p.numQueries.toNat (2 ^ 53) with hlt | hge
    · rw [decide_eq_true ⟨hlt, hodd⟩] at hsign
      exact iff_of_true hsign (Or.inl hlt)
    · rw [decide_eq_false (by omega)] at hsign
      refine ⟨fun hle => Or.inr (exists_eq_zero hle hsign), ?_⟩
      rintro (hlt | ⟨s, hs⟩)
      · omega
      · rw [hs]
        exact le_zero_iff_place.mpr ⟨0, place_zero s, Int.le_refl 0⟩

/-! ### An `alpha` of minus one -/

/-- The powers of negative numbers are those of their absolute values, with a sign. -/
def withSigns (E : Elementary) : Elementary where
  exp2 := E.exp2
  log2 := E.log2
  pow x y :=
    if x.lt (zero false) then
      match y.parity? with
      | none => nan
      | some odd => if odd then -E.pow x.abs y else E.pow x.abs y
    else E.pow x y

theorem powSign_withSigns_whole : whole.withSigns.PowSign where
  pow_sign x y odd hx hy hodd := by
    have hfin : y.isFinite = true := by
      cases y with
      | fin s m => rfl
      | nan => exact absurd hodd (by simp [parity?, toInt?])
      | inf s => exact absurd hodd (by simp [parity?, toInt?])
    obtain ⟨a, -, ha, -, -⟩ := lt_iff_place.mp hx
    have habs : zero false ≤ x.abs :=
      zero_le_iff_place.mpr ⟨_, place_abs ha, Int.natCast_nonneg _⟩
    have hpow := zero_le_whole_pow habs hfin hy
    show OfSign odd (ite _ _ _)
    rw [if_pos hx, hodd]
    cases odd with
    | false => exact hpow
    | true => exact le_trans (neg_le_neg hpow) (by decide)

/-- A code for which `alpha` is minus one. -/
def flipCode : Params Binary64 := { quarterCode with rateBits := 0, m := -(ofInt 1 / ofInt 4) }

/-- An odd number of queries on each side of the switch, and one beyond `2 ^ 53`. -/
theorem query_sign_flipCode :
    (∃ t, whole.withSigns.terms { flipCode with numQueries := 3 } = .ok t ∧
      t.query ≤ zero false) ∧
    (∃ t, whole.withSigns.terms { flipCode with numQueries := 2147483649 } = .ok t ∧
      t.query ≤ zero false) ∧
    ∃ t, whole.withSigns.terms { flipCode with numQueries := 9007199254740993 } = .ok t ∧
      zero false ≤ t.query := by
  have hcode : flipCode.m.isFinite = true ∧ (∀ s, flipCode.m ≠ zero s) ∧
      (whole.withSigns.values flipCode).alpha.lt (zero false) = true := by
    decide +kernel
  obtain ⟨hm, hzero, halpha⟩ := hcode
  have hsign : ∀ q, (∀ g ∈ whole.withSigns.guarded { flipCode with numQueries := q },
      g.2.isFinite = true) →
      ∃ t, whole.withSigns.terms { flipCode with numQueries := q } = .ok t ∧
        QuerySign { flipCode with numQueries := q } t := by
    intro q hguarded
    have hterms : whole.withSigns.terms { flipCode with numQueries := q } = .ok _ :=
      terms_eq_ok_iff_guarded.mpr ⟨hm, not_exists.mpr hzero, hguarded, rfl⟩
    exact ⟨_, hterms, (query_sign powSign_withSigns_whole hterms).2 halpha⟩
  refine ⟨?_, ?_, ?_⟩
  · obtain ⟨t, ht, hquery⟩ := hsign 3 (by decide +kernel)
    exact ⟨t, ht, (hquery.nonpos_iff_of_odd (by decide)).mpr (Or.inl (by decide))⟩
  · obtain ⟨t, ht, hquery⟩ := hsign 2147483649 (by decide +kernel)
    exact ⟨t, ht, (hquery.nonpos_iff_of_odd (by decide)).mpr (Or.inl (by decide))⟩
  · obtain ⟨t, ht, hquery⟩ := hsign 9007199254740993 (by decide +kernel)
    exact ⟨t, ht, hquery.nonneg_of_le (by decide)⟩

/-- An odd number of queries, and the query error is one: the exponent has been rounded. -/
theorem query_pos_flipCode :
    ∃ t, tabulated.terms { flipCode with numQueries := 9007199254740993 } = .ok t ∧
      t.alpha.lt (zero false) = true ∧ UInt64.toNat 9007199254740993 % 2 = 1 ∧
      (zero false).lt t.query = true := by
  have hm : ∀ s, flipCode.m ≠ zero s := by decide +kernel
  exact ⟨_, terms_eq_ok_iff_guarded.mpr ⟨by decide +kernel, not_exists.mpr hm, by decide +kernel,
    rfl⟩, by decide +kernel⟩

end Elementary

end FriBound
