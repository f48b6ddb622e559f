import FriBound.Proofs.Order

/-!
# Ranges of rounded numbers

A number is within `e` if it is at most `2 ^ e` in size. The operations keep numbers within such
bounds, so the size of a formula is found by going through its operations. A finite number never
leaves the range by adding a number of moderate size to it, since that is far below the last digit
of the largest.

## Main definitions

* `Binary64.Within` — a bound on the size

## Main results

* `Binary64.Within.add`, `Binary64.Within.mul` and others — bounds on results
* `Binary64.isFinite_add_of_within` — adding a number of moderate size to a finite one
* `Binary64.le_mul_of_one_le`, `Binary64.zero_le_recip` — doubles and reciprocals of positive
  numbers
-/

namespace FriBound

namespace Binary64

variable {x y c : Binary64}

/-! ### Places of constants -/

/-- The sign and the size of a whole number of units, put together again. -/
theorem signed_natAbs_mul (n : Int) (u : Nat) :
    (if decide (n < 0) then -((n.natAbs * u : Nat) : Int) else (n.natAbs * u : Nat)) = n * u := by
  by_cases hn : n < 0
  · rw [decide_eq_true hn, if_pos rfl, Int.natCast_mul, Int.ofNat_natAbs_of_nonpos (by omega),
      Int.neg_mul, Int.neg_neg]
  · rw [decide_eq_false hn, if_neg Bool.false_ne_true, Int.natCast_mul,
      Int.natAbs_of_nonneg (by omega)]

theorem place_ofInt (n : Int) : (ofInt n).place = some (roundPlace (n * unitsPerOne) 1) := by
  rw [ofInt, place_round, signed_natAbs_mul]

theorem place_ofInt_of_short {n : Int} (h : n.natAbs ≤ 2 ^ 53) :
    (ofInt n).place = some (n * unitsPerOne) := by
  have hshort : Short (n * unitsPerOne).natAbs := by
    rw [Int.natAbs_mul]
    exact ⟨_, places, h, by rw [Int.natAbs_natCast, unitsPerOne_eq]⟩
  have hlimit : (n * unitsPerOne).natAbs ≤ unitLimit := by
    rw [Int.natAbs_mul, Int.natAbs_natCast]
    calc n.natAbs * unitsPerOne ≤ 2 ^ 53 * unitsPerOne := Nat.mul_le_mul_right _ h
      _ = 2 ^ (53 + places) := (two_pow_add_places 53).symm
      _ ≤ unitLimit := Nat.le_of_lt (two_pow_lt_unitLimit (by decide))
  have hexact := roundPlace_of_short hshort hlimit Nat.one_pos
  rw [Int.natCast_one, Int.mul_one] at hexact
  rw [place_ofInt, hexact]

theorem ofInt_le_ofInt {n k : Int} (h : n ≤ k) : ofInt n ≤ ofInt k := by
  refine le_iff_place.mpr ⟨_, _, place_ofInt n, place_ofInt k, ?_⟩
  refine roundPlace_mono Nat.one_pos Nat.one_pos ?_
  exact Int.mul_le_mul_of_nonneg_right (Int.mul_le_mul_of_nonneg_right h (by omega)) (by omega)

theorem abs_ofInt_le {n : Int} {k : Nat} (h : n.natAbs ≤ k) : (ofInt n).abs ≤ ofInt k := by
  refine abs_le_iff_place.mpr ⟨_, _, place_ofInt n, place_ofInt k, ?_⟩
  rw [natAbs_roundPlace, ← roundPlace_natCast, Int.natAbs_mul]
  refine roundPlace_mono Nat.one_pos Nat.one_pos (Int.mul_le_mul_of_nonneg_right ?_ (by omega))
  exact Int.ofNat_le.mpr (Nat.mul_le_mul_right _ h)

theorem place_two_pow {e : Nat} (he : e < 1024) :
    (ofInt (2 ^ e)).place = some ((2 ^ (e + places) : Nat) : Int) := by
  have hlt := two_pow_lt_unitLimit he
  have hprod : ((2 : Int) ^ e * unitsPerOne) = (2 ^ (e + places) : Nat) := by
    rw [two_pow_add_places]
    push_cast
    rfl
  have hone := roundShort_of_short (short_two_pow (e + places)) Nat.one_pos
  rw [Nat.mul_one] at hone
  rw [place_ofInt, hprod, roundPlace_natCast, hone, Nat.min_eq_left (Nat.le_of_lt hlt)]

theorem isFinite_two_pow {e : Nat} (he : e < 1024) : (ofInt (2 ^ e)).isFinite = true :=
  isFinite_iff_place.mpr ⟨_, place_two_pow he, by
    rw [Int.natAbs_natCast]
    exact two_pow_lt_unitLimit he⟩

theorem place_one : (ofInt 1).place = some (unitsPerOne : Int) := by
  have h := place_two_pow (e := 0) (by decide)
  rwa [two_pow_add_places, Nat.pow_zero, Nat.one_mul] at h

theorem isFinite_one : (ofInt 1).isFinite = true := isFinite_two_pow (e := 0) (by decide)

theorem one_pos : (zero false).lt (ofInt 1) = true := by
  have := unitsPerOne_pos
  exact lt_iff_place.mpr ⟨_, _, place_zero _, place_one, by omega⟩

theorem isFinite_two : (ofInt 2).isFinite = true := isFinite_two_pow (e := 1) (by decide)

theorem ofInt_two_pos : (zero false).lt (ofInt 2) = true :=
  lt_of_lt_of_le one_pos (ofInt_le_ofInt (by decide))

theorem place_ofHalves (n : Int) :
    (ofHalves n).place = some (roundPlace (n * unitsPerOne) 2) := by
  rw [ofHalves, place_round, signed_natAbs_mul]

theorem half_pos : (zero false).lt (ofHalves 1) = true := by
  have hle : 1 ≤ roundShort unitsPerOne 2 :=
    le_roundShort (short_of_le (by decide)) Nat.two_pos two_le_unitsPerOne
  have hplace := place_ofHalves 1
  rw [Int.one_mul, roundPlace_natCast] at hplace
  have := unitLimit_pos
  exact lt_iff_place.mpr ⟨_, _, place_zero _, hplace, by omega⟩

/-! ### Bounds on the size -/

/-- The number is at most `v` units in size. -/
def AtMost (v : Nat) (x : Binary64) : Prop := ∃ a ∈ x.place, a.natAbs ≤ v

instance {v : Nat} : Decidable (AtMost v x) :=
  inferInstanceAs (Decidable (∃ a ∈ x.place, a.natAbs ≤ v))

theorem atMost_fin_iff {v : Nat} {s : Bool} {x : Magnitude} : AtMost v (fin s x) ↔ x.units ≤ v := by
  constructor
  · rintro ⟨a, ha, hv⟩
    rwa [← place_inj (place_fin s x) ha, natAbs_signed] at hv
  · intro h
    exact ⟨_, place_fin s x, by rwa [natAbs_signed]⟩

namespace AtMost

variable {u v w : Nat}

/-- A rounded fraction is within the bound if the fraction is. -/
theorem of_place {b : Nat} {z : Int} (h : x.place = some (roundPlace z b)) (hb : 0 < b)
    (hv : Short v) (hz : z.natAbs ≤ v * b) : AtMost v x := by
  refine ⟨_, h, ?_⟩
  rw [natAbs_roundPlace]
  exact Nat.le_trans (Nat.min_le_left ..) (roundShort_le hv hb hz)

theorem isFinite (h : AtMost v x) (hv : v < unitLimit) : x.isFinite = true := by
  obtain ⟨a, ha, hav⟩ := h
  exact isFinite_iff_place.mpr ⟨a, ha, Nat.lt_of_le_of_lt hav hv⟩

theorem mono (h : AtMost u x) (huv : u ≤ v) : AtMost v x := by
  obtain ⟨a, ha, hau⟩ := h
  exact ⟨a, ha, Nat.le_trans hau huv⟩

theorem neg (h : AtMost v x) : AtMost v (-x) := by
  obtain ⟨a, ha, hav⟩ := h
  exact ⟨-a, place_neg ha, by rwa [Int.natAbs_neg]⟩

theorem add (hx : AtMost u x) (hy : AtMost v y) (hu : u < unitLimit) (hv : v < unitLimit)
    (hw : Short w) (h : u + v ≤ w) : AtMost w (x + y) := by
  obtain ⟨s, x, rfl⟩ := exists_fin (hx.isFinite hu)
  obtain ⟨t, y, rfl⟩ := exists_fin (hy.isFinite hv)
  have hx' := atMost_fin_iff.mp hx
  have hy' := atMost_fin_iff.mp hy
  refine of_place (place_fin_add_fin ..) Nat.one_pos hw ?_
  have := natAbs_signed s x
  have := natAbs_signed t y
  omega

theorem mul (hx : AtMost u x) (hy : AtMost v y) (hu : u < unitLimit) (hv : v < unitLimit)
    (hw : Short w) (h : u * v ≤ w * unitsPerOne) : AtMost w (x * y) := by
  obtain ⟨s, x, rfl⟩ := exists_fin (hx.isFinite hu)
  obtain ⟨t, y, rfl⟩ := exists_fin (hy.isFinite hv)
  refine of_place (place_fin_mul_fin ..) unitsPerOne_pos hw ?_
  rw [Int.natAbs_mul, natAbs_signed, natAbs_signed]
  exact Nat.le_trans (Nat.mul_le_mul (atMost_fin_iff.mp hx) (atMost_fin_iff.mp hy)) h

/-- A number differs from a sum with it by about what was added. -/
theorem sub_add {u v w : Nat} (hx : AtMost u x) (hy : AtMost v y) (hu : u < unitLimit)
    (hv : v < unitLimit) (hxy : (x + y).isFinite = true) (hw : Short w) (h : 2 * v ≤ w) :
    AtMost w (x - (x + y)) := by
  obtain ⟨s, x, rfl⟩ := exists_fin (hx.isFinite hu)
  obtain ⟨t, y, rfl⟩ := exists_fin (hy.isFinite hv)
  have hnear := roundPlace_nearest (z := signed s x + signed t y) (short_place (place_fin s x))
    (natAbs_place_le (place_fin s x))
  have hplace := place_fin_add_fin s t x y
  obtain ⟨r, z, hz⟩ := exists_fin hxy
  rw [hz, place_fin, Option.some.injEq] at hplace
  show AtMost w (fin s x + (-(fin s x + fin t y)))
  rw [hz]
  refine of_place (place_fin_add_fin s (!r) x z) Nat.one_pos hw ?_
  have := natAbs_signed t y
  have := atMost_fin_iff.mp hy
  rw [signed_not]
  omega

theorem leading {v : Nat} (hx : AtMost v x) (hv : v < unitLimit) (k : Nat) :
    AtMost v (x.leading k) := by
  obtain ⟨s, x, rfl⟩ := exists_fin (hx.isFinite hv)
  have hle := atMost_fin_iff.mp hx
  refine mono (of_place (place_round ..) Nat.one_pos x.short ?_) hle
  have := Nat.div_mul_le_self x.units (2 ^ (Magnitude.spare x.units + k))
  split <;> omega

end AtMost

/-! ### Powers of two as bounds -/

/-- The number is at most `2 ^ e` in size. -/
def Within (e : Nat) (x : Binary64) : Prop := AtMost (2 ^ (e + places)) x

theorem within_of_abs_le {e : Nat} (h : x.abs ≤ ofInt (2 ^ e)) (he : e < 1024) : Within e x := by
  obtain ⟨a, b, ha, hb, hab⟩ := abs_le_iff_place.mp h
  obtain rfl := place_inj (place_two_pow he) hb
  exact ⟨a, ha, Int.ofNat_le.mp hab⟩

namespace Within

variable {a b e : Nat}

theorem isFinite (h : Within e x) (he : e < 1024) : x.isFinite = true :=
  AtMost.isFinite h (two_pow_lt_unitLimit he)

theorem mono (h : Within a x) (hae : a ≤ e) : Within e x :=
  AtMost.mono h (Nat.pow_le_pow_right Nat.two_pos (Nat.add_le_add_right hae places))

theorem ofInt {n : Int} (h : n.natAbs ≤ 2 ^ e) : Within e (ofInt n) := by
  refine AtMost.of_place (place_ofInt n) Nat.one_pos (short_two_pow _) ?_
  rw [Int.natAbs_mul, Int.natAbs_natCast, Nat.mul_one, two_pow_add_places]
  exact Nat.mul_le_mul_right _ h

theorem ofHalves {n : Int} (h : n.natAbs ≤ 2 ^ e * 2) : Within e (ofHalves n) := by
  refine AtMost.of_place (place_ofHalves n) Nat.two_pos (short_two_pow _) ?_
  rw [Int.natAbs_mul, Int.natAbs_natCast, two_pow_add_places, Nat.mul_right_comm]
  exact Nat.mul_le_mul_right _ h

theorem add (hx : Within a x) (hy : Within b y) (h : max a b < e ∧ e < 1024) :
    Within e (x + y) := by
  have ha : 2 ^ (a + places) ≤ 2 ^ (e - 1 + places) :=
    Nat.pow_le_pow_right Nat.two_pos (by omega)
  have hb : 2 ^ (b + places) ≤ 2 ^ (e - 1 + places) :=
    Nat.pow_le_pow_right Nat.two_pos (by omega)
  have hexp : e + places = e - 1 + places + 1 := by omega
  refine AtMost.add hx hy (two_pow_lt_unitLimit (by omega)) (two_pow_lt_unitLimit (by omega))
    (short_two_pow _) ?_
  rw [hexp, Nat.pow_succ]
  omega

theorem sub (hx : Within a x) (hy : Within b y) (h : max a b < e ∧ e < 1024) :
    Within e (x - y) :=
  hx.add (AtMost.neg hy) h

theorem mul (hx : Within a x) (hy : Within b y) (h : a + b ≤ e ∧ e < 1024) :
    Within e (x * y) := by
  refine AtMost.mul hx hy (two_pow_lt_unitLimit (by omega)) (two_pow_lt_unitLimit (by omega))
    (short_two_pow _) ?_
  calc 2 ^ (a + places) * 2 ^ (b + places) = 2 ^ (a + places + (b + places)) :=
        (Nat.pow_add ..).symm
    _ ≤ 2 ^ (e + places + places) := Nat.pow_le_pow_right Nat.two_pos (by omega)
    _ = 2 ^ (e + places) * unitsPerOne := two_pow_add_places _

end Within

theorem isFinite_half : (ofHalves 1).isFinite = true :=
  Within.isFinite (e := 0) (Within.ofHalves (by decide)) (by decide)

/-! ### Finite numbers and moderate ones -/

/-- A number of moderate size is too little to take a finite number out of range. -/
theorem isFinite_add_of_within {e : Nat} (hx : x.isFinite = true) (hy : Within e y) (he : e ≤ 64) :
    (x + y).isFinite = true := by
  obtain ⟨s, x, rfl⟩ := exists_fin hx
  obtain ⟨t, y, rfl⟩ := exists_fin (hy.isFinite (by omega))
  have hunits := atMost_fin_iff.mp (hy.mono he)
  have hlargest : roundShort (2 ^ topSpare * (2 ^ 53 - 1) + 2 ^ (64 + places)) 1 < unitLimit := by
    decide +kernel
  refine isFinite_iff_place.mpr ⟨_, place_fin_add_fin .., ?_⟩
  rw [natAbs_roundPlace]
  refine Nat.lt_of_le_of_lt (Nat.min_le_left ..) (Nat.lt_of_le_of_lt ?_ hlargest)
  refine roundShort_mono Nat.one_pos Nat.one_pos (Nat.mul_le_mul_right 1 ?_)
  have := x.short.le_largest x.small
  have := natAbs_signed s x
  have := natAbs_signed t y
  omega

/-! ### Positive numbers -/

theorem unitLimit_le_natAbs_place {a : Int} (hfin : x.isFinite = false)
    (ha : x.place = some a) : unitLimit ≤ a.natAbs := by
  refine Nat.not_lt.mp fun hlt => ?_
  simp [isFinite_iff_place.mpr ⟨a, ha, hlt⟩] at hfin

theorem eq_inf_of_nonneg (h : zero false ≤ x) (hfin : x.isFinite = false) : x = inf false := by
  obtain ⟨a, ha, hpos⟩ := zero_le_iff_place.mp h
  have hlimit := unitLimit_le_natAbs_place hfin ha
  have hinf := eq_inf_of_place ha (by omega)
  rwa [decide_eq_false (by omega)] at hinf

theorem eq_inf_of_nonpos (h : x ≤ zero false) (hfin : x.isFinite = false) : x = inf true := by
  obtain ⟨a, ha, hneg⟩ := le_zero_iff_place.mp h
  have hlimit := unitLimit_le_natAbs_place hfin ha
  have := unitLimit_pos
  have hinf := eq_inf_of_place ha (by omega)
  rwa [decide_eq_true (by omega)] at hinf

theorem isFinite_or_eq_inf_of_le (h : x ≤ y) (hx : x.isFinite = true) :
    y.isFinite = true ∨ y = inf false := by
  cases y with
  | nan => exact absurd rfl (ne_nan_of_le h).2
  | fin s m => exact Or.inl rfl
  | inf s =>
    cases s with
    | false => exact Or.inr rfl
    | true =>
      rw [eq_of_le_inf h] at hx
      exact absurd hx Bool.false_ne_true

theorem isNaN_eq_false (h : x.isFinite = true) : x.isNaN = false := by
  obtain ⟨s, m, rfl⟩ := exists_fin h
  rfl

theorem pos_of_finite (hx : x.isFinite = true) (hneg : x.lt (zero false) = false)
    (hzero : ¬∃ s, x = zero s) : (zero false).lt x = true := by
  obtain ⟨s, m, rfl⟩ := exists_fin hx
  have hm : signed s m ≠ 0 := by
    intro h0
    refine hzero ⟨s, congrArg (fin s) (Magnitude.ext ?_)⟩
    have := natAbs_signed s m
    rw [units_zero]
    omega
  obtain ⟨a, ha, hle⟩ := zero_le_iff_place.mp (le_of_not_lt (by simp) (by simp [zero]) hneg)
  rw [place_fin, Option.some.injEq] at ha
  exact lt_iff_place.mpr ⟨0, _, place_zero _, place_fin s m, by omega⟩

/-- A positive finite number has the positive sign. -/
theorem exists_fin_of_pos (hx : x.isFinite = true) (hpos : (zero false).lt x = true) :
    ∃ m : Magnitude, x = fin false m ∧ m.units ≠ 0 := by
  obtain ⟨s, m, rfl⟩ := exists_fin hx
  obtain ⟨a, b, ha, hb, hab⟩ := lt_iff_place.mp hpos
  rw [place_zero, Option.some.injEq] at ha
  rw [place_fin, Option.some.injEq] at hb
  cases s with
  | false => exact ⟨m, rfl, by simp only [signed] at hb; omega⟩
  | true =>
    simp only [signed, if_pos] at hb
    omega

theorem mul_inf_of_pos (hx : x.isFinite = true) (hpos : (zero false).lt x = true) :
    x * inf false = inf false := by
  obtain ⟨m, rfl, hm⟩ := exists_fin_of_pos hx hpos
  show mul _ _ = _
  rw [mul, if_neg hm]
  rfl

/-- A factor of one or more does not lower a positive number. -/
theorem le_mul_of_one_le (hx : x.isFinite = true) (hpos : zero false ≤ x) (hc : c.isFinite = true)
    (hone : ofInt 1 ≤ c) : x ≤ c * x := by
  obtain ⟨s, x, rfl⟩ := exists_fin hx
  obtain ⟨t, c, rfl⟩ := exists_fin hc
  obtain ⟨a, b, ha, hb, hab⟩ := le_iff_place.mp hone
  rw [place_one, Option.some.injEq] at ha
  rw [place_fin, Option.some.injEq] at hb
  subst ha hb
  have hnonneg : 0 ≤ signed s x := by simpa using zero_le_iff_place.mp hpos
  have hunit := unitsPerOne_pos
  refine le_iff_place.mpr ⟨_, _, place_fin s x, place_fin_mul_fin .., ?_⟩
  calc signed s x = roundPlace (signed s x * unitsPerOne) unitsPerOne :=
        (roundPlace_place (place_fin s x) hunit).symm
    _ ≤ roundPlace (signed t c * signed s x) unitsPerOne := by
      refine roundPlace_mono hunit hunit (Int.mul_le_mul_of_nonneg_right ?_ (by omega))
      rw [Int.mul_comm]
      exact Int.mul_le_mul_of_nonneg_right hab hnonneg

theorem twice_pos (hx : x.isFinite = true) (hpos : (zero false).lt x = true) :
    (zero false).lt (ofInt 2 * x) = true :=
  lt_of_lt_of_le hpos
    (le_mul_of_one_le hx (le_of_lt hpos) isFinite_two (ofInt_le_ofInt (by decide)))

theorem exists_one : ∃ o : Magnitude, ofInt 1 = fin false o ∧ o.units = unitsPerOne := by
  obtain ⟨o, ho, -⟩ := exists_fin_of_pos isFinite_one one_pos
  have hplace := place_one
  rw [ho, place_fin, Option.some.injEq] at hplace
  exact ⟨o, ho, Int.ofNat_inj.mp hplace⟩

theorem one_div_inf : ofInt 1 / inf false = zero false := by
  obtain ⟨o, ho, -⟩ := exists_one
  rw [ho]
  rfl

/-- The reciprocal of a positive number is not negative. -/
theorem zero_le_recip (hpos : (zero false).lt x = true) : zero false ≤ ofInt 1 / x := by
  obtain ⟨o, ho, -⟩ := exists_one
  rw [ho]
  cases hx : x.isFinite with
  | false =>
    rw [eq_inf_of_nonneg (le_of_lt hpos) hx]
    exact zero_le_iff_place.mpr ⟨0, rfl, Int.le_refl 0⟩
  | true =>
    obtain ⟨m, rfl, hm⟩ := exists_fin_of_pos hx hpos
    rw [fin_div_fin, if_neg hm]
    refine zero_le_iff_place.mpr ⟨_, place_round .., roundPlace_nonneg _ ?_⟩
    exact Int.natCast_nonneg _

end Binary64

end FriBound
