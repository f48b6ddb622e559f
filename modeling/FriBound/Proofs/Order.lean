import FriBound.Proofs.Rounding

/-!
# The order of rounded numbers

Numbers are ordered by their places on the number line, and a NaN stands in no relation. A rounded
operation puts its result at the place next to the exact one, and `roundPlace` keeps the order, so
the operation does.

## Main definitions

* `Binary64.le` — numerical order, with equality
* `Binary64.roundPlace` — the place next to a fraction of units

## Main results

* `Binary64.roundPlace_mono`, `Binary64.roundPlace_place` — rounding keeps the order, and what has a
  place stays there
* `Binary64.add_le_add`, `Binary64.le_add_of_nonneg` — sums and order
-/

namespace FriBound

namespace Binary64

variable {x y z B : Binary64}

/-! ### Places -/

/-- Numerical order, with equality. It does not hold when a side is NaN. -/
def le (x y : Binary64) : Bool :=
  match x.place, y.place with
  | some a, some b => decide (a ≤ b)
  | _, _ => false

instance : LE Binary64 := ⟨fun x y => x.le y = true⟩

instance : DecidableLE Binary64 := fun x y => inferInstanceAs (Decidable (x.le y = true))

theorem le_iff_place : x ≤ y ↔ ∃ a b, x.place = some a ∧ y.place = some b ∧ a ≤ b := by
  show x.le y = true ↔ _
  rw [le]
  cases x.place <;> cases y.place <;> simp

theorem lt_iff_place : x.lt y = true ↔ ∃ a b, x.place = some a ∧ y.place = some b ∧ a < b := by
  rw [lt]
  cases x.place <;> cases y.place <;> simp

/-- A number has one place at most. -/
theorem place_inj {a b : Int} (ha : x.place = some a) (hb : x.place = some b) : a = b :=
  Option.some.inj (ha.symm.trans hb)

theorem le_iff_of_place {a b : Int} (ha : x.place = some a) (hb : y.place = some b) :
    x ≤ y ↔ a ≤ b := by
  rw [le_iff_place, ha, hb]
  simp

theorem exists_place_of_le {a : Int} (h : x ≤ y) (ha : x.place = some a) :
    ∃ b, y.place = some b ∧ a ≤ b := by
  obtain ⟨a', b, ha', hb, hab⟩ := le_iff_place.mp h
  exact ⟨b, hb, place_inj ha ha' ▸ hab⟩

theorem exists_place_of_ge {b : Int} (h : x ≤ y) (hb : y.place = some b) :
    ∃ a, x.place = some a ∧ a ≤ b := by
  obtain ⟨a, b', ha, hb', hab⟩ := le_iff_place.mp h
  exact ⟨a, ha, place_inj hb hb' ▸ hab⟩

theorem le_trans (hxy : x ≤ y) (hyz : y ≤ z) : x ≤ z := by
  obtain ⟨a, b, hx, hy, hab⟩ := le_iff_place.mp hxy
  obtain ⟨c, hz, hbc⟩ := exists_place_of_le hyz hy
  exact le_iff_place.mpr ⟨a, c, hx, hz, Int.le_trans hab hbc⟩

theorem exists_place (h : x ≠ nan) : ∃ a, x.place = some a := by
  cases x with
  | nan => exact absurd rfl h
  | inf s => exact ⟨_, rfl⟩
  | fin s m => exact ⟨_, rfl⟩

theorem le_refl (h : x ≠ nan) : x ≤ x := by
  obtain ⟨a, ha⟩ := exists_place h
  exact le_iff_place.mpr ⟨a, a, ha, ha, Int.le_refl a⟩

theorem le_of_not_lt (hx : x ≠ nan) (hy : y ≠ nan) (h : x.lt y = false) : y ≤ x := by
  obtain ⟨a, ha⟩ := exists_place hx
  obtain ⟨b, hb⟩ := exists_place hy
  have hba : ¬a < b := by
    intro hab
    simp [lt_iff_place.mpr ⟨a, b, ha, hb, hab⟩] at h
  exact le_iff_place.mpr ⟨b, a, hb, ha, Int.not_lt.mp hba⟩

theorem le_of_lt (h : x.lt y = true) : x ≤ y := by
  obtain ⟨a, b, ha, hb, hab⟩ := lt_iff_place.mp h
  exact le_iff_place.mpr ⟨a, b, ha, hb, Int.le_of_lt hab⟩

theorem lt_asymm (h : x.lt y = true) : y.lt x = false := by
  obtain ⟨a, b, ha, hb, hab⟩ := lt_iff_place.mp h
  rw [Bool.eq_false_iff]
  intro h'
  obtain ⟨b', a', hb', ha', hba⟩ := lt_iff_place.mp h'
  obtain rfl : a = a' := place_inj ha ha'
  obtain rfl : b = b' := place_inj hb hb'
  omega

theorem lt_of_lt_of_le (hxy : x.lt y = true) (hyz : y ≤ z) : x.lt z = true := by
  obtain ⟨a, b, hx, hy, hab⟩ := lt_iff_place.mp hxy
  obtain ⟨c, hz, hbc⟩ := exists_place_of_le hyz hy
  exact lt_iff_place.mpr ⟨a, c, hx, hz, by omega⟩

theorem lt_of_le_of_lt (hxy : x ≤ y) (hyz : y.lt z = true) : x.lt z = true := by
  obtain ⟨b, c, hy, hz, hbc⟩ := lt_iff_place.mp hyz
  obtain ⟨a, hx, hab⟩ := exists_place_of_ge hxy hy
  exact lt_iff_place.mpr ⟨a, c, hx, hz, by omega⟩

theorem not_lt_of_le (h : x ≤ y) : y.lt x = false := by
  rw [Bool.eq_false_iff]
  intro h'
  obtain ⟨a, b, ha, hb, hab⟩ := lt_iff_place.mp (lt_of_lt_of_le h' h)
  obtain rfl : a = b := place_inj ha hb
  omega

theorem ne_nan_of_le (h : x ≤ y) : x ≠ nan ∧ y ≠ nan := by
  obtain ⟨a, b, ha, hb, -⟩ := le_iff_place.mp h
  constructor <;> rintro rfl
  · simp [place] at ha
  · simp [place] at hb

theorem ne_nan_of_isFinite (h : x.isFinite = true) : x ≠ nan := by
  rintro rfl
  exact Bool.false_ne_true h

theorem isNaN_eq_false_of_ne (h : x ≠ nan) : x.isNaN = false := by
  cases x with
  | nan => exact absurd rfl h
  | inf s => rfl
  | fin s m => rfl

theorem natAbs_signed (s : Bool) (x : Magnitude) : (signed s x).natAbs = x.units := by
  cases s <;> simp [signed]

@[simp] theorem place_fin (s : Bool) (x : Magnitude) : (fin s x).place = some (signed s x) := rfl

@[simp] theorem place_zero (s : Bool) : (zero s).place = some 0 := by
  cases s <;> rfl

theorem zero_le_zero : zero false ≤ zero false := le_refl (by simp [zero])

theorem lt_zero_zero (s t : Bool) : (zero s).lt (zero t) = false := by
  rw [Bool.eq_false_iff]
  intro h
  obtain ⟨a, b, ha, hb, hab⟩ := lt_iff_place.mp h
  rw [place_zero, Option.some.injEq] at ha hb
  omega

theorem zero_lt_inf (s : Bool) : (zero s).lt (inf false) = true := by
  have := unitLimit_pos
  exact lt_iff_place.mpr ⟨_, _, place_zero s, rfl, by simpa using this⟩

theorem zero_le_iff_place {s : Bool} : zero s ≤ x ↔ ∃ a, x.place = some a ∧ 0 ≤ a := by
  rw [le_iff_place, place_zero]
  simp

theorem le_zero_iff_place {s : Bool} : x ≤ zero s ↔ ∃ a, x.place = some a ∧ a ≤ 0 := by
  rw [le_iff_place, place_zero]
  simp

theorem ofInt_zero : ofInt 0 = zero false := by
  rw [ofInt, Int.natAbs_zero, Nat.zero_mul, round_zero]
  rfl

/-- The two zeros are what is numerically equal to zero. -/
theorem same_zero_iff : x.same (ofInt 0) = true ↔ ∃ s, x = zero s := by
  rw [ofInt_zero, same, place_zero]
  cases x with
  | nan => simp [place, zero]
  | inf s =>
    have hlimit : unitLimit ≠ 0 := Nat.ne_of_gt unitLimit_pos
    cases s <;> simp [place, zero, hlimit]
  | fin s x =>
    have hz : signed s x = 0 ↔ x = Magnitude.zero := by
      rw [signed, Magnitude.ext_iff]
      split <;> simp [Magnitude.zero]
    simp [zero, hz]

theorem exists_eq_zero (h : x ≤ zero false) (h' : zero false ≤ x) : ∃ s, x = zero s := by
  obtain ⟨a, ha, hle⟩ := le_zero_iff_place.mp h
  obtain rfl : a = 0 := Int.le_antisymm hle ((le_iff_of_place (place_zero _) ha).mp h')
  refine same_zero_iff.mp ?_
  rw [ofInt_zero, same, place_zero, ha]
  simp

theorem signed_not (s : Bool) (x : Magnitude) : signed (!s) x = -signed s x := by
  cases s <;> simp [signed]

/-- The finite numbers lie between the infinities. -/
theorem isFinite_iff_place : x.isFinite = true ↔ ∃ a, x.place = some a ∧ a.natAbs < unitLimit := by
  cases x with
  | nan => simp [isFinite, place]
  | inf s => cases s <;> simp [isFinite, place]
  | fin s x => simp [isFinite, place, natAbs_signed, x.small]

theorem natAbs_place_lt {a : Int} (hx : x.isFinite = true) (ha : x.place = some a) :
    a.natAbs < unitLimit := by
  obtain ⟨b, hb, hlt⟩ := isFinite_iff_place.mp hx
  rwa [place_inj ha hb]

theorem isFinite_of_le_of_le {l u : Binary64} (hl : l ≤ x) (hu : x ≤ u) (hfin : l.isFinite = true)
    (hfin' : u.isFinite = true) : x.isFinite = true := by
  obtain ⟨a, b, hla, hxb, hab⟩ := le_iff_place.mp hl
  obtain ⟨c, huc, hbc⟩ := exists_place_of_le hu hxb
  have ha := natAbs_place_lt hfin hla
  have hc := natAbs_place_lt hfin' huc
  exact isFinite_iff_place.mpr ⟨b, hxb, by omega⟩

/-- From the limit on there is only the infinity of that side. -/
theorem eq_inf_of_place {a : Int} (h : x.place = some a) (ha : unitLimit ≤ a.natAbs) :
    x = inf (decide (a < 0)) := by
  cases x with
  | nan => simp [place] at h
  | inf s =>
    have := unitLimit_pos
    rw [place, Option.some.injEq] at h
    cases s <;> simp [← h]
    omega
  | fin s x =>
    have := natAbs_signed s x ▸ x.small
    rw [place_fin, Option.some.injEq] at h
    omega

theorem eq_of_le_inf (h : x ≤ inf true) : x = inf true := by
  obtain ⟨a, b, ha, hb, hab⟩ := le_iff_place.mp h
  rw [place, if_pos rfl, Option.some.injEq] at hb
  have := unitLimit_pos
  have hinf := eq_inf_of_place ha (by omega)
  rwa [decide_eq_true (by omega)] at hinf

theorem eq_of_inf_le (h : inf false ≤ x) : x = inf false := by
  obtain ⟨b, a, hb, ha, hab⟩ := le_iff_place.mp h
  rw [place, if_neg Bool.false_ne_true, Option.some.injEq] at hb
  have hinf := eq_inf_of_place ha (by omega)
  rwa [decide_eq_false (by omega)] at hinf

theorem natAbs_place_le {a : Int} (h : x.place = some a) : a.natAbs ≤ unitLimit := by
  cases x with
  | nan => simp [place] at h
  | inf s =>
    rw [place, Option.some.injEq] at h
    cases s <;> simp [← h]
  | fin s x =>
    rw [place, Option.some.injEq] at h
    rw [← h, natAbs_signed]
    exact Nat.le_of_lt x.small

theorem le_inf (h : x ≠ nan) : x ≤ inf false := by
  obtain ⟨a, ha⟩ := exists_place h
  have := natAbs_place_le ha
  exact le_iff_place.mpr ⟨a, _, ha, rfl, by simp; omega⟩

theorem negInf_le (h : x ≠ nan) : inf true ≤ x := by
  obtain ⟨a, ha⟩ := exists_place h
  have := natAbs_place_le ha
  exact le_iff_place.mpr ⟨_, a, rfl, ha, by simp; omega⟩

theorem place_abs {a : Int} (h : x.place = some a) : x.abs.place = some (a.natAbs : Int) := by
  cases x with
  | nan => simp [place] at h
  | inf s =>
    rw [place, Option.some.injEq] at h
    cases s <;> simp [abs, place, ← h]
  | fin s x =>
    rw [place, Option.some.injEq] at h
    rw [abs, place, ← h, natAbs_signed]
    rfl

theorem place_neg {a : Int} (h : x.place = some a) : (-x).place = some (-a) := by
  show x.neg.place = _
  cases x with
  | nan => simp [place] at h
  | inf s =>
    rw [place, Option.some.injEq] at h
    cases s <;> simp [neg, place, ← h]
  | fin s x =>
    rw [place, Option.some.injEq] at h
    cases s <;> simp [neg, place, ← h, signed]

theorem neg_le_neg (h : x ≤ y) : -y ≤ -x := by
  obtain ⟨a, b, ha, hb, hab⟩ := le_iff_place.mp h
  exact le_iff_place.mpr ⟨_, _, place_neg hb, place_neg ha, Int.neg_le_neg hab⟩

theorem neg_lt_neg (h : x.lt y = true) : (-y).lt (-x) = true := by
  obtain ⟨a, b, ha, hb, hab⟩ := lt_iff_place.mp h
  exact lt_iff_place.mpr ⟨_, _, place_neg hb, place_neg ha, Int.neg_lt_neg hab⟩

/-! ### Rounding to a place -/

/-- The place next to `z / b` units. -/
def roundPlace (z : Int) (b : Nat) : Int := z.sign * (min (roundShort z.natAbs b) unitLimit : Nat)

theorem roundPlace_neg (z : Int) (b : Nat) : roundPlace (-z) b = -roundPlace z b := by
  rw [roundPlace, roundPlace, Int.sign_neg, Int.natAbs_neg, Int.neg_mul]

theorem roundPlace_natCast (a b : Nat) :
    roundPlace a b = (min (roundShort a b) unitLimit : Nat) := by
  rcases Nat.eq_zero_or_pos a with rfl | ha
  · simp [roundPlace]
  · rw [roundPlace, Int.sign_natCast_of_ne_zero (Nat.ne_of_gt ha), Int.one_mul, Int.natAbs_natCast]

theorem place_round_false (a b : Nat) : (round false a b).place = some (roundPlace a b) := by
  rw [roundPlace_natCast, round]
  split
  · simp [place, signed, Nat.min_eq_left (Nat.le_of_lt ‹_›)]
  · simp [place, Nat.min_eq_right (Nat.le_of_not_lt ‹_›)]

theorem round_not (s : Bool) (a b : Nat) : round (!s) a b = -round s a b := by
  show _ = (round s a b).neg
  rw [round, round]
  split <;> rfl

theorem place_round (s : Bool) (a b : Nat) :
    (round s a b).place = some (roundPlace (if s then -a else a) b) := by
  cases s with
  | false => exact place_round_false a b
  | true =>
    have hneg : round true a b = -round false a b := round_not false a b
    rw [hneg, place_neg (place_round_false a b), if_pos rfl, roundPlace_neg]

theorem natAbs_roundPlace (z : Int) (b : Nat) :
    (roundPlace z b).natAbs = min (roundShort z.natAbs b) unitLimit := by
  rcases Int.lt_trichotomy z 0 with h | rfl | h
  · rw [roundPlace, Int.sign_eq_neg_one_of_neg h]
    omega
  · simp [roundPlace]
  · rw [roundPlace, Int.sign_eq_one_of_pos h]
    omega

/-- Rounding keeps the order of fractions. -/
theorem roundPlace_mono {z z' : Int} {b b' : Nat} (hb : 0 < b) (hb' : 0 < b')
    (h : z * b' ≤ z' * b) : roundPlace z b ≤ roundPlace z' b' := by
  have hnat : ∀ {a a' c c' : Nat}, 0 < c → 0 < c' → (a * c' : Int) ≤ a' * c →
      roundPlace a c ≤ roundPlace a' c' := by
    intro a a' c c' hc hc' hle
    have hshort := roundShort_mono hc hc' (by exact_mod_cast hle)
    rw [roundPlace_natCast, roundPlace_natCast]
    omega
  rcases Int.le_total 0 z with hz | hz
  · have hz' : 0 ≤ z' := by
      have h0 : 0 ≤ z' * b := Int.le_trans (Int.mul_nonneg hz (by omega)) h
      exact Int.nonneg_of_mul_nonneg_left h0 (by omega)
    obtain ⟨a, rfl⟩ := Int.eq_ofNat_of_zero_le hz
    obtain ⟨a', rfl⟩ := Int.eq_ofNat_of_zero_le hz'
    exact hnat hb hb' h
  · obtain ⟨a, ha⟩ := Int.eq_ofNat_of_zero_le (Int.neg_nonneg_of_nonpos hz)
    obtain rfl : z = -a := by omega
    rcases Int.le_total 0 z' with hz' | hz'
    · obtain ⟨a', rfl⟩ := Int.eq_ofNat_of_zero_le hz'
      rw [roundPlace_neg, roundPlace_natCast, roundPlace_natCast]
      omega
    · obtain ⟨a', ha'⟩ := Int.eq_ofNat_of_zero_le (Int.neg_nonneg_of_nonpos hz')
      obtain rfl : z' = -a' := by omega
      rw [Int.neg_mul, Int.neg_mul] at h
      rw [roundPlace_neg, roundPlace_neg]
      exact Int.neg_le_neg (hnat hb' hb (Int.neg_le_neg_iff.mp h))

theorem roundPlace_nonneg {z : Int} (b : Nat) (h : 0 ≤ z) : 0 ≤ roundPlace z b := by
  obtain ⟨a, rfl⟩ := Int.eq_ofNat_of_zero_le h
  rw [roundPlace_natCast]
  omega

theorem roundPlace_nonpos {z : Int} (b : Nat) (h : z ≤ 0) : roundPlace z b ≤ 0 := by
  have hneg := roundPlace_nonneg b (Int.neg_nonneg_of_nonpos h)
  rw [roundPlace_neg] at hneg
  omega

theorem short_place {a : Int} (h : x.place = some a) : Short a.natAbs := by
  cases x with
  | nan => simp [place] at h
  | inf s =>
    rw [place, Option.some.injEq] at h
    have habs : a.natAbs = unitLimit := by cases s <;> simp [← h]
    rw [habs, unitLimit_eq]
    exact short_two_pow topDigits
  | fin s x =>
    rw [place, Option.some.injEq] at h
    rw [← h, natAbs_signed]
    exact x.short

/-- A place of 53 digits is next to itself. -/
theorem roundPlace_of_short {v : Int} {b : Nat} (hv : Short v.natAbs)
    (hlimit : v.natAbs ≤ unitLimit) (hb : 0 < b) : roundPlace (v * b) b = v := by
  have hsign : (v * b).sign = v.sign := by
    rw [Int.sign_mul, Int.sign_natCast_of_ne_zero (Nat.ne_of_gt hb), Int.mul_one]
  rw [roundPlace, Int.natAbs_mul, Int.natAbs_natCast, roundShort_of_short hv hb, hsign,
    Nat.min_eq_left hlimit, Int.sign_mul_natAbs]

theorem roundPlace_place {a : Int} {b : Nat} (h : x.place = some a) (hb : 0 < b) :
    roundPlace (a * b) b = a :=
  roundPlace_of_short (short_place h) (natAbs_place_le h) hb

theorem roundPlace_le {z v : Int} {b : Nat} (hv : Short v.natAbs) (hlimit : v.natAbs ≤ unitLimit)
    (hb : 0 < b) (h : z ≤ v * b) : roundPlace z b ≤ v :=
  calc roundPlace z b ≤ roundPlace (v * b) b :=
        roundPlace_mono hb hb (Int.mul_le_mul_of_nonneg_right h (by omega))
    _ = v := roundPlace_of_short hv hlimit hb

theorem le_roundPlace {z v : Int} {b : Nat} (hv : Short v.natAbs) (hlimit : v.natAbs ≤ unitLimit)
    (hb : 0 < b) (h : v * b ≤ z) : v ≤ roundPlace z b :=
  calc v = roundPlace (v * b) b := (roundPlace_of_short hv hlimit hb).symm
    _ ≤ roundPlace z b := roundPlace_mono hb hb (Int.mul_le_mul_of_nonneg_right h (by omega))

/-- No place of 53 digits is nearer to `z` units than what they are rounded to. -/
theorem roundPlace_nearest {z v : Int} (hv : Short v.natAbs) (hu : v.natAbs ≤ unitLimit) :
    (roundPlace z 1 - z).natAbs ≤ (v - z).natAbs := by
  have hnear : ∀ n : Nat,
      (min (roundShort n 1) unitLimit - n : Int).natAbs ≤ (v.natAbs - n : Int).natAbs := by
    intro n
    have hshort := roundShort_nearest (a := n) hv
    rcases Nat.le_total (roundShort n 1) unitLimit with hle | hle
    · omega
    · have hlimit : Short unitLimit := unitLimit_eq ▸ short_two_pow topDigits
      have hround : n ≤ unitLimit → roundShort n 1 ≤ unitLimit :=
        fun hn => roundShort_le hlimit Nat.one_pos (by omega)
      omega
  rcases Int.le_total 0 z with hz | hz
  · obtain ⟨n, rfl⟩ := Int.eq_ofNat_of_zero_le hz
    have := hnear n
    rw [roundPlace_natCast]
    omega
  · obtain ⟨n, hn⟩ := Int.eq_ofNat_of_zero_le (Int.neg_nonneg_of_nonpos hz)
    obtain rfl : z = -n := by omega
    have := hnear n
    rw [roundPlace_neg, roundPlace_natCast]
    omega

/-! ### Places of results -/

theorem place_fin_add_fin (s t : Bool) (x y : Magnitude) :
    (fin s x + fin t y).place = some (roundPlace (signed s x + signed t y) 1) := by
  rw [fin_add_fin, ofSum]
  generalize signed s x + signed t y = z
  split
  · subst z
    rw [place_zero, roundPlace]
    simp
  · rw [place_round]
    congr 2
    by_cases hz : z < 0
    · rw [decide_eq_true hz, if_pos rfl]
      omega
    · rw [decide_eq_false hz, if_neg Bool.false_ne_true]
      omega

theorem place_fin_mul_fin (s t : Bool) (x y : Magnitude) :
    (fin s x * fin t y).place = some (roundPlace (signed s x * signed t y) unitsPerOne) := by
  rw [fin_mul_fin, place_round]
  congr 2
  cases s <;> cases t <;> grind [signed]

/-! ### Finite numbers -/

theorem exists_fin (h : x.isFinite = true) : ∃ s m, x = fin s m := by
  cases x with
  | nan => exact absurd h Bool.false_ne_true
  | inf s => exact absurd h Bool.false_ne_true
  | fin s m => exact ⟨s, m, rfl⟩

theorem exists_fin_of_place {a : Int} (h : x.isFinite = true) (ha : x.place = some a) :
    ∃ s m, x = fin s m ∧ signed s m = a := by
  obtain ⟨s, m, rfl⟩ := exists_fin h
  exact ⟨s, m, rfl, place_inj (place_fin s m) ha⟩

theorem place_add {a b : Int} (hx : x.isFinite = true) (hy : y.isFinite = true)
    (ha : x.place = some a) (hb : y.place = some b) :
    (x + y).place = some (roundPlace (a + b) 1) := by
  obtain ⟨s, x, rfl, rfl⟩ := exists_fin_of_place hx ha
  obtain ⟨t, y, rfl, rfl⟩ := exists_fin_of_place hy hb
  exact place_fin_add_fin s t x y

theorem place_sub {a b : Int} (hx : x.isFinite = true) (hy : y.isFinite = true)
    (ha : x.place = some a) (hb : y.place = some b) :
    (x - y).place = some (roundPlace (a - b) 1) := by
  obtain ⟨s, x, rfl, rfl⟩ := exists_fin_of_place hx ha
  obtain ⟨t, y, rfl, rfl⟩ := exists_fin_of_place hy hb
  show (fin s x + fin (!t) y).place = _
  rw [place_fin_add_fin, signed_not, Int.sub_eq_add_neg]

theorem place_mul {a b : Int} (hx : x.isFinite = true) (hy : y.isFinite = true)
    (ha : x.place = some a) (hb : y.place = some b) :
    (x * y).place = some (roundPlace (a * b) unitsPerOne) := by
  obtain ⟨s, x, rfl, rfl⟩ := exists_fin_of_place hx ha
  obtain ⟨t, y, rfl, rfl⟩ := exists_fin_of_place hy hb
  exact place_fin_mul_fin s t x y

/-- Scaling is one rounding of the scaled place. -/
theorem place_scale {a : Int} (hx : x.isFinite = true) (ha : x.place = some a) (n : Int) :
    (x.scale n).place = some (roundPlace (a * (2 ^ n.toNat : Nat)) (2 ^ (-n).toNat)) := by
  obtain ⟨s, x, rfl, rfl⟩ := exists_fin_of_place hx ha
  cases n with
  | ofNat e =>
    have hpos : (Int.ofNat e).toNat = e := rfl
    have hneg : (-Int.ofNat e).toNat = 0 := by simp
    rw [scale, place_round, hneg, hpos, Nat.pow_zero]
    cases s <;> grind [signed]
  | negSucc e =>
    have hneg : (-Int.negSucc e).toNat = e + 1 := by simp
    rw [scale, place_round, hneg, Int.toNat_negSucc, Nat.pow_zero]
    cases s <;> simp [signed]

/-- Where there is room for the last digits, scaling is exact. -/
theorem place_scale_of_short {a b n : Int} (hx : x.isFinite = true) (ha : x.place = some a)
    (hb : Short b.natAbs) (hlimit : b.natAbs ≤ unitLimit)
    (h : a * (2 ^ n.toNat : Nat) = b * (2 ^ (-n).toNat : Nat)) : (x.scale n).place = some b := by
  rw [place_scale hx ha, h, roundPlace_of_short hb hlimit (Nat.two_pow_pos _)]

theorem abs_le_iff_place :
    x.abs ≤ B ↔ ∃ a b : Int, x.place = some a ∧ B.place = some b ∧ a.natAbs ≤ b := by
  rw [le_iff_place]
  constructor
  · rintro ⟨a, b, hx, hB, hab⟩
    cases hplace : x.place with
    | none =>
      cases x with
      | nan => simp [abs, place] at hx
      | inf s => simp [place] at hplace
      | fin s m => simp [place] at hplace
    | some c =>
      rw [place_abs hplace, Option.some.injEq] at hx
      exact ⟨c, b, rfl, hB, hx ▸ hab⟩
  · rintro ⟨a, b, hx, hB, hab⟩
    exact ⟨_, b, place_abs hx, hB, hab⟩

/-- Sums of finite numbers are ordered as their parts are. -/
theorem add_le_add {x' y' : Binary64} (hx : x ≤ x') (hy : y ≤ y')
    (hfin : x.isFinite = true ∧ y.isFinite = true)
    (hfin' : x'.isFinite = true ∧ y'.isFinite = true) : x + y ≤ x' + y' := by
  obtain ⟨s, x, rfl⟩ := exists_fin hfin.1
  obtain ⟨t, y, rfl⟩ := exists_fin hfin.2
  obtain ⟨s', x', rfl⟩ := exists_fin hfin'.1
  obtain ⟨t', y', rfl⟩ := exists_fin hfin'.2
  have hle : ∀ {s t : Bool} {x y : Magnitude}, fin s x ≤ fin t y → signed s x ≤ signed t y := by
    intro s t x y h
    simpa [place] using le_iff_place.mp h
  refine le_iff_place.mpr ⟨_, _, place_fin_add_fin .., place_fin_add_fin .., ?_⟩
  refine roundPlace_mono Nat.one_pos Nat.one_pos ?_
  have := hle hx
  have := hle hy
  omega

theorem add_comm (hx : x.isFinite = true) (hy : y.isFinite = true) : x + y = y + x := by
  obtain ⟨s, x, rfl⟩ := exists_fin hx
  obtain ⟨t, y, rfl⟩ := exists_fin hy
  rw [fin_add_fin, fin_add_fin, Bool.and_comm, Int.add_comm]

/-- What is added to a number and is not negative does not lower it, from either side. -/
theorem le_add_of_nonneg (hx : x.isFinite = true) (hy : y.isFinite = true) (h : zero false ≤ y) :
    x ≤ x + y ∧ x ≤ y + x := by
  obtain ⟨s, x, rfl⟩ := exists_fin hx
  obtain ⟨t, y, rfl⟩ := exists_fin hy
  have hplace : (fin s x).place = some (signed s x) := rfl
  have hpos : 0 ≤ signed t y := by
    simpa using zero_le_iff_place.mp h
  have hle : ∀ z, signed s x ≤ z → signed s x ≤ roundPlace z 1 := by
    intro z hz
    calc signed s x = roundPlace (signed s x * (1 : Nat)) 1 :=
          (roundPlace_place hplace Nat.one_pos).symm
      _ ≤ roundPlace z 1 := roundPlace_mono Nat.one_pos Nat.one_pos (by simpa using hz)
  exact ⟨le_iff_place.mpr ⟨_, _, hplace, place_fin_add_fin .., hle _ (by omega)⟩,
    le_iff_place.mpr ⟨_, _, hplace, place_fin_add_fin .., hle _ (by omega)⟩⟩

end Binary64

end FriBound
