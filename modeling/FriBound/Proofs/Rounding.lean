import FriBound.Binary64.Elementary

/-!
# Rounding

Rounding to 53 digits keeps the order of exact values and leaves a number of 53 digits as it is.
Both follow from one description of the nearest whole number, by what it does not exceed. Two
values that are rounded to different last places have a power of two between them.

What is infinite or undefined stays so in an operation, apart from the lower side of a quotient.
That is the second part of this module.

## Main results

* `divNearest_le_iff` — the nearest whole number, by what it does not exceed
* `roundShort_mono`, `roundShort_of_short` — rounding to 53 digits keeps the order, and is exact
  where it can be
* `roundShort_nearest` — no number of 53 digits is nearer
* `Binary64.isFinite_add`, `Binary64.isFinite_mul`, `Binary64.isFinite_div` — the sides of a finite
  result
-/

namespace FriBound

/-! ### The nearest whole number -/

theorem divNearest_le_iff {a b k : Nat} (hb : 0 < b) :
    divNearest a b ≤ k ↔ 2 * a < (2 * k + 1) * b ∨ 2 * a = (2 * k + 1) * b ∧ k % 2 = 0 := by
  have ha : a = b * (a / b) + a % b := (Nat.div_add_mod a b).symm
  have hr : a % b < b := Nat.mod_lt a hb
  have hk : (2 * k + 1) * b = 2 * (b * k) + b := by
    rw [Nat.add_mul, Nat.one_mul, Nat.mul_assoc, Nat.mul_comm k b]
  rw [hk, divNearest]
  generalize a / b = q at ha ⊢
  rcases Nat.lt_trichotomy k q with h | h | h
  · have hle : b * (k + 1) ≤ b * q := Nat.mul_le_mul_left b h
    rw [Nat.mul_add, Nat.mul_one] at hle
    split
    · omega
    · split <;> omega
  · subst h
    split
    · omega
    · split <;> omega
  · have hle : b * (q + 1) ≤ b * k := Nat.mul_le_mul_left b h
    rw [Nat.mul_add, Nat.mul_one] at hle
    split
    · omega
    · split <;> omega

theorem divNearest_mono {a b a' b' : Nat} (hb : 0 < b) (hb' : 0 < b') (h : a * b' ≤ a' * b) :
    divNearest a b ≤ divNearest a' b' := by
  have hle := (divNearest_le_iff hb').mp (Nat.le_refl (divNearest a' b'))
  rw [divNearest_le_iff hb]
  generalize divNearest a' b' = k at hle ⊢
  have h2 : 2 * a * b' ≤ 2 * a' * b := by
    rw [Nat.mul_assoc, Nat.mul_assoc]
    exact Nat.mul_le_mul_left 2 h
  have hswap : (2 * k + 1) * b' * b = (2 * k + 1) * b * b' := Nat.mul_right_comm _ _ _
  rcases hle with hlt | ⟨heq, heven⟩
  · refine Or.inl (Nat.lt_of_mul_lt_mul_right (a := b') (Nat.lt_of_le_of_lt h2 ?_))
    rw [← hswap]
    exact Nat.mul_lt_mul_of_pos_right hlt hb
  · have hle : 2 * a ≤ (2 * k + 1) * b := by
      refine Nat.le_of_mul_le_mul_right ?_ hb'
      rw [← hswap, ← heq]
      exact h2
    rcases Nat.lt_or_eq_of_le hle with hlt | heq'
    · exact Or.inl hlt
    · exact Or.inr ⟨heq', heven⟩

theorem divNearest_mul {b : Nat} (k : Nat) (hb : 0 < b) : divNearest (k * b) b = k := by
  rw [divNearest, Nat.mul_mod_left, Nat.mul_div_cancel _ hb, if_pos (by omega)]

/-- No multiple of `b` is nearer to `a`. -/
theorem divNearest_nearest {a b : Nat} (hb : 0 < b) (k : Nat) :
    ((divNearest a b * b : Nat) - a : Int).natAbs ≤ ((k * b : Nat) - a : Int).natAbs := by
  have ha : a / b * b + a % b = a := Nat.div_add_mod' a b
  have hr : a % b < b := Nat.mod_lt a hb
  have hside : k * b ≤ a / b * b ∨ (a / b + 1) * b ≤ k * b := by
    rcases Nat.lt_or_ge (a / b) k with h | h
    · exact Or.inr (Nat.mul_le_mul_right b h)
    · exact Or.inl (Nat.mul_le_mul_right b h)
  rw [Nat.succ_mul] at hside
  have hcases : divNearest a b = a / b ∧ 2 * (a % b) ≤ b ∨
      divNearest a b = a / b + 1 ∧ b ≤ 2 * (a % b) := by
    rw [divNearest]
    split
    · exact Or.inl ⟨rfl, by omega⟩
    · split
      · exact Or.inr ⟨rfl, by omega⟩
      · rcases Nat.mod_two_eq_zero_or_one (a / b) with h | h
        · exact Or.inl ⟨by rw [h, Nat.add_zero], by omega⟩
        · exact Or.inr ⟨by rw [h], by omega⟩
  rcases hcases with ⟨h, h2⟩ | ⟨h, h2⟩
  · rw [h]
    omega
  · rw [h, Nat.succ_mul]
    omega

/-! ### Rounding to 53 digits -/

theorem short_two_pow (s : Nat) : Short (2 ^ s) := ⟨1, s, by decide, (Nat.one_mul _).symm⟩

namespace Magnitude

theorem spare_mono {u v : Nat} (h : u ≤ v) : spare u ≤ spare v := by
  rcases Nat.eq_zero_or_pos u with rfl | hu
  · simp [spare]
  · have hlog : u.log2 ≤ v.log2 :=
      (Nat.le_log2 (by omega)).mpr (Nat.le_trans (Nat.log2_self_le (by omega)) h)
    unfold spare
    omega

theorem two_pow_spare_le {u : Nat} (h : spare u ≠ 0) : 2 ^ (52 + spare u) ≤ u := by
  have hu : u ≠ 0 := by
    rintro rfl
    simp [spare] at h
  have hlog : 52 + spare u = u.log2 := by
    unfold spare at h ⊢
    omega
  rw [hlog]
  exact Nat.log2_self_le hu

/-- The digits below the 53 leading ones of a short number are zeros. -/
theorem two_pow_spare_dvd {u : Nat} (h : Short u) : 2 ^ spare u ∣ u := by
  obtain ⟨q, t, hq, hu⟩ := h
  rcases Nat.lt_or_ge t (spare u) with hlt | hle
  · have hlow := two_pow_spare_le (u := u) (by omega)
    have hhigh : u ≤ 2 ^ (52 + spare u) :=
      calc u = q * 2 ^ t := hu
        _ ≤ 2 ^ 53 * 2 ^ t := Nat.mul_le_mul_right _ hq
        _ = 2 ^ (53 + t) := (Nat.pow_add ..).symm
        _ ≤ 2 ^ (52 + spare u) := Nat.pow_le_pow_right Nat.two_pos (by omega)
    exact ⟨2 ^ 52, by rw [← Nat.pow_add, Nat.add_comm]; exact Nat.le_antisymm hhigh hlow⟩
  · have hdvd : 2 ^ spare u ∣ q * 2 ^ t := Nat.dvd_mul_left_of_dvd (Nat.pow_dvd_pow 2 hle) q
    rwa [← hu] at hdvd

end Magnitude

open Magnitude

variable {a b a' b' : Nat}

theorem roundShort_le_two_pow (hb : 0 < b) : roundShort a b ≤ 2 ^ (53 + spare (a / b)) := by
  have hlt : a < 2 ^ (53 + spare (a / b)) * b :=
    (Nat.div_lt_iff_lt_mul hb).mp (lt_two_pow_spare _)
  rw [roundShort, Nat.pow_add]
  refine Nat.mul_le_mul_right _ ((divNearest_le_iff (Nat.mul_pos hb (Nat.two_pow_pos _))).mpr ?_)
  rw [Nat.pow_add, Nat.mul_assoc, Nat.mul_comm _ b] at hlt
  exact Or.inl (by omega)

theorem two_pow_le_roundShort (hb : 0 < b) (h : spare (a / b) ≠ 0) :
    2 ^ (52 + spare (a / b)) ≤ roundShort a b := by
  have hle : 2 ^ (52 + spare (a / b)) * b ≤ a :=
    (Nat.le_div_iff_mul_le hb).mp (two_pow_spare_le h)
  have hB : 0 < b * 2 ^ spare (a / b) := Nat.mul_pos hb (Nat.two_pow_pos _)
  rw [roundShort, Nat.pow_add]
  refine Nat.mul_le_mul_right _ ?_
  rw [← divNearest_mul (2 ^ 52) hB]
  refine divNearest_mono hB hB (Nat.mul_le_mul_right _ ?_)
  rw [Nat.pow_add, Nat.mul_assoc, Nat.mul_comm _ b] at hle
  exact hle

/-- Rounding to 53 digits keeps the order of quotients. -/
theorem roundShort_mono (hb : 0 < b) (hb' : 0 < b') (h : a * b' ≤ a' * b) :
    roundShort a b ≤ roundShort a' b' := by
  have hdiv : a / b ≤ a' / b' := by
    rw [Nat.le_div_iff_mul_le hb']
    refine Nat.le_of_mul_le_mul_right ?_ hb
    calc a / b * b' * b = a / b * b * b' := Nat.mul_right_comm _ _ _
      _ ≤ a * b' := Nat.mul_le_mul_right _ (Nat.div_mul_le_self a b)
      _ ≤ a' * b := h
  rcases Nat.lt_or_eq_of_le (spare_mono hdiv) with hlt | heq
  · -- A power of two lies between the two values.
    calc roundShort a b ≤ 2 ^ (53 + spare (a / b)) := roundShort_le_two_pow hb
      _ ≤ 2 ^ (52 + spare (a' / b')) := Nat.pow_le_pow_right Nat.two_pos (by omega)
      _ ≤ roundShort a' b' := two_pow_le_roundShort hb' (by omega)
  · rw [roundShort, roundShort, heq]
    have hpos := Nat.two_pow_pos (spare (a' / b'))
    refine Nat.mul_le_mul_right _
      (divNearest_mono (Nat.mul_pos hb hpos) (Nat.mul_pos hb' hpos) ?_)
    rw [← Nat.mul_assoc, ← Nat.mul_assoc]
    exact Nat.mul_le_mul_right _ h

/-- A short number of units is left as it is. -/
theorem roundShort_of_short {u : Nat} (hu : Short u) (hb : 0 < b) : roundShort (u * b) b = u := by
  obtain ⟨w, hw⟩ := two_pow_spare_dvd hu
  have hprod : u * b = w * (b * 2 ^ spare u) :=
    calc u * b = 2 ^ spare u * w * b := congrArg (· * b) hw
      _ = w * (2 ^ spare u * b) := by rw [Nat.mul_comm (2 ^ spare u) w, Nat.mul_assoc]
      _ = w * (b * 2 ^ spare u) := by rw [Nat.mul_comm b]
  rw [roundShort, Nat.mul_div_cancel _ hb, hprod,
    divNearest_mul _ (Nat.mul_pos hb (Nat.two_pow_pos _)), Nat.mul_comm, ← hw]

theorem roundShort_le {u : Nat} (hu : Short u) (hb : 0 < b) (h : a ≤ u * b) :
    roundShort a b ≤ u :=
  calc roundShort a b ≤ roundShort (u * b) b := roundShort_mono hb hb (Nat.mul_le_mul_right _ h)
    _ = u := roundShort_of_short hu hb

theorem le_roundShort {u : Nat} (hu : Short u) (hb : 0 < b) (h : u * b ≤ a) :
    u ≤ roundShort a b :=
  calc u = roundShort (u * b) b := (roundShort_of_short hu hb).symm
    _ ≤ roundShort a b := roundShort_mono hb hb (Nat.mul_le_mul_right _ h)

/-- No short number is nearer to `a`. -/
theorem roundShort_nearest {a u : Nat} (hu : Short u) :
    (roundShort a 1 - a : Int).natAbs ≤ (u - a : Int).natAbs := by
  have hpos := Nat.two_pow_pos (spare a)
  rw [roundShort, Nat.div_one, Nat.one_mul]
  rcases Nat.lt_or_ge (spare u) (spare a) with hlt | hle
  · -- The number lies below the leading digit of `a`, which is a multiple of the last place.
    have hlead := two_pow_spare_le (u := a) (by omega)
    have hbelow : u ≤ 2 ^ (52 + spare a) :=
      calc u ≤ 2 ^ (53 + spare u) := Nat.le_of_lt (lt_two_pow_spare u)
        _ ≤ 2 ^ (52 + spare a) := Nat.pow_le_pow_right Nat.two_pos (by omega)
    have hnear := divNearest_nearest (a := a) hpos (2 ^ 52)
    rw [← Nat.pow_add] at hnear
    omega
  · obtain ⟨k, hk⟩ := Nat.dvd_trans (Nat.pow_dvd_pow 2 hle) (two_pow_spare_dvd hu)
    have hnear := divNearest_nearest (a := a) hpos k
    rw [Nat.mul_comm k, ← hk] at hnear
    exact hnear

/-! ### Units as powers of two -/

/-- How many binary digits the largest numbers have below their 53 leading ones. -/
def topSpare : Nat := 2045

/-- The short numbers below a power of two end at 53 ones and as many zeros as there is room for. -/
theorem Short.le_of_lt_two_pow {u n : Nat} (h : Short u) (hlt : u < 2 ^ (53 + n)) :
    u ≤ 2 ^ n * (2 ^ 53 - 1) := by
  obtain ⟨w, hw⟩ := Magnitude.two_pow_spare_dvd h
  have hspare : Magnitude.spare u ≤ n := by
    unfold Magnitude.spare
    rcases Nat.eq_zero_or_pos u with rfl | hpos
    · simp
    · rw [← Nat.log2_lt (by omega)] at hlt
      omega
  have hdigits : w ≤ 2 ^ 53 - 1 := by
    have hmul : 2 ^ Magnitude.spare u * w < 2 ^ Magnitude.spare u * 2 ^ 53 := by
      rw [← hw, ← Nat.pow_add, Nat.add_comm]
      exact Magnitude.lt_two_pow_spare u
    have := Nat.lt_of_mul_lt_mul_left hmul
    omega
  calc u = 2 ^ Magnitude.spare u * w := hw
    _ ≤ 2 ^ n * (2 ^ 53 - 1) := Nat.mul_le_mul (Nat.pow_le_pow_right Nat.two_pos hspare) hdigits

/-- What is below the limit and short is not above the largest number of the format. -/
theorem Short.le_largest {u : Nat} (h : Short u) (hlt : u < unitLimit) :
    u ≤ 2 ^ topSpare * (2 ^ 53 - 1) := by
  have hdigits : topDigits = 53 + topSpare := rfl
  rw [unitLimit_eq, hdigits] at hlt
  exact h.le_of_lt_two_pow hlt

theorem two_pow_lt_unitLimit {e : Nat} (h : e < 1024) : 2 ^ (e + places) < unitLimit := by
  rw [unitLimit_eq]
  exact Nat.pow_lt_pow_right (by decide) (by unfold places topDigits; omega)

/-! ### Finite results -/

namespace Binary64

variable {x y : Binary64}

theorem fin_add_fin (s t : Bool) (x y : Magnitude) :
    fin s x + fin t y = ofSum (s && t) (signed s x + signed t y) := by
  show add _ _ = _
  rw [add]

theorem fin_mul_fin (s t : Bool) (x y : Magnitude) :
    fin s x * fin t y = round (s != t) (x.units * y.units) unitsPerOne := by
  show mul _ _ = _
  rw [mul]

theorem fin_div_fin (s t : Bool) (x y : Magnitude) :
    fin s x / fin t y =
      if y.units = 0 then if x.units = 0 then .nan else .inf (s != t)
      else round (s != t) (x.units * unitsPerOne) y.units := by
  show div _ _ = _
  rw [div]

theorem isFinite_add (h : (x + y).isFinite = true) : x.isFinite = true ∧ y.isFinite = true := by
  change (add x y).isFinite = true at h
  cases x with
  | nan => cases h
  | inf s =>
    cases y with
    | nan => cases h
    | inf t =>
      rw [add] at h
      split at h <;> cases h
    | fin t y => cases h
  | fin s x =>
    cases y with
    | nan => cases h
    | inf t => cases h
    | fin t y => exact ⟨rfl, rfl⟩

theorem isFinite_mul (h : (x * y).isFinite = true) : x.isFinite = true ∧ y.isFinite = true := by
  change (mul x y).isFinite = true at h
  cases x with
  | nan => cases h
  | inf s =>
    cases y with
    | nan => cases h
    | inf t => cases h
    | fin t y =>
      rw [mul] at h
      split at h <;> cases h
  | fin s x =>
    cases y with
    | nan => cases h
    | inf t =>
      rw [mul] at h
      split at h <;> cases h
    | fin t y => exact ⟨rfl, rfl⟩

/-- A finite quotient has a finite upper side, and one by something that is not finite is zero. -/
theorem isFinite_div (h : (x / y).isFinite = true) :
    x.isFinite = true ∧ (y.isFinite = false → ∃ s, x / y = zero s) := by
  change (div x y).isFinite = true at h
  cases x with
  | nan => cases h
  | inf s => cases y <;> cases h
  | fin s x =>
    cases y with
    | nan => cases h
    | inf t => exact ⟨rfl, fun _ => ⟨_, rfl⟩⟩
    | fin t y => exact ⟨rfl, fun hy => by cases hy⟩

theorem isFinite_sqrt (h : x.sqrt.isFinite = true) : x.isFinite = true := by
  cases x with
  | nan => cases h
  | inf s => cases s <;> cases h
  | fin s x => rfl

@[simp] theorem roundShort_zero (b : Nat) : roundShort 0 b = 0 := by
  simp [roundShort, divNearest]

@[simp] theorem units_zero : Magnitude.zero.units = 0 := rfl

theorem round_of_lt {s : Bool} {a b : Nat} {x : Magnitude} (h : roundShort a b = x.units) :
    round s a b = fin s x := by
  have hlt : roundShort a b < unitLimit := h ▸ x.small
  rw [round, dif_pos hlt]
  exact congrArg (fin s) (Magnitude.ext h)

theorem round_zero (s : Bool) (b : Nat) : round s 0 b = zero s :=
  round_of_lt (roundShort_zero b)

theorem zero_mul {s : Bool} (h : (zero s * y).isFinite = true) : ∃ t, zero s * y = zero t := by
  cases y with
  | nan => exact absurd (isFinite_mul h).2 Bool.false_ne_true
  | inf t => exact absurd (isFinite_mul h).2 Bool.false_ne_true
  | fin t y =>
    have h0 : Magnitude.zero.units * y.units = 0 := by rw [units_zero, Nat.zero_mul]
    exact ⟨s != t, by rw [zero, fin_mul_fin, h0, round_zero]⟩

theorem zero_div {s : Bool} (h : (zero s / y).isFinite = true) : ∃ t, zero s / y = zero t := by
  cases y with
  | nan => exact absurd h Bool.false_ne_true
  | inf t => exact ⟨_, rfl⟩
  | fin t y =>
    have h0 : Magnitude.zero.units * unitsPerOne = 0 := by rw [units_zero, Nat.zero_mul]
    rw [zero, fin_div_fin] at h ⊢
    split at h
    · exact absurd h Bool.false_ne_true
    · exact ⟨s != t, by rw [if_neg ‹_›, h0, round_zero]⟩

/-- A quotient by something that is not finite is lost for a finite result. -/
theorem quotient_lost {z w : Binary64} (h : (x / y * z / w).isFinite = true)
    (hy : y.isFinite = false) : ∃ s, x / y * z / w = zero s := by
  have hprod := (isFinite_div h).1
  obtain ⟨s, hs⟩ := (isFinite_div (isFinite_mul hprod).1).2 hy
  rw [hs] at h hprod ⊢
  obtain ⟨t, ht⟩ := zero_mul hprod
  rw [ht] at h ⊢
  exact zero_div h

end Binary64

end FriBound
