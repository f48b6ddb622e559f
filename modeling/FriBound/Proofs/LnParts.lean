import FriBound.Proofs.Assembly
import FriBound.Proofs.LnSum

/-!
# The logarithm in two parts

The leading digits of a number choose a row of the table, with a base point `1 / c` close to the
number and the logarithm of the base point. The polynomial is given `z * c - 1`, in one part for the
leading 21 digits of `z` and one for the others. Whether the sum of all these is in two parts is
decided by the case that the number is in:

* If the binary exponent is not zero, or if the cell is not one of the two next to one, the
  logarithm is not close to zero, and sizes alone suffice (`lnInput_far`).
* The base point of the two cells next to one is one itself, with a logarithm of zero. What enters
  the sum is then in proportion to the distance from one, which is a digit at least
  (`lnInput_near`).
* The logarithm of one is zero in both parts (`lnParts_one`).

What is asked of a row is asked at both ends of its cell, where the kernel computes it
(`lnRows_fit`). In between it holds because it is linear in the number.

## Main definitions

* `Binary64.LnRowFits` — what is asked of a row
* `Binary64.LnPoint` — a row as it is used for a number of its cell

## Main results

* `Binary64.leadingNearest_digits` — the leading digits of a number
* `Binary64.lnParts_spec` — the logarithm is in two parts
* `Binary64.lnParts_two_pow` — the logarithm of a power of two
-/

namespace FriBound

namespace Binary64

open LnExp

variable {x : Binary64} {halved : Bool} {cell q k : ℕ} {e : ℤ}

/-! ### The leading digits -/

/-- The nearest number of 21 digits. -/
def leadingDigits (q : ℕ) : ℕ := (q + 2 ^ 31) / 2 ^ 32 * 2 ^ 32

/-- A number of 53 digits, at its place. -/
theorem exists_digits (hq : 2 ^ 52 ≤ q ∧ q < 2 ^ 53) (hk : k ≤ places) :
    ∃ m : Magnitude, (ofInt q).scale (-k) = fin false m ∧ m.units = q * 2 ^ (places - k) ∧
      Magnitude.spare m.units = places - k := by
  obtain ⟨hfin, hplace⟩ := place_scale_digits (n := q) (by omega) hk
  have hpos : (zero false).lt ((ofInt q).scale (-k)) = true := by
    refine lt_iff_place.mpr ⟨_, _, place_zero _, hplace, ?_⟩
    have := Nat.mul_pos (show 0 < q by omega) (Nat.two_pow_pos (places - k))
    exact_mod_cast this
  obtain ⟨m, hm, hne⟩ := exists_fin_of_pos hfin hpos
  rw [hm, place_fin, Option.some.injEq, signed, if_neg Bool.false_ne_true] at hplace
  have hunits : m.units = q * 2 ^ (places - k) := by exact_mod_cast hplace
  refine ⟨m, hm, hunits, ?_⟩
  have hlog : m.units.log2 = 52 + (places - k) := by
    rw [Nat.log2_eq_iff hne, hunits, Nat.pow_add, Nat.add_right_comm, Nat.pow_add]
    exact ⟨Nat.mul_le_mul_right _ hq.1, Nat.mul_lt_mul_of_pos_right hq.2 (Nat.two_pow_pos _)⟩
  rw [Magnitude.spare, hlog]
  omega

/-- The rounding of the digits does not depend on their place. -/
theorem leadingDigits_mul (q b : ℕ) :
    (q * 2 ^ b + 2 ^ (b + 32) / 2) / 2 ^ (b + 32) * 2 ^ (b + 32) = leadingDigits q * 2 ^ b := by
  have hhalf : 2 ^ (b + 32) / 2 = 2 ^ 31 * 2 ^ b := by
    rw [show b + 32 = 31 + b + 1 by omega, Nat.pow_succ, Nat.mul_div_cancel _ Nat.two_pos,
      Nat.pow_add]
  have hpow : 2 ^ (b + 32) = 2 ^ 32 * 2 ^ b := by rw [Nat.add_comm, Nat.pow_add]
  rw [hhalf, hpow, ← Nat.add_mul, Nat.mul_div_mul_right _ _ (Nat.two_pow_pos b),
    ← Nat.mul_assoc, leadingDigits]

theorem leadingNearest_digits (hq : 2 ^ 52 ≤ q ∧ q < 2 ^ 53) (hk : k ≤ places) :
    (((ofInt q).scale (-k)).leadingNearest 32).isFinite = true ∧
      (((ofInt q).scale (-k)).leadingNearest 32).toReal = leadingDigits q / 2 ^ k := by
  obtain ⟨m, hm, hunits, hspare⟩ := exists_digits hq hk
  obtain ⟨b, hb⟩ : ∃ b, places - k = b := ⟨_, rfl⟩
  rw [hb] at hunits hspare
  have hsize : leadingDigits q ≤ 2 ^ 53 := by
    rw [leadingDigits]
    omega
  have hshort : Short (leadingDigits q * 2 ^ b) := ⟨_, _, hsize, rfl⟩
  have hlimit : leadingDigits q * 2 ^ b < unitLimit :=
    calc leadingDigits q * 2 ^ b ≤ 2 ^ 53 * 2 ^ b := Nat.mul_le_mul_right _ hsize
      _ = 2 ^ (53 + b) := (Nat.pow_add ..).symm
      _ ≤ 2 ^ (53 + places) := Nat.pow_le_pow_right Nat.two_pos (by omega)
      _ < unitLimit := two_pow_lt_unitLimit (by decide)
  have hround := roundShort_of_short hshort Nat.one_pos
  rw [Nat.mul_one] at hround
  have hlead : ((ofInt q).scale (-k)).leadingNearest 32 =
      fin false ⟨leadingDigits q * 2 ^ b, hshort, hlimit⟩ := by
    rw [hm, leadingNearest, hspare, hunits, leadingDigits_mul]
    exact round_of_lt hround
  rw [hlead]
  refine ⟨rfl, ?_⟩
  refine toReal_of_digits rfl hk ?_
  rw [place_fin, hb]
  simp [signed]

/-- They are near. -/
theorem leadingDigits_near (q : ℕ) :
    leadingDigits q ≤ q + 2 ^ 31 ∧ q ≤ leadingDigits q + 2 ^ 31 := by
  rw [leadingDigits]
  omega

/-- They are as near as any number of 21 digits. -/
theorem leadingDigits_le (q c : ℕ) :
    |(q : ℝ) - leadingDigits q| ≤ |(q : ℝ) - (c * 2 ^ 32 : ℕ)| := by
  have hint : |(q : ℤ) - leadingDigits q| ≤ |(q : ℤ) - (c * 2 ^ 32 : ℕ)| := by
    rw [leadingDigits, Int.abs_eq_natAbs, Int.abs_eq_natAbs]
    omega
  exact_mod_cast hint

/-! ### The cells -/

/-- The digits at which a cell begins. -/
def lnCellFrom (halved : Bool) (cell : ℕ) : ℕ :=
  cell * 2 ^ 45 + cellsFrom - if halved then 0 else 2 ^ 52

/-- The places after the point. -/
def lnPlaces (halved : Bool) : ℕ := if halved then 53 else 52

/-- What is used of a row: its base point is near the numbers from `a` to `b`, and the logarithms of
these are not close to zero. Only next to one they are, and the base point there is one itself. -/
def LnRowFits (a b : ℚ) (row : ℕ × ℕ × ℕ) : Prop :=
  ((ofBits row.1).isFinite = true ∧ |(ofBits row.1).toRat| ≤ 3 / 2 ∧
    |a * (ofBits row.1).toRat - 1| ≤ 1 / 150 ∧ |b * (ofBits row.1).toRat - 1| ≤ 1 / 150) ∧
  ((ofBits row.2.1).isFinite = true ∧ |(ofBits row.2.1).toRat| ≤ 7 / 20) ∧
  ((ofBits row.2.2).isFinite = true ∧ |(ofBits row.2.2).toRat| ≤ 1 / 2 ^ 43) ∧
  ((ofBits row.1).toRat = 1 ∧ (ofBits row.2.1).toRat = 0 ∧ (ofBits row.2.2).toRat = 0 ∨
    1 / 200 ≤ (ofBits row.2.1).toRat + (a * (ofBits row.1).toRat - 1) ∧
      1 / 200 ≤ (ofBits row.2.1).toRat + (b * (ofBits row.1).toRat - 1) ∨
    (ofBits row.2.1).toRat + (a * (ofBits row.1).toRat - 1) ≤ -(1 / 200) ∧
      (ofBits row.2.1).toRat + (b * (ofBits row.1).toRat - 1) ≤ -(1 / 200))

instance (a b : ℚ) (row : ℕ × ℕ × ℕ) : Decidable (LnRowFits a b row) :=
  inferInstanceAs (Decidable ((_ ∧ _ ∧ _ ∧ _) ∧ (_ ∧ _) ∧ (_ ∧ _) ∧ (_ ∧ _ ∧ _ ∨ _ ∧ _ ∨ _ ∧ _)))

/-- The cells of the halved values are below those of the others. -/
theorem lnRows_fit : ∀ halved : Bool, ∀ cell < 128,
    (if halved then cell ≤ 75 else 75 ≤ cell) →
      LnRowFits (lnCellFrom halved cell / 2 ^ lnPlaces halved)
        (lnCellFrom halved (cell + 1) / 2 ^ lnPlaces halved) (lnRow cell) := by
  decide +kernel

theorem lnConstants_fit : (ln2High.isFinite = true ∧ |ln2High.toRat| ≤ 694 / 1000) ∧
    (ln2Low.isFinite = true ∧ |ln2Low.toRat| ≤ 1 / 2 ^ 43) ∧ 693 / 1000 ≤ ln2High.toRat := by
  decide +kernel

/-- The logarithm of one, and the row that it goes by. -/
theorem lnParts_one : lnParts (2 ^ 52) 0 = (zero false, zero false) ∧
    (ofBits (lnRow (lnCell (2 ^ 52))).1).toRat = 1 ∧
      (ofBits (lnRow (lnCell (2 ^ 52))).2.1).toRat = 0 := by
  decide +kernel

/-- A row as it is used for a number of its cell. -/
structure LnPoint (z : ℝ) (c logc tail : Binary64) : Prop where
  point : Approx (3 / 2) 0 c.toReal c
  log : Approx (7 / 20) 0 logc.toReal logc
  correction : Approx (1 / 2 ^ 43) 0 tail.toReal tail
  near : |z * c.toReal - 1| ≤ 1 / 150
  central_or : c = ofInt 1 ∧ logc.toReal = 0 ∧ tail.toReal = 0 ∨
    1 / 200 ≤ |logc.toReal + (z * c.toReal - 1)|

theorem eq_one_of_toReal (hx : x.isFinite = true) (h : x.toReal = 1) : x = ofInt 1 := by
  obtain ⟨a, ha, -⟩ := isFinite_iff_place.mp hx
  rw [toReal_of_place ha hx, ← unitsPerOne_mul_unit] at h
  have hcast : (a : ℝ) = (unitsPerOne : ℤ) := by
    rw [Int.cast_natCast]
    exact mul_right_cancel₀ unit_pos.ne' h
  rw [Int.cast_inj.mp hcast] at ha
  exact eq_one_of_place ha hx

/-- What is linear is as small between two numbers as at them. -/
theorem linear_between {K : Type*} [Field K] [LinearOrder K] [IsStrictOrderedRing K]
    {a b z c l u : K} (hz : a ≤ z ∧ z ≤ b) (ha : l ≤ a * c ∧ a * c ≤ u)
    (hb : l ≤ b * c ∧ b * c ≤ u) : l ≤ z * c ∧ z * c ≤ u := by
  rcases le_total 0 c with hc | hc
  · have hlow := mul_le_mul_of_nonneg_right hz.1 hc
    have hhigh := mul_le_mul_of_nonneg_right hz.2 hc
    exact ⟨ha.1.trans hlow, hhigh.trans hb.2⟩
  · have hlow := mul_le_mul_of_nonpos_right hz.1 hc
    have hhigh := mul_le_mul_of_nonpos_right hz.2 hc
    exact ⟨hb.1.trans hhigh, hlow.trans ha.2⟩

/-- A number is in its cell. -/
theorem lnCell_spec (hq : 2 ^ 52 ≤ q ∧ q < 2 ^ 53) : lnCell q < 128 ∧
    (if decide (cellsFrom ≤ q) then lnCell q ≤ 75 else 75 ≤ lnCell q) ∧
      lnCellFrom (decide (cellsFrom ≤ q)) (lnCell q) ≤ q ∧
        q ≤ lnCellFrom (decide (cellsFrom ≤ q)) (lnCell q + 1) := by
  rw [lnCell, lnCellFrom, lnCellFrom]
  by_cases h : cellsFrom ≤ q
  · simp only [h, decide_true, if_true]
    rw [cellsFrom] at *
    omega
  · simp only [h, decide_false, Bool.false_eq_true, if_false]
    rw [cellsFrom] at *
    omega

/-- What holds at both ends of a cell holds in it. -/
theorem LnRowFits.point {a b z : ℚ} {row : ℕ × ℕ × ℕ} (h : LnRowFits a b row)
    (hz : a ≤ z ∧ z ≤ b) :
    LnPoint z (ofBits row.1) (ofBits row.2.1) (ofBits row.2.2) := by
  obtain ⟨⟨hc, hc', ha, hb⟩, hlog, htail, hcentral⟩ := h
  have hreal := cast_toRat hc
  have hreal' := cast_toRat hlog.1
  obtain ⟨ha, ha'⟩ := abs_le.mp ha
  obtain ⟨hb, hb'⟩ := abs_le.mp hb
  have hnear := linear_between hz (c := (ofBits row.1).toRat) (l := 1 - 1 / 150) (u := 1 + 1 / 150)
    ⟨by linarith, by linarith⟩ ⟨by linarith, by linarith⟩
  refine ⟨approx_toReal ⟨hc, hc'⟩ (by norm_num), approx_toReal hlog (by norm_num),
    approx_toReal htail (by norm_num), ?_, ?_⟩
  · have hle : |z * (ofBits row.1).toRat - 1| ≤ 1 / 150 :=
      abs_le.mpr ⟨by linarith, by linarith⟩
    have hcast : ((|z * (ofBits row.1).toRat - 1| : ℚ) : ℝ) ≤ (1 / 150 : ℚ) := Rat.cast_le.mpr hle
    push_cast at hcast
    rwa [hreal] at hcast
  · rw [← hreal, ← hreal']
    rcases hcentral with ⟨hone, hzero, hzero'⟩ | hfar
    · refine Or.inl ⟨eq_one_of_toReal hc ?_, ?_, ?_⟩
      · rw [← hreal, hone, Rat.cast_one]
      · rw [hzero, Rat.cast_zero]
      · rw [← cast_toRat htail.1, hzero', Rat.cast_zero]
    · have hle : 1 / 200 ≤ |(ofBits row.2.1).toRat + (z * (ofBits row.1).toRat - 1)| := by
        rcases hfar with ⟨hfrom, hto⟩ | ⟨hfrom, hto⟩
        · have hlarge := (linear_between hz (c := (ofBits row.1).toRat)
            (l := 1 / 200 + 1 - (ofBits row.2.1).toRat) (u := 1 + 1 / 150)
            ⟨by linarith, by linarith⟩ ⟨by linarith, by linarith⟩).1
          exact le_abs.mpr (Or.inl (by linarith))
        · have hlarge := (linear_between hz (c := (ofBits row.1).toRat) (l := 1 - 1 / 150)
            (u := 1 - 1 / 200 - (ofBits row.2.1).toRat)
            ⟨by linarith, by linarith⟩ ⟨by linarith, by linarith⟩).2
          exact le_abs.mpr (Or.inr (by linarith))
      have hcast : ((1 / 200 : ℚ) : ℝ) ≤
          (|(ofBits row.2.1).toRat + (z * (ofBits row.1).toRat - 1)| : ℚ) := Rat.cast_le.mpr hle
      push_cast at hcast
      exact Or.inr hcast

theorem lnPoint (hq : 2 ^ 52 ≤ q ∧ q < 2 ^ 53) :
    LnPoint (q / 2 ^ lnPlaces (decide (cellsFrom ≤ q))) (ofBits (lnRow (lnCell q)).1)
      (ofBits (lnRow (lnCell q)).2.1) (ofBits (lnRow (lnCell q)).2.2) := by
  obtain ⟨hcell, hside, hfrom, hto⟩ := lnCell_spec hq
  have hfits := lnRows_fit _ _ hcell hside
  generalize decide (cellsFrom ≤ q) = halved at *
  have hpow : (0 : ℚ) ≤ 2 ^ lnPlaces halved := by positivity
  have hpoint := hfits.point (z := q / 2 ^ lnPlaces halved)
    ⟨div_le_div_of_nonneg_right (by exact_mod_cast hfrom) hpow,
      div_le_div_of_nonneg_right (by exact_mod_cast hto) hpow⟩
  push_cast at hpoint
  exact hpoint

/-! ### What enters the sum -/

/-- The logarithm of the base point with the whole part. -/
theorem approx_lnBase {c logc tail : Binary64} {z : ℝ} (h : LnPoint z c logc tail)
    (he : e.natAbs ≤ 1080) :
    Approx 750 (1 / 2 ^ 40) (e * ln2High.toRat + logc.toReal) (ofInt e * ln2High + logc) ∧
      Approx (1 / 2 ^ 31) 0 (ofInt e * ln2Low + tail).toReal (ofInt e * ln2Low + tail) := by
  obtain ⟨hhigh, hlow, -⟩ := lnConstants_fit
  have hcount := approx_ofInt (c := 1080) he (by decide) (by norm_num)
  have hpart := hcount.mul (approx_toRat (c := 694 / 1000) hhigh (by norm_num)) (d := 7496 / 10)
    (g := 1 / 2 ^ 42) (by norm_num)
  have hpart' := hcount.mul (approx_toRat (c := 1 / 2 ^ 43) hlow (by norm_num)) (d := 1 / 2 ^ 32)
    (g := 1 / 2 ^ 80) (by norm_num)
  have hsum := hpart'.add h.correction (d := 9 / 2 ^ 35) (g := 1 / 2 ^ 70) (by norm_num)
  exact ⟨hpart.add h.log (by norm_num),
    .exact hsum.isFinite (hsum.abs_toReal_le.trans (by norm_num))⟩

variable {z w c logc tail : Binary64}

/-- Away from one, sizes alone suffice. -/
theorem lnInput_far (h : LnPoint z.toReal c logc tail) (hz : Approx 2 0 z.toReal z)
    (hw : w.isFinite = true) (hnear : |z.toReal - w.toReal| ≤ 1 / 2 ^ 21) (he : e.natAbs ≤ 1080)
    (hlarge : 1 / 200 ≤ |e * ln2High.toRat + logc.toReal + (z.toReal * c.toReal - 1)|) :
    LnInput (1 / 128) (ofInt e * ln2High + logc) (ofInt e * ln2Low + tail) (w * c - ofInt 1)
        ((z - w) * c) ∧
      |(ofInt e * ln2High + logc).toReal + ((w * c - ofInt 1).toReal + ((z - w) * c).toReal) -
        (e * ln2High.toRat + logc.toReal + (z.toReal * c.toReal - 1))| ≤ 1 / 2 ^ 38 := by
  obtain ⟨hbase, hbaseLow⟩ := approx_lnBase h he
  have hcsize := h.point.size
  have hzc := h.near
  have hW := hz.of_near hw hnear (c := 3) (by linarith)
  have hcut : |(z.toReal - w.toReal) * c.toReal| ≤ 3 / 2 ^ 22 := by
    rw [abs_mul]
    linarith [mul_le_mul_of_nonneg_right hnear (abs_nonneg c.toReal)]
  have hproduct := hW.mul h.point (d := 9 / 2) (g := 1 / 2 ^ 50) (by norm_num)
  have hhigh := hproduct.sub_of approx_one (d := 1 / 149) (g := 1 / 2 ^ 49) (by
    have hsplit : w.toReal * c.toReal - 1 =
        z.toReal * c.toReal - 1 - (z.toReal - w.toReal) * c.toReal := by ring
    rw [hsplit]
    refine (abs_sub _ _).trans ?_
    linarith) (by norm_num)
  have hlow := (hz.sub_of hW hnear (g := 1 / 2 ^ 73) (by norm_num)).mul h.point (d := 3 / 2 ^ 22)
    (g := 1 / 2 ^ 70) (by norm_num)
  have hhigherr := hhigh.error
  have hlowerr := hlow.error
  have hbaseerr := hbase.error
  have hrest : |(w * c - ofInt 1).toReal + ((z - w) * c).toReal - (z.toReal * c.toReal - 1)| ≤
      1 / 2 ^ 48 := by
    have hsplit : (w * c - ofInt 1).toReal + ((z - w) * c).toReal - (z.toReal * c.toReal - 1) =
        (w * c - ofInt 1).toReal - (w.toReal * c.toReal - 1) +
          (((z - w) * c).toReal - (z.toReal - w.toReal) * c.toReal) := by ring
    rw [hsplit]
    exact (abs_add_le _ _).trans (by linarith)
  have htotal : |(ofInt e * ln2High + logc).toReal +
      ((w * c - ofInt 1).toReal + ((z - w) * c).toReal) -
        (e * ln2High.toRat + logc.toReal + (z.toReal * c.toReal - 1))| ≤ 1 / 2 ^ 38 := by
    rw [add_sub_add_comm]
    exact (abs_add_le _ _).trans (by linarith)
  have hback := abs_sub_abs_le_abs_sub (e * ln2High.toRat + logc.toReal +
    (z.toReal * c.toReal - 1)) ((ofInt e * ln2High + logc).toReal +
      ((w * c - ofInt 1).toReal + ((z - w) * c).toReal))
  rw [abs_sub_comm (e * ln2High.toRat + logc.toReal + _)] at hback
  refine ⟨⟨by norm_num, .exact hbase.isFinite (hbase.abs_toReal_le.trans (by norm_num)),
    hbaseLow.mono (by norm_num) le_rfl,
    .exact hhigh.isFinite (hhigh.abs_toReal_le.trans (by norm_num)),
    .exact hlow.isFinite (hlow.abs_toReal_le.trans (by norm_num)), ?_, by linarith⟩, htotal⟩
  linarith [abs_sub_abs_le_abs_sub ((w * c - ofInt 1).toReal + ((z - w) * c).toReal)
    (z.toReal * c.toReal - 1)]

/-- Next to one, everything is as small as the distance from one. -/
theorem lnInput_near (h : LnPoint z.toReal (ofInt 1) logc tail) (hlogc : logc.toReal = 0)
    (htail : tail.toReal = 0) (hz : Approx 2 0 z.toReal z) (hw : w.isFinite = true)
    (hnear : |z.toReal - w.toReal| ≤ |z.toReal - 1|) (hone : 1 / 2 ^ 53 ≤ |z.toReal - 1|) :
    LnInput |z.toReal - 1| (ofInt 0 * ln2High + logc) (ofInt 0 * ln2Low + tail)
      (w * ofInt 1 - ofInt 1) ((z - w) * ofInt 1) := by
  obtain ⟨hhigh, hlow, -⟩ := lnConstants_fit
  have hsize := h.near
  rw [toReal_one, mul_one] at hsize
  obtain ⟨m, hm⟩ : ∃ m, m = |z.toReal - 1| := ⟨_, rfl⟩
  rw [← hm] at hsize hnear hone ⊢
  have hzero : Approx 0 0 0 (ofInt 0) := by
    rw [ofInt_zero]
    exact ⟨rfl, by rw [abs_zero], by simp [toReal_zero]⟩
  -- The table entries are zero, and so is the whole part.
  have hbase := (hzero.mul (approx_toRat (c := 694 / 1000) hhigh (by norm_num)) (d := 0)
    (g := 1 / 2 ^ 100) (by norm_num)).add ⟨h.log.isFinite, abs_zero.le, by rw [hlogc]; simp⟩
      (d := 0) (c := 0) (f := 0) (t := 0) (g := 1 / 2 ^ 99) (by norm_num)
  have hbaseLow := (hzero.mul (approx_toRat (c := 1 / 2 ^ 43) hlow (by norm_num)) (d := 0)
    (g := 1 / 2 ^ 100) (by norm_num)).add ⟨h.correction.isFinite, abs_zero.le, by rw [htail]; simp⟩
      (d := 0) (c := 0) (f := 0) (t := 0) (g := 1 / 2 ^ 99) (by norm_num)
  have hW := hz.of_near hw hnear (c := 3) (by linarith)
  have hrestHigh := hW.sub_of approx_one (d := 2 * m) (g := m / 2 ^ 50)
    (by
      have hsplit : w.toReal - 1 = z.toReal - 1 - (z.toReal - w.toReal) := by ring
      rw [hsplit]
      exact (abs_sub _ _).trans (by linarith))
    ⟨by norm_num, by norm_num, by linarith⟩
  have hrestLow := hz.sub_of hW hnear (g := m / 2 ^ 50) ⟨by norm_num, by norm_num, by linarith⟩
  have hmul : ∀ {x : Binary64}, x.isFinite = true → x * ofInt 1 = x := by
    intro x hx
    rw [mul_comm hx isFinite_one, one_mul hx]
  rw [hmul hw, hmul hrestLow.isFinite]
  have hrest : |(w - ofInt 1).toReal + (z - w).toReal - (z.toReal - 1)| ≤ m / 2 ^ 49 := by
    have hsplit : (w - ofInt 1).toReal + (z - w).toReal - (z.toReal - 1) =
        (w - ofInt 1).toReal - (w.toReal - 1) +
          ((z - w).toReal - (z.toReal - w.toReal)) := by ring
    rw [hsplit]
    exact (abs_add_le _ _).trans (by linarith [hrestHigh.error, hrestLow.error])
  have hback := abs_sub_abs_le_abs_sub (z.toReal - 1) ((w - ofInt 1).toReal + (z - w).toReal)
  rw [abs_sub_comm (z.toReal - 1)] at hback
  have hlast := abs_sub ((ofInt 0 * ln2High + logc).toReal +
    ((w - ofInt 1).toReal + (z - w).toReal)) (ofInt 0 * ln2High + logc).toReal
  rw [add_sub_cancel_left] at hlast
  have hbasesize := hbase.abs_toReal_le
  refine ⟨⟨hone, by linarith⟩, .exact hbase.isFinite (hbasesize.trans (by linarith)),
    .exact hbaseLow.isFinite (hbaseLow.abs_toReal_le.trans (by linarith)),
    .exact hrestHigh.isFinite (hrestHigh.abs_toReal_le.trans (by linarith)),
    .exact hrestLow.isFinite (hrestLow.abs_toReal_le.trans (by linarith)), ?_, by linarith⟩
  linarith [abs_sub_abs_le_abs_sub ((w - ofInt 1).toReal + (z - w).toReal) (z.toReal - 1)]

/-! ### The two parts -/

/-- The sum that is formed for the digits `q`, with the whole part `k`. -/
def lnSumOf (k : ℤ) (z : Binary64) (row : ℕ × ℕ × ℕ) : Binary64 × Binary64 :=
  lnSum (ofInt k * ln2High + ofBits row.2.1) (ofInt k * ln2Low + ofBits row.2.2)
    (z.leadingNearest 32 * ofBits row.1 - ofInt 1) ((z - z.leadingNearest 32) * ofBits row.1)

theorem lnParts_eq (q : ℕ) (e : ℤ) : lnParts q e =
    lnSumOf (if decide (cellsFrom ≤ q) then e + 1 else e)
      ((ofInt q).scale (-lnPlaces (decide (cellsFrom ≤ q)))) (lnRow (lnCell q)) := by
  have hplaces : -(lnPlaces (decide (cellsFrom ≤ q)) : ℤ) =
      if decide (cellsFrom ≤ q) then -53 else -52 := by
    rw [lnPlaces]
    split <;> rfl
  rw [hplaces]
  rfl

/-- The number between a half and two, and its leading digits. -/
theorem lnDigits (hq : 2 ^ 52 ≤ q ∧ q < 2 ^ 53) (hk : 52 ≤ k ∧ k ≤ 53) :
    Approx 2 0 (q / 2 ^ k) ((ofInt q).scale (-k)) ∧
    ((ofInt q).scale (-k)).toReal = q / 2 ^ k ∧
    (((ofInt q).scale (-k)).leadingNearest 32).isFinite = true ∧
    |((ofInt q).scale (-k)).toReal - (((ofInt q).scale (-k)).leadingNearest 32).toReal| ≤
        1 / 2 ^ 21 ∧
    |((ofInt q).scale (-k)).toReal - (((ofInt q).scale (-k)).leadingNearest 32).toReal| ≤
        |((ofInt q).scale (-k)).toReal - 1| := by
  have hplaces : k ≤ places := by
    rw [places]
    omega
  have hpow : (2 : ℝ) ^ 52 ≤ 2 ^ k := pow_le_pow_right₀ one_le_two hk.1
  have hpos : (0 : ℝ) < 2 ^ k := by positivity
  have hsize : (q : ℝ) / 2 ^ k ≤ 2 := by
    rw [div_le_iff₀ hpos]
    have hcast : (q : ℝ) < 2 ^ 53 := by exact_mod_cast hq.2
    linarith
  have hz := approx_digits hq.2 hplaces hsize
  obtain ⟨hfin, hplace⟩ := place_scale_digits (n := q) (by omega) hplaces
  have hvalue : ((ofInt q).scale (-k)).toReal = q / 2 ^ k := toReal_of_digits hfin hplaces hplace
  obtain ⟨hwfin, hw⟩ := leadingNearest_digits hq hplaces
  refine ⟨hz, hvalue, hwfin, ?_, ?_⟩
  · rw [hvalue, hw, ← sub_div, abs_div, abs_of_pos hpos, div_le_iff₀ hpos]
    obtain ⟨hle, hge⟩ := leadingDigits_near q
    have hle' : (leadingDigits q : ℝ) ≤ q + 2 ^ 31 := by exact_mod_cast hle
    have hge' : (q : ℝ) ≤ leadingDigits q + 2 ^ 31 := by exact_mod_cast hge
    refine abs_le.mpr ⟨by linarith, by linarith⟩
  · have hnear := leadingDigits_le q (2 ^ (k - 32))
    have hone : ((2 ^ (k - 32) * 2 ^ 32 : ℕ) : ℝ) = 2 ^ k := by
      rw [← Nat.pow_add, Nat.sub_add_cancel (by omega)]
      push_cast
      rfl
    rw [hone] at hnear
    have hshift : (q : ℝ) / 2 ^ k - 1 = (q - 2 ^ k) / 2 ^ k := by
      rw [sub_div, div_self hpos.ne']
    rw [hvalue, hw, hshift, ← sub_div, abs_div, abs_div]
    exact div_le_div_of_nonneg_right hnear (abs_nonneg _)

/-- Other numbers are apart from one. -/
theorem le_abs_digits_sub_one (hk : k ≤ 53) (hne : q ≠ 2 ^ k) :
    1 / 2 ^ 53 ≤ |(q : ℝ) / 2 ^ k - 1| := by
  have hpos : (0 : ℝ) < 2 ^ k := by positivity
  have hpow : (2 : ℝ) ^ k ≤ 2 ^ 53 := pow_le_pow_right₀ one_le_two hk
  have hshift : (q : ℝ) / 2 ^ k - 1 = (q - 2 ^ k) / 2 ^ k := by rw [sub_div, div_self hpos.ne']
  have hint : (1 : ℤ) ≤ |(q : ℤ) - (2 ^ k : ℕ)| := Int.one_le_abs (by omega)
  have hcast : (1 : ℝ) ≤ |(q : ℝ) - 2 ^ k| := by exact_mod_cast hint
  rw [hshift, abs_div, abs_of_pos hpos]
  calc (1 : ℝ) / 2 ^ 53 ≤ 1 / 2 ^ k := one_div_le_one_div_of_le hpos hpow
    _ ≤ |(q : ℝ) - 2 ^ k| / 2 ^ k := div_le_div_of_nonneg_right hcast hpos.le

theorem le_ln2High : (693 / 1000 : ℝ) ≤ ln2High.toRat :=
  (by norm_num : (693 / 1000 : ℝ) = (693 / 1000 : ℚ)).trans_le
    (Rat.cast_le.mpr lnConstants_fit.2.2)

/-- A whole part other than zero outweighs the rest. -/
theorem LnPoint.le_abs {v : ℝ} {n : ℤ} (h : LnPoint v c logc tail) (hn : n ≠ 0) :
    1 / 200 ≤ |n * ln2High.toRat + logc.toReal + (v * c.toReal - 1)| := by
  have hwhole : 693 / 1000 ≤ |(n : ℝ) * ln2High.toRat| := by
    have hint : (1 : ℝ) ≤ |(n : ℝ)| := by exact_mod_cast Int.one_le_abs hn
    rw [abs_mul, abs_of_nonneg (by linarith [le_ln2High] : (0 : ℝ) ≤ ln2High.toRat)]
    exact le_ln2High.trans (le_mul_of_one_le_left (by linarith [le_ln2High]) hint)
  have hlog := h.log.size
  have hrest := h.near
  generalize (n : ℝ) * ln2High.toRat = a at *
  generalize v * c.toReal - 1 = b at *
  have hback := abs_sub (a + logc.toReal + b) (logc.toReal + b)
  have hshift : a + logc.toReal + b - (logc.toReal + b) = a := by ring
  rw [hshift] at hback
  linarith [abs_add_le logc.toReal b]

/-- The logarithm of any number but one is the sum of two parts as described. -/
theorem exists_lnInput (hq : 2 ^ 52 ≤ q ∧ q < 2 ^ 53) (he : e.natAbs ≤ 1079)
    (hne : ¬(q = 2 ^ 52 ∧ e = 0)) :
    ∃ m : ℝ, ∃ t₁ low₁ rHigh rLow : Binary64, LnInput m t₁ low₁ rHigh rLow ∧
      lnParts q e = lnSum t₁ low₁ rHigh rLow := by
  obtain ⟨n, hn⟩ : ∃ n, (if decide (cellsFrom ≤ q) then e + 1 else e) = n := ⟨_, rfl⟩
  have hcount : n.natAbs ≤ 1080 := by
    rw [← hn]
    split <;> omega
  have hpoint := lnPoint hq
  have hplaces : 52 ≤ lnPlaces (decide (cellsFrom ≤ q)) ∧
      lnPlaces (decide (cellsFrom ≤ q)) ≤ 53 := by
    rw [lnPlaces]
    split <;> omega
  obtain ⟨hz, hvalue, hw, hnear, hnear'⟩ := lnDigits hq hplaces
  rw [lnParts_eq, hn, lnSumOf]
  rw [← hvalue] at hz hpoint
  by_cases hzero : n = 0
  · rcases hpoint.central_or with ⟨hc, hlog, htail⟩ | hfar
    · have hone : q ≠ 2 ^ lnPlaces (decide (cellsFrom ≤ q)) := by
        intro h
        rw [lnPlaces] at h
        by_cases hhalved : cellsFrom ≤ q
        · simp only [hhalved, decide_true, if_true] at h
          omega
        · simp only [hhalved, decide_false, Bool.false_eq_true, if_false] at h hn
          exact hne ⟨h, hn.trans hzero⟩
      have happart := le_abs_digits_sub_one hplaces.2 hone
      rw [← hvalue] at happart
      rw [hc] at hpoint ⊢
      rw [hzero]
      exact ⟨_, _, _, _, _, lnInput_near hpoint hlog htail hz hw hnear' happart, rfl⟩
    · refine ⟨_, _, _, _, _, (lnInput_far hpoint hz hw hnear hcount ?_).1, rfl⟩
      simpa [hzero] using hfar
  · exact ⟨_, _, _, _, _, (lnInput_far hpoint hz hw hnear hcount (hpoint.le_abs hzero)).1, rfl⟩

/-- **The logarithm is in two parts.** -/
theorem lnParts_spec (hq : 2 ^ 52 ≤ q ∧ q < 2 ^ 53) (he : e.natAbs ≤ 1079) :
    TwoParts (lnParts q e).1 (lnParts q e).2 := by
  by_cases hone : q = 2 ^ 52 ∧ e = 0
  · obtain ⟨rfl, rfl⟩ := hone
    rw [lnParts_one.1]
    exact ⟨rfl, rfl, by simp [toReal_zero], by simp [toReal_zero]⟩
  · obtain ⟨m, t₁, low₁, rHigh, rLow, hinput, hparts⟩ := exists_lnInput hq he hone
    rw [hparts]
    exact hinput.lnSum_spec.1

/-- The logarithm of a power of two. -/
theorem lnParts_two_pow (he : e.natAbs ≤ 1079) (hne : e ≠ 0) :
    |(lnParts (2 ^ 52) e).1.toReal - e * ln2High.toRat| ≤ 1 / 1000 := by
  have hq : 2 ^ 52 ≤ 2 ^ 52 ∧ 2 ^ 52 < 2 ^ 53 := by decide
  have hhalved : decide (cellsFrom ≤ 2 ^ 52) = false := by decide
  obtain ⟨hz, hvalue, hw, hnear, -⟩ := lnDigits (k := lnPlaces false) hq (by decide)
  have hpoint := lnPoint hq
  rw [lnParts_eq, hhalved, lnSumOf, if_neg Bool.false_ne_true]
  rw [hhalved, ← hvalue] at hpoint
  rw [← hvalue] at hz
  obtain ⟨hinput, htotal⟩ := lnInput_far hpoint hz hw hnear (e := e) (by omega) (hpoint.le_abs hne)
  obtain ⟨-, hsum⟩ := hinput.lnSum_spec
  -- The base point is one, and so is the number.
  obtain ⟨-, hc, hlog⟩ := lnParts_one
  have hone : ((ofInt (2 ^ 52 : ℕ)).scale (-lnPlaces false)).toReal = 1 := by
    rw [hvalue, lnPlaces]
    norm_num
  have hc' : (ofBits (lnRow (lnCell (2 ^ 52))).1).toReal = 1 := by
    rw [← cast_toRat hpoint.point.isFinite, hc, Rat.cast_one]
  have hlog' : (ofBits (lnRow (lnCell (2 ^ 52))).2.1).toReal = 0 := by
    rw [← cast_toRat hpoint.log.isFinite, hlog, Rat.cast_zero]
  rw [hone, hc', hlog', mul_one, show (1 : ℝ) - 1 = 0 by norm_num, add_zero, add_zero] at htotal
  obtain ⟨hsum, hsum'⟩ := abs_le.mp hsum
  obtain ⟨htotal, htotal'⟩ := abs_le.mp htotal
  exact abs_le.mpr ⟨by linarith, by linarith⟩

end Binary64

end FriBound
