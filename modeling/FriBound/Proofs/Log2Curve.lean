import FriBound.Proofs.Approximation
import FriBound.Proofs.Log2Size

/-!
# What the logarithm computes

Without roundings, the logarithm by cells is a table entry plus a polynomial in the rest `r` of the
number, and close to one it is another such polynomial. The polynomials are `curve`s: a linear part
of slope `1 / ln 2` and small further coefficients, so that they grow nearly as fast as their
argument. As the entries are binary numbers, all of this is a matter of fractions, and the ends of
the cells, where one polynomial takes over from the next, are compared by evaluation.

## Main definitions

* `curve` — the polynomials
* `Binary64.toRat` — the value of a binary number as a fraction
* `Binary64.cellLog` — the logarithm by the formula of a cell, without roundings

## Main results

* `curve_add_le` — the slope of the polynomials
* `Binary64.cellLog_add_le` — the logarithm by cells grows with the digits
-/

namespace FriBound

/-! ### Polynomials -/

section Polynomial

variable {K : Type*} [Field K] [LinearOrder K] [IsStrictOrderedRing K] {as : List K} {h r s : K}

/-- The polynomial with these coefficients, by rising power. -/
def horner (as : List K) (r : K) : K := as.foldr (fun a v => a + r * v) 0

/-- The logarithm of `1 + r`, whose linear part is `h * r`. -/
def curve (h : K) (as : List K) (r : K) : K := r * h + r * r * horner as r

theorem abs_horner_le (has : ∀ a ∈ as, |a| ≤ 1) (hr : |r| ≤ 1 / 16) :
    |horner as r| ≤ 16 / 15 := by
  induction as with
  | nil =>
    rw [horner, List.foldr_nil, abs_zero]
    norm_num
  | cons a as ih =>
    obtain ⟨ha, has⟩ := List.forall_mem_cons.mp has
    have hprod : |r * horner as r| ≤ 1 / 16 * (16 / 15) := by
      rw [abs_mul]
      exact mul_le_mul hr (ih has) (abs_nonneg _) (by norm_num)
    calc |horner (a :: as) r| ≤ |a| + |r * horner as r| := abs_add_le _ _
      _ ≤ 1 + 1 / 16 * (16 / 15) := add_le_add ha hprod
      _ = 16 / 15 := by norm_num

theorem abs_horner_sub_le (has : ∀ a ∈ as, |a| ≤ 1) (hr : |r| ≤ 1 / 16) (hs : |s| ≤ 1 / 16) :
    |horner as s - horner as r| ≤ 8 / 7 * |s - r| := by
  induction as with
  | nil =>
    rw [horner, horner, List.foldr_nil, List.foldr_nil, sub_self, abs_zero]
    positivity
  | cons a as ih =>
    obtain ⟨ha, has⟩ := List.forall_mem_cons.mp has
    have hsplit : horner (a :: as) s - horner (a :: as) r =
        (s - r) * horner as s + r * (horner as s - horner as r) := by
      show a + s * horner as s - (a + r * horner as r) = _
      ring
    have hfirst : |(s - r) * horner as s| ≤ |s - r| * (16 / 15) := by
      rw [abs_mul]
      exact mul_le_mul_of_nonneg_left (abs_horner_le has hs) (abs_nonneg _)
    have hrest : |r * (horner as s - horner as r)| ≤ 1 / 16 * (8 / 7 * |s - r|) := by
      rw [abs_mul]
      exact mul_le_mul hr (ih has) (abs_nonneg _) (by norm_num)
    rw [hsplit]
    linarith [abs_add_le ((s - r) * horner as s) (r * (horner as s - horner as r)),
      abs_nonneg (s - r)]

/-- **The slope of the polynomial** is that of its linear part, up to a little. -/
theorem curve_add_le (hh : 36 / 25 ≤ h) (has : ∀ a ∈ as, |a| ≤ 1) (hr : |r| ≤ 1 / 16)
    (hs : |s| ≤ 1 / 16) (hrs : r ≤ s) : curve h as r + 13 / 10 * (s - r) ≤ curve h as s := by
  have hsplit : curve h as s - curve h as r = (s - r) * h + (s - r) * ((s + r) * horner as s) +
      r * r * (horner as s - horner as r) := by
    rw [curve, curve]
    ring
  have hd : 0 ≤ s - r := sub_nonneg.mpr hrs
  have hlinear : (s - r) * (36 / 25) ≤ (s - r) * h := mul_le_mul_of_nonneg_left hh hd
  have hsum : |s + r| ≤ 1 / 8 := (abs_add_le s r).trans (by linarith)
  have hmiddle : |(s - r) * ((s + r) * horner as s)| ≤ (s - r) * (1 / 8 * (16 / 15)) := by
    rw [abs_mul, abs_mul, abs_of_nonneg hd]
    exact mul_le_mul_of_nonneg_left
      (mul_le_mul hsum (abs_horner_le has hs) (abs_nonneg _) (by norm_num)) hd
  have hlast : |r * r * (horner as s - horner as r)| ≤ 1 / 16 * (1 / 16) * (8 / 7 * (s - r)) := by
    have hdiff := abs_horner_sub_le has hr hs
    rw [abs_of_nonneg hd] at hdiff
    rw [abs_mul, abs_mul]
    exact mul_le_mul (mul_le_mul hr hr (abs_nonneg _) (by norm_num)) hdiff (abs_nonneg _)
      (by norm_num)
  linarith [neg_le_of_abs_le hmiddle, neg_le_of_abs_le hlast]

end Polynomial

namespace Binary64

variable {x : Binary64}

theorem cast_curve (h : ℚ) (as : List ℚ) (r : ℚ) :
    ((curve h as r : ℚ) : ℝ) = curve (h : ℝ) (as.map (↑)) (r : ℝ) := by
  have hhorner : ((horner as r : ℚ) : ℝ) = horner (as.map (↑)) (r : ℝ) := by
    induction as with
    | nil => exact Rat.cast_zero
    | cons a as ih =>
      show ((a + r * horner as r : ℚ) : ℝ) = a + r * horner (as.map (↑)) (r : ℝ)
      rw [← ih]
      push_cast
      rfl
  rw [curve, curve, ← hhorner]
  push_cast
  rfl

/-! ### The cells -/

/-- The coefficients within a cell, and close to one. -/
def cellCoefficients : List ℚ := [Log2.a₀, Log2.a₁, Log2.a₂, Log2.a₃, Log2.a₄, Log2.a₅].map toRat

def nearOneCoefficients : List ℚ := [Log2.b₀, Log2.b₁, Log2.b₂, Log2.b₃, Log2.b₄, Log2.b₅,
  Log2.b₆, Log2.b₇, Log2.b₈, Log2.b₉].map toRat

/-- The linear coefficient of both. -/
def invLn2 : ℚ := toRat Log2.invLn2High + toRat Log2.invLn2Low

/-- The places after the point, for the 53 digits of a number in the cell. -/
def cellPlaces (cell : ℕ) : ℕ := if 88 ≤ cell then 53 else 52

/-- The rest `z / c - 1` of the number with the digits `q`, without any rounding. -/
def cellRest (cell q : ℕ) : ℚ :=
  (q / 2 ^ cellPlaces cell - toRat (ofBits (log2Row cell).2.2.1) -
    toRat (ofBits (log2Row cell).2.2.2)) * toRat (ofBits (log2Row cell).1)

/-- Its logarithm by the formula of the cell, with the exponent zero. -/
def cellLog (cell q : ℕ) : ℚ :=
  (cellPlaces cell - 52 : ℕ) + toRat (ofBits (log2Row cell).2.1) +
    curve invLn2 cellCoefficients (cellRest cell q)

/-- What is used of a row: its base point is near the whole cell, and the logarithm of the base
point has few digits. -/
def RowClose (cell : ℕ) (row : ℕ × ℕ × ℕ × ℕ) : Prop :=
  ((ofBits row.1).isFinite = true ∧ 99 / 100 ≤ toRat (ofBits row.1) * 2 ^ (53 - cellPlaces cell) ∧
    |toRat (ofBits row.1)| ≤ 3 / 2) ∧
  ((ofBits row.2.1).isFinite = true ∧ |toRat (ofBits row.2.1)| ≤ 1 ∧
    (toRat (ofBits row.2.1) * 2 ^ 42).den = 1) ∧
  ((ofBits row.2.2.1).isFinite = true ∧ |toRat (ofBits row.2.2.1)| ≤ 2 ∧
    |(cell * 2 ^ 46 : ℚ) / 2 ^ cellPlaces cell - toRat (ofBits row.2.2.1)| ≤ 1 / 2 ^ 6 ∧
    |((cell + 1) * 2 ^ 46 : ℚ) / 2 ^ cellPlaces cell - toRat (ofBits row.2.2.1)| ≤ 1 / 2 ^ 6) ∧
  (ofBits row.2.2.2).isFinite = true ∧ |toRat (ofBits row.2.2.2)| ≤ 1 / 2 ^ 50

instance (cell : ℕ) (row : ℕ × ℕ × ℕ × ℕ) : Decidable (RowClose cell row) :=
  inferInstanceAs (Decidable ((_ ∧ _ ∧ _) ∧ (_ ∧ _ ∧ _) ∧ (_ ∧ _ ∧ _ ∧ _) ∧ _ ∧ _))

theorem rows_close : ∀ cell < 128, 64 ≤ cell → RowClose cell (log2Row cell) := by
  decide +kernel

theorem coefficients_fit :
    (∀ a ∈ [Log2.a₀, Log2.a₁, Log2.a₂, Log2.a₃, Log2.a₄, Log2.a₅],
        a.isFinite = true ∧ |a.toRat| ≤ 1) ∧
    (∀ b ∈ [Log2.b₀, Log2.b₁, Log2.b₂, Log2.b₃, Log2.b₄, Log2.b₅, Log2.b₆, Log2.b₇, Log2.b₈,
      Log2.b₉], b.isFinite = true ∧ |b.toRat| ≤ 1) ∧
    (Log2.invLn2High.isFinite = true ∧ |Log2.invLn2High.toRat| ≤ 3 / 2) ∧
      (Log2.invLn2Low.isFinite = true ∧ |Log2.invLn2Low.toRat| ≤ 1 / 2 ^ 30) ∧
    36 / 25 ≤ invLn2 := by
  decide +kernel

theorem abs_coefficients_le :
    (∀ a ∈ cellCoefficients, |a| ≤ 1) ∧ ∀ b ∈ nearOneCoefficients, |b| ≤ 1 := by
  obtain ⟨hcell, hnear, -⟩ := coefficients_fit
  exact ⟨List.forall_mem_map.mpr fun a ha => (hcell a ha).2,
    List.forall_mem_map.mpr fun b hb => (hnear b hb).2⟩

/-- From the last number of a cell to the first of the next, the values grow as within a cell, and
so they do from the last cell to the next exponent. They stay below one by more than they lose. -/
theorem cellLog_ends :
    (∀ cell < 127, 64 ≤ cell → cellLog cell ((cell + 1) * 2 ^ 46 - 1) + 1 / 2 ^ 53 ≤
      cellLog (cell + 1) ((cell + 1) * 2 ^ 46)) ∧
    cellLog 127 (2 ^ 53 - 1) + 1 / 2 ^ 53 ≤ 1 + cellLog 64 (2 ^ 52) ∧
      cellLog 127 (2 ^ 53 - 1) ≤ 1 - 1 / 2 ^ 54 := by
  decide +kernel

variable {cell q : ℕ}

/-- Between the ends of a cell, a number is near its base point. -/
theorem near_point (hcell : 64 ≤ cell ∧ cell < 128)
    (hq : cell * 2 ^ 46 ≤ q ∧ q ≤ (cell + 1) * 2 ^ 46) :
    |(q : ℚ) / 2 ^ cellPlaces cell - toRat (ofBits (log2Row cell).2.2.1)| ≤ 1 / 2 ^ 6 := by
  obtain ⟨-, -, ⟨-, -, hfirst, hlast⟩, -⟩ := rows_close cell hcell.2 hcell.1
  have hlow : (cell * 2 ^ 46 : ℚ) ≤ q := by exact_mod_cast hq.1
  have hhigh : (q : ℚ) ≤ (cell + 1) * 2 ^ 46 := by exact_mod_cast hq.2
  have hpow : (0 : ℚ) ≤ 2 ^ cellPlaces cell := by positivity
  rw [abs_le] at hfirst hlast ⊢
  constructor
  · linarith [div_le_div_of_nonneg_right hlow hpow]
  · linarith [div_le_div_of_nonneg_right hhigh hpow]

theorem abs_cellRest_le (hcell : 64 ≤ cell ∧ cell < 128)
    (hq : cell * 2 ^ 46 ≤ q ∧ q ≤ (cell + 1) * 2 ^ 46) : |cellRest cell q| ≤ 1 / 40 := by
  obtain ⟨⟨-, -, hfactor⟩, -, -, -, hlow⟩ := rows_close cell hcell.2 hcell.1
  have hpoint := near_point hcell hq
  rw [cellRest, abs_mul]
  generalize toRat (ofBits (log2Row cell).1) = c at *
  generalize toRat (ofBits (log2Row cell).2.2.2) = d at *
  generalize (q : ℚ) / 2 ^ cellPlaces cell - _ = z at *
  have hdiff : |z - d| ≤ 1 / 60 := by
    refine (abs_sub _ _).trans ?_
    linarith
  linarith [mul_le_mul_of_nonneg_right hdiff (abs_nonneg c)]

/-- The rests grow with the digits. -/
theorem cellRest_succ (hcell : 64 ≤ cell ∧ cell < 128) :
    cellRest cell q + 99 / 100 / 2 ^ 53 ≤ cellRest cell (q + 1) := by
  obtain ⟨⟨-, hfactor, -⟩, -⟩ := rows_close cell hcell.2 hcell.1
  have hplaces : (2 : ℚ) ^ 53 = 2 ^ (53 - cellPlaces cell) * 2 ^ cellPlaces cell := by
    rw [← pow_add, Nat.sub_add_cancel]
    rw [cellPlaces]
    split <;> omega
  have hstep : cellRest cell (q + 1) - cellRest cell q =
      toRat (ofBits (log2Row cell).1) / 2 ^ cellPlaces cell := by
    rw [cellRest, cellRest]
    push_cast
    ring
  have hle : 99 / 100 / 2 ^ 53 ≤ toRat (ofBits (log2Row cell).1) / 2 ^ cellPlaces cell := by
    rw [hplaces, div_le_div_iff₀ (by positivity) (by positivity), ← mul_assoc]
    exact mul_le_mul_of_nonneg_right hfactor (by positivity)
  linarith

theorem cellLog_succ (hcell : 64 ≤ cell ∧ cell < 128)
    (hq : cell * 2 ^ 46 ≤ q ∧ q + 1 ≤ (cell + 1) * 2 ^ 46) :
    cellLog cell q + 1 / 2 ^ 53 ≤ cellLog cell (q + 1) := by
  obtain ⟨-, -, -, -, hslope⟩ := coefficients_fit
  have hrest := cellRest_succ (q := q) hcell
  have hcurve := curve_add_le hslope abs_coefficients_le.1
    ((abs_cellRest_le hcell ⟨hq.1, by omega⟩).trans (by norm_num))
    ((abs_cellRest_le hcell ⟨by omega, hq.2⟩).trans (by norm_num))
    ((le_add_of_nonneg_right (by positivity)).trans hrest)
  rw [cellLog, cellLog]
  linarith

/-- **The values grow with the digits**, across all cells. -/
theorem cellLog_add_le {q' : ℕ} (hq : 2 ^ 52 ≤ q) (hlt : q < q') (hq' : q' < 2 ^ 53) :
    cellLog (q / 2 ^ 46) q + 1 / 2 ^ 53 ≤ cellLog (q' / 2 ^ 46) q' := by
  have hstep : ∀ n, 2 ^ 52 ≤ n → n + 1 < 2 ^ 53 →
      cellLog (n / 2 ^ 46) n + 1 / 2 ^ 53 ≤ cellLog ((n + 1) / 2 ^ 46) (n + 1) := by
    intro n hn hn'
    rcases Nat.lt_or_ge (n + 1) ((n / 2 ^ 46 + 1) * 2 ^ 46) with hsame | hnext
    · have hcell : (n + 1) / 2 ^ 46 = n / 2 ^ 46 := by omega
      rw [hcell]
      exact cellLog_succ (by omega) (by omega)
    · have hfirst : n + 1 = (n / 2 ^ 46 + 1) * 2 ^ 46 := by omega
      have hcell : (n + 1) / 2 ^ 46 = n / 2 ^ 46 + 1 := by omega
      have hlast : n = (n / 2 ^ 46 + 1) * 2 ^ 46 - 1 := by omega
      have hnext := cellLog_ends.1 (n / 2 ^ 46) (by omega) (by omega)
      rwa [← hlast, ← hfirst, ← hcell] at hnext
  induction q', hlt using Nat.le_induction with
  | base => exact hstep q hq hq'
  | succ n hn ih =>
    have hmore := hstep n (by omega) hq'
    have hpos : (0 : ℚ) < 1 / 2 ^ 53 := by positivity
    linarith [ih (by omega)]

end Binary64

end FriBound
