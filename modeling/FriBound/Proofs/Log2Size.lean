import FriBound.Proofs.Small

/-!
# The size of the logarithm

The computed logarithm of a positive number is at most `1074` in size. That is the logarithm of the
smallest number, so there is no room for an error there; it is one of the few that are settled by
evaluation. From `4` units on, the formula by cells differs from the exponent by less than two, and
close to one the formula in `x - 1` stays small. Both are seen by counting the sizes of all
intermediate values in grains.

The one step that needs more than sizes is the rest of a sum, `t - (t + u) + u`: a number differs
from a sum with it by about what was added.

## Main definitions

* `Binary64.RowFits` — what is used of a row of the table

## Main results

* `Binary64.abs_log2_le` — the size of the logarithm
-/

namespace FriBound

namespace Binary64

variable {x : Binary64}

/-! ### Polynomials -/

theorem small_linear {r a b : Binary64} (hr : Small (2 ^ 36) r) (ha : Small (2 ^ 40) a)
    (hb : Small (2 ^ 40) b) : Small (2 ^ 41) (a + r * b) := by
  have hprod : Small (2 ^ 36) (r * b) := hr.mul hb (by decide)
  exact ha.add hprod (by decide)

/-- A cubic polynomial, the way it is evaluated. -/
theorem small_cubic {r a b c d : Binary64} (hr : Small (2 ^ 36) r) (ha : Small (2 ^ 40) a)
    (hb : Small (2 ^ 40) b) (hc : Small (2 ^ 40) c) (hd : Small (2 ^ 40) d) :
    Small (2 ^ 42) (a + r * b + r * r * (c + r * d)) := by
  have hsquare : Small (2 ^ 32) (r * r) := hr.mul hr (by decide)
  have hprod : Small (2 ^ 33) (r * r * (c + r * d)) :=
    hsquare.mul (small_linear hr hc hd) (by decide)
  exact (small_linear hr ha hb).add hprod (by decide)

/-- The leading part and the rest of `r`, times a constant in two parts. -/
theorem small_twoParts {r h l : Binary64} (hr : Small (2 ^ 36) r) (hh : Small (2 ^ 41) h)
    (hl : Small (2 ^ 8) l) : Small (2 ^ 37) (r.leading 32 * h) ∧
      Small (2 ^ 38 + 2 ^ 4) ((r - r.leading 32) * h + r * l) := by
  have hlead : Small (2 ^ 36) (r.leading 32) := hr.leading (by decide) 32
  have hrest : Small (2 ^ 37) (r - r.leading 32) := hr.sub hlead (by decide)
  have hprod : Small (2 ^ 38) ((r - r.leading 32) * h) := hrest.mul hh (by decide)
  have htiny : Small (2 ^ 4) (r * l) := hr.mul hl (by decide)
  exact ⟨hlead.mul hh (by decide), hprod.add htiny (by decide)⟩

/-- Close to one the logarithm is small. -/
theorem small_log2NearOne {r h l b₀ b₁ b₂ b₃ b₄ b₅ b₆ b₇ b₈ b₉ : Binary64} (hr : Small (2 ^ 36) r)
    (hh : Small (2 ^ 41) h) (hl : Small (2 ^ 8) l)
    (hb : ∀ b ∈ [b₀, b₁, b₂, b₃, b₄, b₅, b₆, b₇, b₈, b₉], Small (2 ^ 40) b) :
    Small (2 ^ 50) (r.leading 32 * h + r * r * (b₀ + r * b₁) +
      ((r - r.leading 32) * h + r * l +
        (r.leading 32 * h - (r.leading 32 * h + r * r * (b₀ + r * b₁)) + r * r * (b₀ + r * b₁)) +
        r * r * (r * r) * (b₂ + r * b₃ + r * r * (b₄ + r * b₅)
          + r * r * (r * r) * (b₆ + r * b₇ + r * r * (b₈ + r * b₉))))) := by
  simp only [List.forall_mem_cons] at hb
  obtain ⟨hb₀, hb₁, hb₂, hb₃, hb₄, hb₅, hb₆, hb₇, hb₈, hb₉, -⟩ := hb
  obtain ⟨hhigh, hlow⟩ := small_twoParts hr hh hl
  have hsquare : Small (2 ^ 32) (r * r) := hr.mul hr (by decide)
  have hfourth : Small (2 ^ 24) (r * r * (r * r)) := hsquare.mul hsquare (by decide)
  have hp : Small (2 ^ 33) (r * r * (b₀ + r * b₁)) :=
    hsquare.mul (small_linear hr hb₀ hb₁) (by decide)
  have hy : Small (2 ^ 38) (r.leading 32 * h + r * r * (b₀ + r * b₁)) := hhigh.add hp (by decide)
  have herror : Small (2 ^ 40) (r.leading 32 * h - (r.leading 32 * h + r * r * (b₀ + r * b₁)) +
      r * r * (b₀ + r * b₁)) := (hhigh.sub hy (l := 2 ^ 39) (by decide)).add hp (by decide)
  have hinner : Small (2 ^ 26) (r * r * (r * r) * (b₆ + r * b₇ + r * r * (b₈ + r * b₉))) :=
    hfourth.mul (small_cubic hr hb₆ hb₇ hb₈ hb₉) (by decide)
  have htail := (small_cubic hr hb₂ hb₃ hb₄ hb₅).add hinner (l := 2 ^ 43) (by decide)
  have hlower := (hlow.add herror (l := 2 ^ 41) (by decide)).add
    (hfourth.mul htail (l := 2 ^ 27) (by decide)) (l := 2 ^ 42) (by decide)
  exact hy.add hlower (by decide)

/-- By cells, it differs from `t` by little. -/
theorem small_log2Sum {r t h l a₀ a₁ a₂ a₃ a₄ a₅ : Binary64} (hr : Small (2 ^ 36) r)
    (ht : Small (1072 * 2 ^ 40 + 5 * 2 ^ 37) t) (hh : Small (2 ^ 41) h) (hl : Small (2 ^ 8) l)
    (ha : ∀ a ∈ [a₀, a₁, a₂, a₃, a₄, a₅], Small (2 ^ 40) a) :
    Small (1074 * 2 ^ 40) (t - (t + r.leading 32 * h) + r.leading 32 * h +
        ((r - r.leading 32) * h + r * l) +
      r * r * (a₀ + r * a₁ + r * r * (a₂ + r * a₃) + r * r * (r * r) * (a₄ + r * a₅)) +
      (t + r.leading 32 * h)) := by
  simp only [List.forall_mem_cons] at ha
  obtain ⟨ha₀, ha₁, ha₂, ha₃, ha₄, ha₅, -⟩ := ha
  obtain ⟨hlog, hrest⟩ := small_twoParts hr hh hl
  have hsquare : Small (2 ^ 32) (r * r) := hr.mul hr (by decide)
  have hfourth : Small (2 ^ 24) (r * r * (r * r)) := hsquare.mul hsquare (by decide)
  have hhigh : Small (1072 * 2 ^ 40 + 6 * 2 ^ 37) (t + r.leading 32 * h) :=
    ht.add hlog (by decide)
  -- The sizes of `t` and of the sum would be too much here.
  have herror : Small (2 ^ 38) (t - (t + r.leading 32 * h)) := ht.sub_add hlog (by decide)
  have hlow := (herror.add hlog (l := 2 ^ 38 + 2 ^ 37) (by decide)).add hrest
    (l := 2 ^ 39 + 2 ^ 38) (by decide)
  have hp := (small_cubic hr ha₀ ha₁ ha₂ ha₃).add
    (hfourth.mul (small_linear hr ha₄ ha₅) (l := 2 ^ 25) (by decide)) (l := 2 ^ 43) (by decide)
  have hsmall := hlow.add (hsquare.mul hp (l := 2 ^ 35) (by decide))
    (l := 2 ^ 39 + 2 ^ 38 + 2 ^ 35) (by decide)
  exact hsmall.add hhigh (by decide)

/-! ### The table -/

/-- How many units the last of 53 digits has, in the cell. -/
def cellDigit (cell : Nat) : Nat := 2 ^ (places - if 88 ≤ cell then 53 else 52)

/-- What is used of the row of a cell: the sizes of its entries, and that the base point lies in
the cell. -/
def RowFits (cell : Nat) (row : Nat × Nat × Nat × Nat) : Prop :=
  Small (2 ^ 41) (ofBits row.1) ∧ Small (5 * 2 ^ 37) (ofBits row.2.1) ∧
    Small 1 (ofBits row.2.2.2) ∧ (ofBits row.2.2.1).isFinite = true ∧
    ∃ a ∈ (ofBits row.2.2.1).place, (cell * 2 ^ 46 * cellDigit cell : Nat) ≤ a ∧
      a ≤ ((cell + 1) * 2 ^ 46 * cellDigit cell : Nat)

instance (cell : Nat) (row : Nat × Nat × Nat × Nat) : Decidable (RowFits cell row) :=
  inferInstanceAs (Decidable (_ ∧ _ ∧ _ ∧ _ ∧ _))

theorem log2Points_fit : ∀ cell < 128, 64 ≤ cell → RowFits cell (log2Row cell) := by
  decide +kernel

theorem unitsPerOne_eq_mul {k : Nat} (hk : k ≤ places) :
    unitsPerOne = 2 ^ k * 2 ^ (places - k) := by
  rw [unitsPerOne_eq, ← Nat.pow_add, Nat.add_sub_cancel' hk]

/-- A whole number of 53 digits, read with the point `k` places up. -/
theorem place_scale_digits {n : Int} {k : Nat} (hn : n.natAbs < 2 ^ 53) (hk : k ≤ places) :
    ((ofInt n).scale (-k)).isFinite = true ∧
      ((ofInt n).scale (-k)).place = some (n * (2 ^ (places - k) : Nat)) := by
  have habs : ∀ u : Nat, (n * (u : Int)).natAbs = n.natAbs * u := by
    intro u
    rw [Int.natAbs_mul, Int.natAbs_natCast]
  have hlimit : ∀ {e : Nat}, e ≤ places → (n * (2 ^ e : Nat)).natAbs < unitLimit := by
    intro e he
    rw [habs]
    calc n.natAbs * 2 ^ e < 2 ^ 53 * 2 ^ e := Nat.mul_lt_mul_of_pos_right hn (Nat.two_pow_pos e)
      _ = 2 ^ (53 + e) := (Nat.pow_add ..).symm
      _ ≤ 2 ^ (53 + places) := Nat.pow_le_pow_right Nat.two_pos (by omega)
      _ ≤ unitLimit := Nat.le_of_lt (two_pow_lt_unitLimit (by decide))
  have hone := place_ofInt_of_short (n := n) (by omega)
  have hfin : (ofInt n).isFinite = true :=
    isFinite_iff_place.mpr ⟨_, hone, by rw [unitsPerOne_eq]; exact hlimit (Nat.le_refl _)⟩
  have hplace : ((ofInt n).scale (-k)).place = some (n * (2 ^ (places - k) : Nat)) := by
    refine place_scale_of_short hfin hone ?_ (Nat.le_of_lt (hlimit (Nat.sub_le ..))) ?_
    · exact ⟨n.natAbs, places - k, Nat.le_of_lt hn, habs _⟩
    · rw [Int.toNat_neg_natCast, Int.neg_neg, Int.toNat_natCast, unitsPerOne_eq_mul hk,
        Nat.mul_comm]
      push_cast
      rw [Int.mul_one, Int.mul_assoc]
  exact ⟨isFinite_iff_place.mpr ⟨_, hplace, hlimit (Nat.sub_le ..)⟩, hplace⟩

/-- The digits and the exponent of the normal form. -/
theorem normalForm_bounds {x : Magnitude} (hx : x.units ≠ 0) :
    2 ^ 52 ≤ (normalForm x).1 ∧ (normalForm x).1 < 2 ^ 53 := by
  have hlow : 2 ^ x.units.log2 ≤ x.units := Nat.log2_self_le hx
  have hhigh : x.units < 2 ^ (x.units.log2 + 1) := Nat.lt_log2_self
  rw [normalForm]
  dsimp only
  generalize x.units.log2 = top at *
  split
  · have hpos := Nat.two_pow_pos (top - 52)
    rw [Nat.le_div_iff_mul_le hpos, Nat.div_lt_iff_lt_mul hpos, ← Nat.pow_add, ← Nat.pow_add]
    rw [Nat.add_sub_cancel' ‹_›]
    exact ⟨hlow, by rwa [show 53 + (top - 52) = top + 1 by omega]⟩
  · have hlow' := Nat.mul_le_mul_right (2 ^ (52 - top)) hlow
    have hhigh' := Nat.mul_lt_mul_of_pos_right hhigh (Nat.two_pow_pos (52 - top))
    rw [← Nat.pow_add] at hlow' hhigh'
    rw [show top + (52 - top) = 52 by omega] at hlow'
    rw [show top + 1 + (52 - top) = 53 by omega] at hhigh'
    exact ⟨hlow', hhigh'⟩

theorem normalForm_exponent_bounds {x : Magnitude} (hx : x.units ≠ 0) :
    -1074 ≤ (normalForm x).2 ∧ (normalForm x).2 ≤ 1023 := by
  have hlimit := x.small
  rw [unitLimit_eq, ← Nat.log2_lt hx, topDigits] at hlimit
  rw [normalForm, places]
  dsimp only
  omega

theorem normalForm_of_two_pow {x : Magnitude} {k : Nat} (hx : x.units = 2 ^ k) :
    normalForm x = (2 ^ 52, (k : Int) - places) := by
  rw [normalForm, hx, Nat.log2_two_pow, Prod.mk.injEq]
  refine ⟨?_, rfl⟩
  split
  · rw [Nat.pow_div (Nat.sub_le k 52) Nat.two_pos, Nat.sub_sub_self ‹_›]
  · rw [← Nat.pow_add, Nat.add_sub_cancel' (by omega)]

theorem cellDigit_le (cell : Nat) : 2 ^ 46 * cellDigit cell ≤ 2 ^ 34 * grain := by
  have hplaces : 46 + (places - 52) = 34 + (places - 40) := by decide
  have hle : cellDigit cell ≤ 2 ^ (places - 52) := by
    refine Nat.pow_le_pow_right Nat.two_pos ?_
    split <;> omega
  calc 2 ^ 46 * cellDigit cell ≤ 2 ^ 46 * 2 ^ (places - 52) := Nat.mul_le_mul_left _ hle
    _ = 2 ^ (46 + (places - 52)) := (Nat.pow_add ..).symm
    _ = 2 ^ 34 * grain := by rw [hplaces, Nat.pow_add, grain_eq]

/-- The rest of a number after its base point. -/
theorem small_rest {q : Nat} {x c d : Binary64} {a : Int}
    (hx : x.place = some ((q * cellDigit (q / 2 ^ 46) : Nat) : Int)) (hxfin : x.isFinite = true)
    (hc : c.place = some a) (hcfin : c.isFinite = true)
    (hlow : (q / 2 ^ 46 * 2 ^ 46 * cellDigit (q / 2 ^ 46) : Nat) ≤ a)
    (hhigh : a ≤ ((q / 2 ^ 46 + 1) * 2 ^ 46 * cellDigit (q / 2 ^ 46) : Nat)) (hd : Small 1 d) :
    Small (2 ^ 34 + 1) (x - c - d) := by
  refine Small.sub (m := 2 ^ 34) ?_ hd (by decide)
  refine AtMost.of_place (place_sub hxfin hcfin hx hc) Nat.one_pos (short_grains (by decide)) ?_
  rw [Nat.mul_one]
  refine Nat.le_trans ?_ (cellDigit_le (q / 2 ^ 46))
  have hq := Nat.div_add_mod' q (2 ^ 46)
  have hrem : q % 2 ^ 46 < 2 ^ 46 := Nat.mod_lt _ (Nat.two_pow_pos 46)
  have hsucc : (q / 2 ^ 46 + 1) * 2 ^ 46 = q / 2 ^ 46 * 2 ^ 46 + 2 ^ 46 := Nat.succ_mul ..
  have hge : q / 2 ^ 46 * 2 ^ 46 * cellDigit (q / 2 ^ 46) ≤ q * cellDigit (q / 2 ^ 46) :=
    Nat.mul_le_mul_right _ (by omega)
  have hle : q * cellDigit (q / 2 ^ 46) ≤ (q / 2 ^ 46 + 1) * 2 ^ 46 * cellDigit (q / 2 ^ 46) :=
    Nat.mul_le_mul_right _ (by omega)
  rw [hsucc, Nat.add_mul] at hhigh hle
  omega

/-- **By cells, the logarithm differs from the exponent by less than three.** -/
theorem small_log2Cell {q : Nat} {e : Int} (hq : 2 ^ 52 ≤ q ∧ q < 2 ^ 53)
    (he : -1072 ≤ e ∧ e ≤ 1023) : Small (1074 * 2 ^ 40) (log2Cell q e) := by
  have hlt : q / 2 ^ 46 < 128 := by omega
  have hpoint : ∃ k : Nat, k ≤ places ∧ cellDigit (q / 2 ^ 46) = 2 ^ (places - k) ∧
      (if decide (88 ≤ q / 2 ^ 46) then -53 else -52) = -(k : Int) := by
    rw [cellDigit]
    by_cases h : 88 ≤ q / 2 ^ 46
    · exact ⟨53, by decide, by rw [if_pos h], by rw [decide_eq_true h]; rfl⟩
    · exact ⟨52, by decide, by rw [if_neg h], by rw [decide_eq_false h]; rfl⟩
  obtain ⟨k, hk, hdigit, hpoint⟩ := hpoint
  obtain ⟨hc, hlog, hlow, hfin, a, ha, hle, hge⟩ := log2Points_fit (q / 2 ^ 46) hlt (by omega)
  obtain ⟨hzfin, hz⟩ := place_scale_digits (n := q) (k := k) (by omega) hk
  rw [← hdigit, ← Int.natCast_mul] at hz
  have hexp : Small (1072 * 2 ^ 40) (ofInt (if decide (88 ≤ q / 2 ^ 46) then e + 1 else e)) :=
    Small.ofInt (by split <;> omega)
  rw [log2Cell]
  generalize log2Row (q / 2 ^ 46) = row at *
  obtain ⟨c', logc, cHigh, cLow⟩ := row
  dsimp only at *
  have hrest := (small_rest hz hzfin ha hfin hle hge hlow).mul hc (l := 2 ^ 36) (by decide)
  rw [hpoint]
  exact small_log2Sum hrest (hexp.add hlog (by decide)) (by decide +kernel) (by decide +kernel)
    (by decide +kernel)

/-! ### The logarithm -/

theorem small_sub_one {x : Binary64} (hlow : nearOneFrom ≤ x) (hhigh : x ≤ nearOneTo) :
    Small (2 ^ 36) (x - ofInt 1) := by
  have hfrom : ∃ a ∈ nearOneFrom.place, (unitsPerOne - 2 ^ 36 * grain : Int) ≤ a := by
    decide +kernel
  have hto : ∃ a ∈ nearOneTo.place, a ≤ (unitsPerOne + 2 ^ 36 * grain : Int) := by decide +kernel
  have hx := isFinite_of_le_of_le hlow hhigh (by decide +kernel) (by decide +kernel)
  obtain ⟨a, ha, hfrom⟩ := hfrom
  obtain ⟨c, hc, hto⟩ := hto
  obtain ⟨b, hb, hab⟩ := exists_place_of_le hlow ha
  have hbc := (le_iff_of_place hb hc).mp hhigh
  refine AtMost.of_place (place_sub hx isFinite_one hb place_one) Nat.one_pos
    (short_grains (by decide)) ?_
  push_cast at *
  omega

/-- The few smallest numbers. -/
def tiny (n : Fin 4) : Magnitude :=
  ⟨n, short_of_le (by omega), Nat.lt_of_lt_of_le n.isLt (two_pow_le_unitLimit (n := 2) (by decide))⟩

theorem log2_tiny : ∀ n : Fin 4, n.val ≠ 0 → (log2 (fin false (tiny n))).abs ≤ ofInt 1074 := by
  decide +kernel

/-- **The size of the logarithm.** It is at most `1074` for a positive number, which is what it is
for the smallest. -/
theorem abs_log2_le (hx : x.isFinite = true) (hpos : (zero false).lt x = true) :
    x.log2.abs ≤ ofInt 1074 := by
  obtain ⟨m, rfl, hm⟩ := exists_fin_of_pos hx hpos
  rcases Nat.lt_or_ge m.units 4 with htiny | hlarge
  · have hmag : m = tiny ⟨m.units, htiny⟩ := Magnitude.ext rfl
    rw [hmag]
    exact log2_tiny _ hm
  rw [log2, if_neg hm, if_neg Bool.false_ne_true]
  split
  · rename_i hnear
    rw [Bool.and_eq_true, Bool.not_eq_true'] at hnear
    have hsub := small_sub_one (le_of_not_lt (ne_nan_of_isFinite hx)
      (ne_nan_of_isFinite (by decide +kernel)) hnear.1)
      (le_of_lt hnear.2)
    rw [log2NearOne]
    exact ((small_log2NearOne hsub (by decide +kernel) (by decide +kernel)
      (by decide +kernel)).mono (by decide)).abs_le (by decide)
  · have htop : 2 ≤ m.units.log2 := (Nat.le_log2 hm).mpr hlarge
    have hlimit := m.small
    rw [unitLimit_eq, ← Nat.log2_lt hm] at hlimit
    refine (small_log2Cell (normalForm_bounds hm) ?_).abs_le (by decide)
    rw [normalForm, places]
    rw [topDigits] at hlimit
    dsimp only
    omega

end Binary64

end FriBound
