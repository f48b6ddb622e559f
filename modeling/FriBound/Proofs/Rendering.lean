import FriBound.Decimal.Rounded
import FriBound.Proofs.Digits
import FriBound.Proofs.Reals

/-!
# The digits that are shown

A cell of the table shows a number either in scientific notation or with a fixed number of places.
Both texts are rounded from the exact value, so they are at most half a unit of their last digit
away from it, and exactly half a unit only if that digit is even. The first digit of scientific
notation is no zero: the exact value has more than seven hundred digits, so there are always enough
of them to round away.

Both notations are described by their characters and by the value of the number alone. Rounding
leaves no choice, and neither do the characters, so for each number there is one such text.

## Main definitions

* `Decimal.Nearest`, `Decimal.Rounds` — rounding to a whole number of units, and to so many digits
* `Decimal.IsScientific` — texts in scientific notation that are correctly rounded
* `Decimal.IsFixed` — texts with a fixed number of places that are correctly rounded

## Main results

* `Decimal.isScientific_scientific`, `Decimal.isFixed_fixed` — the texts of the table are
* `Decimal.isScientific_iff`, `Decimal.isFixed_iff` — and no other text is
-/

namespace FriBound

namespace Decimal

variable {k n : ℕ} {m : Magnitude} {x : Binary64} {v : ℝ} {d : Decimal}

/-! ### Rounded values -/

/-- So many of a unit are nearest to a value, and an even number of two that are equally near. -/
structure Nearest (n : ℕ) (unit v : ℝ) : Prop where
  near : |n * unit - v| ≤ unit / 2
  even : |n * unit - v| = unit / 2 → n % 2 = 0

/-- The decimal is the value rounded to `k + 1` digits, its exponent being that of the first one.
Nines can be rounded up to the next power of ten, which has its first digit one place further. -/
structure Rounds (k : ℕ) (v : ℝ) (d : Decimal) : Prop where
  first : 10 ^ k ≤ d.digits
  last : d.digits < 10 ^ (k + 1)
  nearest : ∃ (e : ℤ) (n : ℕ), (10 : ℝ) ^ e ≤ v ∧ v < (10 : ℝ) ^ (e + 1) ∧
    Nearest n ((10 : ℝ) ^ (e - k)) v ∧
    d.digits * (10 : ℝ) ^ (d.exponent - k) = n * (10 : ℝ) ^ (e - k)

/-- A value lies between two whole units, and exactly in the middle only one of them is even. -/
theorem Nearest.unique {n' : ℕ} {unit : ℝ} (hunit : 0 < unit) (h : Nearest n unit v)
    (h' : Nearest n' unit v) : n = n' := by
  have hle : ∀ {a b : ℕ}, Nearest a unit v → Nearest b unit v → a ≤ b := by
    intro a b ha hb
    by_contra hlt
    have hstep : (b + 1 : ℝ) * unit ≤ a * unit :=
      mul_le_mul_of_nonneg_right (by exact_mod_cast not_le.mp hlt) hunit.le
    obtain ⟨-, hahigh⟩ := abs_le.mp ha.near
    obtain ⟨hblow, -⟩ := abs_le.mp hb.near
    have hatie : a * unit - v = unit / 2 := by linarith
    have hbtie : b * unit - v = -(unit / 2) := by linarith
    have haeven := ha.even (by rw [hatie, abs_of_pos (half_pos hunit)])
    have hbeven := hb.even (by rw [hbtie, abs_neg, abs_of_pos (half_pos hunit)])
    have hsucc : (a : ℝ) = (b + 1 : ℕ) := by
      refine mul_right_cancel₀ hunit.ne' ?_
      push_cast
      linarith
    have hab : a = b + 1 := by exact_mod_cast hsucc
    omega
  exact le_antisymm (hle h h') (hle h' h)

theorem le_of_ten_zpow_le {e e' : ℤ} (h : (10 : ℝ) ^ e ≤ v) (h' : v < (10 : ℝ) ^ (e' + 1)) :
    e ≤ e' :=
  Int.lt_add_one_iff.mp ((zpow_lt_zpow_iff_right₀ (by norm_num)).mp (h.trans_lt h'))

/-- **Rounding to so many digits leaves no choice.** -/
theorem Rounds.unique {d' : Decimal} (h : Rounds k v d) (h' : Rounds k v d') : d = d' := by
  obtain ⟨e, n, hlow, hhigh, hnear, hvalue⟩ := h.nearest
  obtain ⟨e', n', hlow', hhigh', hnear', hvalue'⟩ := h'.nearest
  obtain rfl : e = e' := le_antisymm (le_of_ten_zpow_le hlow hhigh') (le_of_ten_zpow_le hlow' hhigh)
  obtain rfl : n = n' := hnear.unique (by positivity) hnear'
  -- The first digit is no zero, so the exponent is that of the value.
  have hdecade : ∀ {d : Decimal}, Rounds k v d →
      (10 : ℝ) ^ d.exponent ≤ d.digits * (10 : ℝ) ^ (d.exponent - k) ∧
        d.digits * (10 : ℝ) ^ (d.exponent - k) < (10 : ℝ) ^ (d.exponent + 1) := by
    intro d hd
    have hfirst : (10 : ℝ) ^ (k : ℤ) ≤ d.digits := by exact_mod_cast hd.first
    have hlast : (d.digits : ℝ) < (10 : ℝ) ^ (k + 1 : ℤ) := by exact_mod_cast hd.last
    have hpos : (0 : ℝ) < 10 ^ (d.exponent - k) := by positivity
    constructor
    · calc (10 : ℝ) ^ d.exponent = 10 ^ (k : ℤ) * 10 ^ (d.exponent - k) := by
            rw [← zpow_add₀ (by norm_num), add_sub_cancel]
        _ ≤ _ := mul_le_mul_of_nonneg_right hfirst hpos.le
    · calc _ < (10 : ℝ) ^ (k + 1 : ℤ) * 10 ^ (d.exponent - k) := mul_lt_mul_of_pos_right hlast hpos
        _ = (10 : ℝ) ^ (d.exponent + 1) := by
            rw [← zpow_add₀ (by norm_num)]
            congr 1
            ring
  have hequal := hvalue.trans hvalue'.symm
  have hexponent : d.exponent = d'.exponent := le_antisymm
    (le_of_ten_zpow_le (hdecade h).1 (hequal ▸ (hdecade h').2))
    (le_of_ten_zpow_le (hdecade h').1 (hequal ▸ (hdecade h).2))
  rw [hexponent] at hequal
  have hdigits : d.digits = d'.digits :=
    Nat.cast_injective (mul_right_cancel₀ (by positivity) hequal)
  cases d
  cases d'
  simp_all

theorem divNearest_even {a b : ℕ} (hb : 0 < b)
    (h : 2 * ((divNearest a b * b : ℕ) - a : ℤ).natAbs = b) : divNearest a b % 2 = 0 := by
  have ha : a / b * b + a % b = a := Nat.div_add_mod' a b
  have hr : a % b < b := Nat.mod_lt a hb
  rw [divNearest] at h ⊢
  split
  · rename_i hlow
    rw [if_pos hlow] at h
    omega
  · rename_i hlow
    rw [if_neg hlow] at h
    split
    · rename_i hhigh
      rw [if_pos hhigh, Nat.add_one_mul (a / b)] at h
      omega
    · omega

theorem nearest_divNearest {a b : ℕ} (hb : 0 < b) : Nearest (divNearest a b) b a := by
  have hcast : 2 * |(divNearest a b : ℝ) * b - a|
      = (2 * ((divNearest a b * b : ℕ) - a : ℤ).natAbs : ℕ) := by
    push_cast
    rw [Nat.cast_natAbs]
    push_cast
    rfl
  constructor
  · have hnear : ((2 * ((divNearest a b * b : ℕ) - a : ℤ).natAbs : ℕ) : ℝ) ≤ b :=
      Nat.cast_le.mpr (divNearest_sub_le hb)
    linarith
  · intro htie
    refine divNearest_even hb (Nat.cast_injective (R := ℝ) ?_)
    rw [← hcast, htie]
    ring

/-- Both sides can be taken in another unit. -/
theorem Nearest.scale {n : ℕ} {unit v c : ℝ} (h : Nearest n unit v) (hc : 0 < c) :
    Nearest n (unit * c) (v * c) := by
  have hdist : |n * (unit * c) - v * c| = |n * unit - v| * c := by
    rw [← mul_assoc, ← sub_mul, abs_mul, abs_of_pos hc]
  refine ⟨?_, fun htie => h.even ?_⟩
  · rw [hdist, mul_div_right_comm]
    exact mul_le_mul_of_nonneg_right h.near hc.le
  · rw [hdist, mul_div_right_comm] at htie
    exact mul_right_cancel₀ hc.ne' htie

/-- The exact value in decimal places. -/
theorem units_mul_unit (m : Magnitude) :
    m.units * Binary64.unit = (ofMagnitude m).digits * (10 : ℝ) ^ (-(places : ℤ)) := by
  have hten : (10 : ℝ) ^ places = 2 ^ places * 5 ^ places := by
    rw [← mul_pow]
    norm_num
  rw [ofMagnitude, Binary64.unit, unitsPerOne_eq, zpow_neg, zpow_natCast, hten]
  push_cast
  field_simp

/-- Rounding the exact value to a power of ten. -/
theorem nearest_digits (m : Magnitude) (drop : ℕ) :
    Nearest (divNearest (ofMagnitude m).digits (10 ^ drop)) ((10 : ℝ) ^ (drop - places : ℤ))
      (m.units * Binary64.unit) := by
  have hpow : (10 : ℝ) ^ (drop - places : ℤ) = (10 ^ drop : ℕ) * 10 ^ (-(places : ℤ)) := by
    rw [sub_eq_add_neg, zpow_add₀ (by norm_num), zpow_natCast]
    push_cast
    rfl
  rw [units_mul_unit, hpow]
  exact (nearest_divNearest (Nat.pow_pos (by decide))).scale (by positivity)

/-! ### Digits -/

theorem lt_ten_pow_length (n : ℕ) : n < 10 ^ length n :=
  (Nat.length_toDigits_le_iff (by decide) Nat.length_toDigits_pos).mp (Nat.le_refl _)

theorem length_le_iff (hk : 0 < k) : length n ≤ k ↔ n < 10 ^ k :=
  Nat.length_toDigits_le_iff (by decide) hk

theorem ten_pow_le (hn : n ≠ 0) (h : k < length n) : 10 ^ k ≤ n := by
  rcases Nat.eq_zero_or_pos k with rfl | hk
  · rw [pow_zero]
    omega
  · by_contra hlt
    have := (length_le_iff hk).mpr (not_le.mp hlt)
    omega

theorem digits_ne_zero (hm : m.units ≠ 0) : (ofMagnitude m).digits ≠ 0 :=
  Nat.mul_ne_zero hm (Nat.pow_pos (by decide)).ne'

/-- The exact value has digits enough to round away. -/
theorem lt_length_digits (hk : k ≤ 700) (hm : m.units ≠ 0) : k < length (ofMagnitude m).digits := by
  by_contra hlength
  have hpos : 0 < k := lt_of_lt_of_le Nat.length_toDigits_pos (not_lt.mp hlength)
  have hlt : (ofMagnitude m).digits < 10 ^ k := (length_le_iff hpos).mp (not_lt.mp hlength)
  have hle : 10 ^ k ≤ (ofMagnitude m).digits :=
    calc 10 ^ k ≤ 10 ^ 700 := Nat.pow_le_pow_right (by decide) hk
      _ ≤ 5 ^ places := by decide +kernel
      _ ≤ m.units * 5 ^ places := Nat.le_mul_of_pos_left _ (Nat.pos_of_ne_zero hm)
  omega

/-- Rounded to so many digits, the exact value has as many, or is the next power of ten. -/
theorem divNearest_digits (hk : k ≤ 700) (hm : m.units ≠ 0) :
    10 ^ k ≤ divNearest (ofMagnitude m).digits (10 ^ (length (ofMagnitude m).digits - (k + 1))) ∧
      divNearest (ofMagnitude m).digits (10 ^ (length (ofMagnitude m).digits - (k + 1)))
        ≤ 10 ^ (k + 1) := by
  have hlength := lt_length_digits hk hm
  have hlow := ten_pow_le (k := length (ofMagnitude m).digits - 1) (digits_ne_zero hm) (by omega)
  have hhigh := (lt_ten_pow_length (ofMagnitude m).digits).le
  generalize (ofMagnitude m).digits = n at hlength hlow hhigh ⊢
  generalize hdrop : length n - (k + 1) = drop
  have hpos : 0 < 10 ^ drop := Nat.pow_pos (by decide)
  constructor
  · rw [← divNearest_mul (10 ^ k) hpos]
    refine divNearest_mono hpos hpos (Nat.mul_le_mul_right _ ?_)
    rwa [← pow_add, ← show length n - 1 = k + drop by omega]
  · rw [← divNearest_mul (10 ^ (k + 1)) hpos]
    refine divNearest_mono hpos hpos (Nat.mul_le_mul_right _ ?_)
    rwa [← pow_add, ← show length n = k + 1 + drop by omega]

/-- The first digit of the exact value stands in this place. -/
theorem decade_digits (hm : m.units ≠ 0) :
    (10 : ℝ) ^ ((length (ofMagnitude m).digits : ℤ) - 1 - places) ≤ m.units * Binary64.unit ∧
      m.units * Binary64.unit
        < (10 : ℝ) ^ ((length (ofMagnitude m).digits : ℤ) - 1 - places + 1) := by
  have hpos : 0 < length (ofMagnitude m).digits := Nat.length_toDigits_pos
  have hlow := ten_pow_le (k := length (ofMagnitude m).digits - 1) (digits_ne_zero hm) (by omega)
  have hhigh := lt_ten_pow_length (ofMagnitude m).digits
  rw [units_mul_unit]
  generalize (ofMagnitude m).digits = n at hpos hlow hhigh ⊢
  have hplace : (0 : ℝ) < 10 ^ (-(places : ℤ)) := by positivity
  have hlow : (10 : ℝ) ^ ((length n : ℤ) - 1) ≤ n := by
    rw [show (length n : ℤ) - 1 = (length n - 1 : ℕ) by omega, zpow_natCast]
    exact_mod_cast hlow
  have hhigh : (n : ℝ) < 10 ^ (length n : ℤ) := by
    rw [zpow_natCast]
    exact_mod_cast hhigh
  constructor
  · rw [sub_eq_add_neg _ (places : ℤ), zpow_add₀ (by norm_num)]
    exact mul_le_mul_of_nonneg_right hlow hplace.le
  · rw [show (length n : ℤ) - 1 - places + 1 = length n + -places by ring, zpow_add₀ (by norm_num)]
    exact mul_lt_mul_of_pos_right hhigh hplace

/-- **The digits of scientific notation are the value, rounded.** -/
theorem rounds_leadingDigits (hk : k ≤ 700) (hm : m.units ≠ 0) :
    Rounds k (m.units * Binary64.unit) (leadingDigits k m) := by
  have hlength := lt_length_digits hk hm
  obtain ⟨hfirst, hlast⟩ := decade_digits hm
  obtain ⟨hlow, hhigh⟩ := divNearest_digits hk hm
  have hnearest := nearest_digits m (length (ofMagnitude m).digits - (k + 1))
  rw [leadingDigits, if_neg hm]
  have hexponent : (ofMagnitude m).exponent = -(places : ℤ) := rfl
  simp only [hexponent]
  generalize divNearest (ofMagnitude m).digits _ = n at hlow hhigh hnearest ⊢
  have hdrop : (length (ofMagnitude m).digits : ℤ) - 1 - places
      = (length (ofMagnitude m).digits - (k + 1) : ℕ) - places + k := by omega
  rw [hdrop] at hfirst hlast
  generalize length (ofMagnitude m).digits - (k + 1) = drop at hnearest hfirst hlast ⊢
  rw [← add_sub_cancel_right (drop - places : ℤ) k] at hnearest
  split
  · -- Nines are rounded up to a power of ten, with one zero more than there is place for.
    rename_i hn
    refine ⟨le_rfl, Nat.pow_lt_pow_right (by decide) (Nat.lt_succ_self k), _, n, hfirst, hlast,
      hnearest, ?_⟩
    rw [show (-(places : ℤ) + drop + k + 1 - k) = 1 + (drop - places + k - k) by ring,
      zpow_add₀ (by norm_num), hn, pow_succ]
    push_cast
    ring
  · rename_i hn
    refine ⟨hlow, lt_of_le_of_ne hhigh hn, _, n, hfirst, hlast, hnearest, ?_⟩
    rw [show (-(places : ℤ) + drop + k - k) = drop - places + k - k by ring]

/-! ### Texts -/

/-- The sign that a number is written with. -/
def signChars (x : Binary64) : List Char := if x.isNegative then ['-'] else []

/-- The decimal is the value to `k + 1` digits. Zero has no first digit, its digits are zeros. -/
inductive Leading (k : ℕ) : ℝ → Decimal → Prop
  | zero : Leading k 0 ⟨0, 0⟩
  | nonzero {v : ℝ} {d : Decimal} : Rounds k v d → Leading k v d

/-- The text is the number in scientific notation: its sign, one digit, a point, `k` digits, and the
power of ten of the first digit. -/
def IsScientific (k : ℕ) (x : Binary64) (s : String) : Prop :=
  ∃ (first : Char) (rest exponent : List Char) (d : Decimal),
    s.toList = signChars x ++ first :: '.' :: rest ++ 'e' :: exponent ∧
    Placed k d.digits [first] rest ∧ IntegerText exponent d.exponent ∧
    x.isFinite = true ∧ Leading k |x.toReal| d

/-- The text is the number with `k` places: its sign, the whole part, a point, and `k` digits.
Infinities have a name. -/
inductive IsFixed (k : ℕ) (x : Binary64) (s : String) : Prop
  | finite {n : ℕ} {whole rest : List Char} :
      s.toList = signChars x ++ whole ++ '.' :: rest → Placed k n whole rest →
      x.isFinite = true → Nearest n ((10 : ℝ) ^ (-(k : ℤ))) |x.toReal| → IsFixed k x s
  | infinite {neg : Bool} :
      s.toList = signChars x ++ ['i', 'n', 'f'] → x = .inf neg → IsFixed k x s

theorem abs_toReal_fin (neg : Bool) (m : Magnitude) :
    |(Binary64.fin neg m).toReal| = m.units * Binary64.unit := by
  have hunit := Binary64.unit_pos
  rw [Binary64.toReal, abs_mul, abs_of_pos hunit]
  cases neg <;> simp [Binary64.signed]

theorem not_rounds_zero : ¬Rounds k 0 d := by
  rintro ⟨-, -, e, -, hpos, -⟩
  exact absurd hpos (not_le.mpr (by positivity))

theorem Leading.unique {d' : Decimal} (h : Leading k v d) (h' : Leading k v d') : d = d' := by
  cases h with
  | zero =>
    cases h' with
    | zero => rfl
    | nonzero h' => exact absurd h' not_rounds_zero
  | nonzero h =>
    cases h' with
    | zero => exact absurd h not_rounds_zero
    | nonzero h' => exact h.unique h'

theorem Leading.digits_lt (h : Leading k v d) : d.digits < 10 ^ (k + 1) := by
  cases h with
  | zero => exact Nat.pow_pos (by decide)
  | nonzero h => exact h.last

theorem leading_leadingDigits (hk : k ≤ 700) (neg : Bool) (m : Magnitude) :
    Leading k |(Binary64.fin neg m).toReal| (leadingDigits k m) := by
  rw [abs_toReal_fin]
  by_cases hm : m.units = 0
  · rw [leadingDigits, if_pos hm, hm, Nat.cast_zero, zero_mul]
    exact .zero
  · exact .nonzero (rounds_leadingDigits hk hm)

/-- The text of a finite number begins with its sign. -/
theorem toList_signedText (write : Magnitude → String) (neg : Bool) (m : Magnitude) :
    (signedText write (.fin neg m)).toList = signChars (.fin neg m) ++ (write m).toList := by
  rw [signedText, String.toList_append]
  cases neg <;> rfl

/-- **Scientific notation is correctly rounded.** -/
theorem isScientific_scientific (hpos : 0 < k) (hk : k ≤ 700) (hx : x.isFinite = true) :
    IsScientific k x (scientific k x) := by
  obtain ⟨neg, m, rfl⟩ := Binary64.exists_fin hx
  have hleading := leading_leadingDigits hk neg m
  have hlt : (leadingDigits k m).digits / 10 ^ k < 10 := by
    have hdigits := hleading.digits_lt
    rw [pow_succ'] at hdigits
    exact Nat.div_lt_of_lt_mul (by rwa [mul_comm])
  obtain ⟨rest, htext, hplaced⟩ := placed_withPlaces hpos (leadingDigits k m).digits
  rw [Nat.toDigits_of_lt_base hlt] at htext hplaced
  refine ⟨_, rest, (toString (leadingDigits k m).exponent).toList, _, ?_, hplaced,
    integerText_toString _, rfl, hleading⟩
  rw [scientific, toList_signedText, String.toList_append, String.toList_append, htext]
  simp

/-- **Places are correctly rounded.** -/
theorem isFixed_fixed (hpos : 0 < k) (hk : k ≤ places) (hx : x ≠ .nan) :
    IsFixed k x (fixed k x) := by
  cases x with
  | nan => exact absurd rfl hx
  | inf neg =>
    refine .infinite ?_ rfl
    cases neg <;> simp [fixed, signedText, signChars, Binary64.isNegative]
  | fin neg m =>
    have hpower : ((places - k : ℕ) - places : ℤ) = -(k : ℤ) := by omega
    have hnearest := nearest_digits m (places - k)
    rw [hpower, ← abs_toReal_fin neg] at hnearest
    obtain ⟨rest, htext, hplaced⟩ :=
      placed_withPlaces hpos (divNearest (ofMagnitude m).digits (10 ^ (places - k)))
    refine .finite ?_ hplaced rfl hnearest
    rw [fixed, toList_signedText, htext, List.append_assoc]

/-! ### No other text -/

theorem IsScientific.unique {s s' : String} (h : IsScientific k x s) (h' : IsScientific k x s') :
    s = s' := by
  obtain ⟨_, rest, exponent, d, hs, hplaced, hexponent, -, hd⟩ := h
  obtain ⟨_, rest', exponent', d', hs', hplaced', hexponent', -, hd'⟩ := h'
  obtain rfl := hd.unique hd'
  obtain rfl := hexponent.unique hexponent'
  obtain ⟨hfirst, rfl⟩ := hplaced.unique hplaced'
  obtain ⟨rfl, -⟩ := List.cons.inj hfirst
  exact String.toList_injective (hs.trans hs'.symm)

theorem IsFixed.unique {s s' : String} (h : IsFixed k x s) (h' : IsFixed k x s') : s = s' := by
  cases h with
  | finite hs hplaced hx hnear =>
    cases h' with
    | finite hs' hplaced' _ hnear' =>
      obtain rfl := hnear.unique (by positivity) hnear'
      obtain ⟨rfl, rfl⟩ := hplaced.unique hplaced'
      exact String.toList_injective (hs.trans hs'.symm)
    | infinite _ hinf =>
      rw [hinf] at hx
      cases hx
  | infinite hs hinf =>
    cases h' with
    | finite _ _ hx _ =>
      rw [hinf] at hx
      cases hx
    | infinite hs' _ => exact String.toList_injective (hs.trans hs'.symm)

/-- **The text in scientific notation.** -/
theorem isScientific_iff (hpos : 0 < k) (hk : k ≤ 700) (hx : x.isFinite = true) {s : String} :
    IsScientific k x s ↔ s = scientific k x :=
  ⟨fun h => h.unique (isScientific_scientific hpos hk hx),
    fun h => h ▸ isScientific_scientific hpos hk hx⟩

/-- **The text with places.** -/
theorem isFixed_iff (hpos : 0 < k) (hk : k ≤ places) (hx : x ≠ .nan) {s : String} :
    IsFixed k x s ↔ s = fixed k x :=
  ⟨fun h => h.unique (isFixed_fixed hpos hk hx), fun h => h ▸ isFixed_fixed hpos hk hx⟩

end Decimal

end FriBound
