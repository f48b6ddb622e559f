import FriBound.Binary64.Elementary
import FriBound.Proofs.Range

/-!
# The rounded logarithm of a sum of powers

`log2SumExp2` takes the largest exponent out before it forms any power. So the powers lie between
zero and one and the largest is one. Their sum is at least one and at most their number, and however
long the list, it does not get beyond `2 ^ 53`: there a further summand is rounded away. The
logarithm of such a sum is finite.

This needs little of the elementary functions (`Elementary.LogLaws`), and nothing about the accuracy
of their values.

## Main definitions

* `Elementary.LogLaws` — what is asked of the power of two and of the logarithm
* `Elementary.SpecialValues`, `Elementary.SumLaws` — the part of it that the sum needs
* `Elementary.logSum` — the logarithm of a sum of powers

## Main results

* `Binary64.foldl_add_bounds` — sums of numbers between zero and one do not grow beyond `2 ^ 53`
* `Elementary.powerSum_bounds`, `Elementary.powerSum_le_length` — the sum of the powers
* `Elementary.within_logSum` — the size of the result where it is finite
* `Elementary.logSum_of_inf_mem`, `Elementary.logSum_of_nan_mem` — and when it is not
-/

namespace FriBound

namespace Binary64

variable {x y t B : Binary64}

/-! ### The largest number of a list -/

/-- The larger of a number and anything. -/
theorem larger_spec (hx : x ≠ nan) :
    larger x y ≠ nan ∧ x ≤ larger x y ∧ (y ≠ nan → y ≤ larger x y) ∧
      (larger x y = x ∨ larger x y = y) := by
  have hnan : x.isNaN = false := by
    cases x with
    | nan => exact absurd rfl hx
    | inf s => rfl
    | fin s m => rfl
  rw [larger, hnan, Bool.false_or]
  cases hlt : x.lt y with
  | false => exact ⟨hx, le_refl hx, fun hy => le_of_not_lt hx hy hlt, Or.inl rfl⟩
  | true =>
    have hy : y ≠ nan := by
      rintro rfl
      obtain ⟨a, b, ha, hb, -⟩ := lt_iff_place.mp hlt
      simp [place] at hb
    exact ⟨hy, le_of_lt hlt, fun _ => le_refl hy, Or.inr rfl⟩

/-- The largest number of a list is one of the numbers in it, or the one it started from. -/
theorem foldl_larger_spec (xs : List Binary64) (ht : t ≠ nan) :
    xs.foldl larger t ≠ nan ∧ t ≤ xs.foldl larger t ∧
      (∀ x ∈ xs, x ≠ nan → x ≤ xs.foldl larger t) ∧
      (xs.foldl larger t = t ∨ xs.foldl larger t ∈ xs) := by
  induction xs generalizing t with
  | nil => exact ⟨ht, le_refl ht, by simp, Or.inl rfl⟩
  | cons x xs ih =>
    obtain ⟨hstep, hle, hx, hor⟩ := larger_spec (y := x) ht
    obtain ⟨hne, hfrom, hall, hmem⟩ := ih hstep
    rw [List.foldl_cons]
    refine ⟨hne, le_trans hle hfrom, List.forall_mem_cons.mpr ⟨?_, hall⟩, ?_⟩
    · exact fun hxn => le_trans (hx hxn) hfrom
    · rcases hmem with hmem | hmem
      · rw [hmem]
        rcases hor with hor | hor
        · exact Or.inl hor
        · rw [hor]
          exact Or.inr (List.mem_cons_self ..)
      · exact Or.inr (List.mem_cons_of_mem _ hmem)

/-! ### Sums of numbers between zero and one -/

/-- What a running sum starts with. -/
theorem zero_le_neg_zero : zero false ≤ -ofInt 0 := by
  rw [ofInt_zero]
  exact zero_le_iff_place.mpr ⟨0, place_zero _, Int.le_refl 0⟩

theorem neg_zero_le : -ofInt 0 ≤ ofInt 0 := by
  rw [ofInt_zero]
  exact le_zero_iff_place.mpr ⟨0, place_zero _, Int.le_refl 0⟩

/-- A sum of `2 ^ 53` stays where it is. -/
theorem add_bounds (ht : zero false ≤ t) (ht' : t ≤ ofInt (2 ^ 53)) (hy : zero false ≤ y)
    (hy' : y ≤ ofInt 1) : t ≤ t + y ∧ y ≤ t + y ∧ t + y ≤ ofInt (2 ^ 53) := by
  have hzero : (zero false).isFinite = true := rfl
  have hone := isFinite_one
  have htop : (ofInt (2 ^ 53)).isFinite = true := isFinite_two_pow (by decide)
  have hfull : ofInt (2 ^ 53) + ofInt 1 = ofInt (2 ^ 53) := by decide +kernel
  have htfin := isFinite_of_le_of_le ht ht' hzero htop
  have hyfin := isFinite_of_le_of_le hy hy' hzero hone
  exact ⟨(le_add_of_nonneg htfin hyfin hy).1, (le_add_of_nonneg hyfin htfin ht).2,
    hfull ▸ add_le_add ht' hy' ⟨htfin, hyfin⟩ ⟨htop, hone⟩⟩

/-- **A running sum of numbers between zero and one** does not fall, is not below any of them, and
does not get beyond `2 ^ 53`. -/
theorem foldl_add_bounds {ys : List Binary64} (ht : zero false ≤ t) (ht' : t ≤ ofInt (2 ^ 53))
    (hys : ∀ y ∈ ys, zero false ≤ y ∧ y ≤ ofInt 1) :
    t ≤ ys.foldl (· + ·) t ∧ (∀ y ∈ ys, y ≤ ys.foldl (· + ·) t) ∧
      ys.foldl (· + ·) t ≤ ofInt (2 ^ 53) := by
  induction ys generalizing t with
  | nil => exact ⟨le_refl (by rintro rfl; simp [le_iff_place, place] at ht'), by simp, ht'⟩
  | cons y ys ih =>
    obtain ⟨⟨hy, hy'⟩, hys⟩ := List.forall_mem_cons.mp hys
    obtain ⟨hle, hyle, htop⟩ := add_bounds ht ht' hy hy'
    obtain ⟨hfrom, hall, hend⟩ := ih (le_trans ht hle) htop hys
    rw [List.foldl_cons]
    exact ⟨le_trans hle hfrom, List.forall_mem_cons.mpr ⟨le_trans hyle hfrom, hall⟩, hend⟩

theorem ofInt_add_one_le {n : Nat} (h : n ≤ 2 ^ 53) : ofInt n + ofInt 1 ≤ ofInt (n + 1 : Nat) := by
  have hfin : (ofInt n).isFinite = true := Within.isFinite (e := 53) (Within.ofInt h) (by decide)
  have hplace := place_add hfin isFinite_one (place_ofInt_of_short h) place_one
  have hsum : (n * unitsPerOne + unitsPerOne : Int) = (n + 1 : Nat) * unitsPerOne := by
    rw [Int.natCast_add, Int.add_mul, Int.natCast_one, Int.one_mul]
  rw [hsum] at hplace
  exact le_iff_place.mpr ⟨_, _, hplace, place_ofInt _, Int.le_refl _⟩

/-- Each summand adds one at most, as long as the numbers of summands are exact. -/
theorem foldl_add_le_ofInt {ys : List Binary64} {n : Nat} (ht : zero false ≤ t)
    (ht' : t ≤ ofInt n) (hys : ∀ y ∈ ys, zero false ≤ y ∧ y ≤ ofInt 1)
    (hn : n + ys.length ≤ 2 ^ 53) : ys.foldl (· + ·) t ≤ ofInt (n + ys.length : Nat) := by
  induction ys generalizing t n with
  | nil => exact ht'
  | cons y ys ih =>
    obtain ⟨⟨hy, hy'⟩, hys⟩ := List.forall_mem_cons.mp hys
    rw [List.length_cons] at hn ⊢
    have hnfin : (ofInt n).isFinite = true :=
      Within.isFinite (e := 53) (Within.ofInt (by omega)) (by decide)
    have htfin := isFinite_of_le_of_le ht ht' rfl hnfin
    have hyfin := isFinite_of_le_of_le hy hy' rfl isFinite_one
    have hstep : t + y ≤ ofInt (n + 1 : Nat) :=
      le_trans (add_le_add ht' hy' ⟨htfin, hyfin⟩ ⟨hnfin, isFinite_one⟩)
        (ofInt_add_one_le (by omega))
    have hrest := ih (le_trans ht (le_add_of_nonneg htfin hyfin hy).1) hstep hys (by omega)
    rwa [Nat.add_assoc, Nat.add_comm 1] at hrest

@[simp] theorem nan_add (x : Binary64) : nan + x = nan := by
  show add _ _ = _
  rw [add]

@[simp] theorem add_nan (x : Binary64) : x + nan = nan := by
  show add _ _ = _
  cases x <;> rfl

theorem foldl_add_of_nan_mem {ys : List Binary64} (h : t = nan ∨ nan ∈ ys) :
    ys.foldl (· + ·) t = nan := by
  induction ys generalizing t with
  | nil => simpa using h
  | cons y ys ih =>
    rw [List.foldl_cons]
    rcases h with rfl | h
    · exact ih (Or.inl (nan_add y))
    · rcases List.mem_cons.mp h with rfl | h
      · exact ih (Or.inl (add_nan t))
      · exact ih (Or.inr h)

/-! ### Distances to the largest -/

theorem sub_self (hx : x.isFinite = true) : x - x = zero false := by
  obtain ⟨s, x, rfl⟩ := exists_fin hx
  show fin s x + fin (!s) x = _
  rw [fin_add_fin, ofSum, signed_not, if_pos (by omega)]
  cases s <;> rfl

/-- A finite number takes an infinite one nowhere. -/
theorem inf_add (s : Bool) (hx : x.isFinite = true) : inf s + x = inf s := by
  obtain ⟨t, x, rfl⟩ := exists_fin hx
  show add _ _ = _
  rw [add]

theorem inf_add_neg_inf : inf false + inf true = nan := by
  show add _ _ = _
  rw [add, if_neg Bool.false_ne_true]

theorem add_inf (s : Bool) (hx : x.isFinite = true) : x + inf s = inf s := by
  obtain ⟨t, x, rfl⟩ := exists_fin hx
  show add _ _ = _
  rw [add]

theorem isFinite_neg : (-x).isFinite = x.isFinite := by
  show x.neg.isFinite = _
  cases x <;> rfl

theorem inf_sub (s : Bool) (hx : x.isFinite = true) : inf s - x = inf s :=
  inf_add s (isFinite_neg.trans hx)

theorem sub_nonpos (hx : x ≤ t) (ht : t.isFinite = true) : x - t ≤ zero false := by
  obtain ⟨u, t, rfl⟩ := exists_fin ht
  obtain ⟨a, b, ha, hb, hab⟩ := le_iff_place.mp hx
  rw [place_fin, Option.some.injEq] at hb
  cases x with
  | nan => simp [place] at ha
  | inf s =>
    cases s with
    | true =>
      rw [inf_sub true rfl]
      exact le_zero_iff_place.mpr ⟨_, rfl, by simp⟩
    | false =>
      rw [place, Option.some.injEq] at ha
      have hlt := natAbs_signed u t ▸ t.small
      simp at ha
      omega
  | fin s x =>
    show fin s x + fin (!u) t ≤ _
    rw [place_fin, Option.some.injEq] at ha
    refine le_zero_iff_place.mpr ⟨_, place_fin_add_fin .., roundPlace_nonpos 1 ?_⟩
    rw [signed_not]
    omega

end Binary64

/-! ### The logarithm of a sum of powers -/

/-- What is asked of the power of two and of the logarithm. -/
structure Elementary.LogLaws (E : Elementary) : Prop where
  /-- The logarithm of a positive number is at most `1074` in size. -/
  abs_log2_le : ∀ x : Binary64, x.isFinite = true → (Binary64.zero false).lt x = true →
    (E.log2 x).abs ≤ .ofInt 1074
  log2_inf : E.log2 (.inf false) = .inf false
  log2_nan : E.log2 .nan = .nan
  exp2_zero : E.exp2 (.zero false) = .ofInt 1
  exp2_nan : E.exp2 .nan = .nan
  /-- A power lies between zero and one if its exponent is not positive. The exponent may be minus
  infinity. -/
  exp2_bounds : ∀ x : Binary64, x ≤ .zero false →
    .zero false ≤ E.exp2 x ∧ E.exp2 x ≤ .ofInt 1

/-- Of these laws, those for zero and for what is not a number. -/
structure Elementary.SpecialValues (E : Elementary) : Prop where
  exp2_zero : E.exp2 (.zero false) = .ofInt 1
  exp2_nan : E.exp2 .nan = .nan
  log2_nan : E.log2 .nan = .nan

/-- Of these laws, what the sum of the powers needs. -/
structure Elementary.SumLaws (E : Elementary) : Prop extends SpecialValues E where
  exp2_bounds : ∀ x : Binary64, x ≤ .zero false →
    .zero false ≤ E.exp2 x ∧ E.exp2 x ≤ .ofInt 1

theorem Elementary.LogLaws.sumLaws {E : Elementary} (h : E.LogLaws) : E.SumLaws where
  exp2_zero := h.exp2_zero
  exp2_nan := h.exp2_nan
  log2_nan := h.log2_nan
  exp2_bounds := h.exp2_bounds

namespace Elementary

open Binary64

variable (E : Elementary)

/-- The logarithm of the sum of the powers `2 ^ x`. -/
abbrev logSum (xs : List Binary64) : Binary64 :=
  letI := E.scalar; Scalar.log2SumExp2 xs

/-- The sum of the powers with the exponents `x - t`. -/
def powerSum (t : Binary64) (xs : List Binary64) : Binary64 :=
  (xs.map fun x => E.exp2 (x - t)).foldl (· + ·) (-ofInt 0)

variable {E} {xs : List Binary64} {t B : Binary64}

theorem logSum_of_isFinite (ht : xs.foldl larger (inf true) = t) (hfin : t.isFinite = true) :
    E.logSum xs = t + E.log2 (E.powerSum t xs) := by
  subst ht
  exact if_pos hfin

theorem logSum_of_not_finite (ht : xs.foldl larger (inf true) = t) (hfin : t.isFinite = false) :
    E.logSum xs = t := by
  subst ht
  exact if_neg (by simp [Scalar.isFinite, Scalar.largest, Scalar.negInf, Scalar.larger, hfin])

theorem logSum_nil : E.logSum [] = inf true := logSum_of_not_finite rfl rfl

/-- The largest of numbers below plus infinity is finite if one of them is. -/
theorem exists_largest (hxs : ∀ x ∈ xs, x ≠ inf false) (hex : ∃ x ∈ xs, x.isFinite = true) :
    ∃ t ∈ xs, xs.foldl larger (inf true) = t ∧ t.isFinite = true ∧ ∀ x ∈ xs, x ≠ nan → x ≤ t := by
  obtain ⟨hne, -, hall, hmem⟩ := foldl_larger_spec xs (t := inf true) (by simp)
  generalize xs.foldl larger (inf true) = t at hne hall hmem
  obtain ⟨x, hx, hfin⟩ := hex
  have htrue : t ≠ inf true := by
    rintro rfl
    have hxn : x ≠ nan := by
      rintro rfl
      exact Bool.false_ne_true hfin
    rw [eq_of_le_inf (hall x hx hxn)] at hfin
    exact Bool.false_ne_true hfin
  have ht : t ∈ xs := hmem.resolve_left htrue
  refine ⟨t, ht, rfl, ?_, hall⟩
  cases t with
  | nan => exact absurd rfl hne
  | inf s =>
    cases s with
    | true => exact absurd rfl htrue
    | false => exact absurd rfl (hxs _ ht)
  | fin s t => rfl

/-- Relative to the largest exponent, the powers lie between zero and one. -/
theorem SumLaws.power_bounds (h : E.SumLaws) (hfin : t.isFinite = true) (hxs : ∀ x ∈ xs, x ≤ t) :
    ∀ y ∈ xs.map fun x => E.exp2 (x - t), zero false ≤ y ∧ y ≤ ofInt 1 := by
  intro y hy
  obtain ⟨x, hx, rfl⟩ := List.mem_map.mp hy
  exact h.exp2_bounds _ (sub_nonpos (hxs x hx) hfin)

/-- And they add up to at least one. -/
theorem powerSum_bounds (h : E.SumLaws) (ht : t ∈ xs) (hfin : t.isFinite = true)
    (hxs : ∀ x ∈ xs, x ≤ t) : ofInt 1 ≤ E.powerSum t xs ∧ E.powerSum t xs ≤ ofInt (2 ^ 53) := by
  have hone : E.exp2 (t - t) = ofInt 1 := by rw [sub_self hfin, h.exp2_zero]
  obtain ⟨-, hall, htop⟩ := foldl_add_bounds zero_le_neg_zero
    (le_trans neg_zero_le (ofInt_le_ofInt (by decide))) (h.power_bounds hfin hxs)
  exact ⟨hone ▸ hall _ (List.mem_map_of_mem ht), htop⟩

/-- The sum is at most the number of powers, rounded. -/
theorem powerSum_le_length (h : E.SumLaws) (ht : t ∈ xs) (hfin : t.isFinite = true)
    (hxs : ∀ x ∈ xs, x ≤ t) : E.powerSum t xs ≤ ofInt xs.length := by
  rcases Nat.lt_or_ge (2 ^ 53) xs.length with hlong | hshort
  · exact le_trans (powerSum_bounds h ht hfin hxs).2 (ofInt_le_ofInt (by omega))
  · have hsum := foldl_add_le_ofInt (n := 0) zero_le_neg_zero neg_zero_le (h.power_bounds hfin hxs)
      (by rw [List.length_map]; omega)
    rwa [List.length_map, Nat.zero_add] at hsum

theorem LogLaws.within_log2 (h : E.LogLaws) (hfin : t.isFinite = true)
    (hpos : (zero false).lt t = true) : Within 11 (E.log2 t) :=
  within_of_abs_le (le_trans (h.abs_log2_le t hfin hpos) (ofInt_le_ofInt (by decide))) (by decide)

/-- **The size of the logarithm of a sum of powers.** Exponents of bounded size, next to some that
are minus infinity, give a result of bounded size. -/
theorem within_logSum (h : E.LogLaws) {e : Nat} (he : 11 ≤ e ∧ e < 1023)
    (hxs : ∀ x ∈ xs, x = inf true ∨ Within e x) (hex : ∃ x ∈ xs, Within e x) :
    Within (e + 1) (E.logSum xs) := by
  have hfin : ∀ {x : Binary64}, Within e x → x.isFinite = true := by
    intro x hx
    exact hx.isFinite (by omega)
  have hnot : ∀ x ∈ xs, x ≠ inf false ∧ x ≠ nan := by
    intro x hx
    rcases hxs x hx with rfl | hle
    · simp
    · constructor <;> rintro rfl <;> exact absurd (hfin hle) Bool.false_ne_true
  obtain ⟨y, hy, hyB⟩ := hex
  obtain ⟨t, ht, htop, htfin, hall⟩ :=
    exists_largest (fun x hx => (hnot x hx).1) ⟨y, hy, hfin hyB⟩
  have htB : Within e t := by
    rcases hxs t ht with rfl | hle
    · exact absurd htfin Bool.false_ne_true
    · exact hle
  have htwo : (ofInt (2 ^ 53)).isFinite = true := isFinite_two_pow (by decide)
  obtain ⟨hlow, hhigh⟩ := powerSum_bounds h.sumLaws ht htfin fun x hx => hall x hx (hnot x hx).2
  have hsum := isFinite_of_le_of_le hlow hhigh isFinite_one htwo
  rw [logSum_of_isFinite htop htfin]
  exact htB.add (h.within_log2 hsum (lt_of_lt_of_le one_pos hlow)) (by omega)

theorem logSum_of_inf_mem (h : inf false ∈ xs) : E.logSum xs = inf false := by
  obtain ⟨hne, -, hall, -⟩ := foldl_larger_spec xs (t := inf true) (by simp)
  exact logSum_of_not_finite (eq_of_inf_le (hall _ h (by simp))) rfl

theorem logSum_of_nan_mem (h : E.SpecialValues) (hnan : nan ∈ xs) (hxs : ∀ x ∈ xs, x ≠ inf false)
    (hex : ∃ x ∈ xs, x.isFinite = true) : E.logSum xs = nan := by
  obtain ⟨t, -, ht, hfin, -⟩ := exists_largest hxs hex
  have hpow : nan ∈ xs.map fun x => E.exp2 (x - t) := by
    refine List.mem_map.mpr ⟨nan, hnan, ?_⟩
    show E.exp2 (nan + -t) = nan
    rw [nan_add, h.exp2_nan]
  rw [logSum_of_isFinite ht hfin, powerSum, foldl_add_of_nan_mem (Or.inr hpow), h.log2_nan, add_nan]

end Elementary

end FriBound
