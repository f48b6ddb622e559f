import FriBound.Decimal.Basic
import FriBound.Proofs.Numerals

/-!
# The digits of a number that is written

The readers take any digits, and any number of zeros in front of them. What is written is one text
for each number: before the point there is no zero that could be left out, and after it there are as
many digits as were asked for. Said so, without the writer, the text is still determined, because
digits of a given length have one value each.

## Main definitions

* `PlainDigits` — digits with no zero in front of them
* `IntegerText` — whole numbers of either sign
* `Placed` — the digits before the point and those after it

## Main results

* `integerText_toString`, `Decimal.placed_withPlaces` — what is written
* `Placed.unique`, `IntegerText.unique` — there is only one such text
-/

namespace FriBound

variable {cs ds whole places : List Char} {k n : ℕ} {z : ℤ}

/-- The text is digits that stand for `n`, without a zero in front of another digit. -/
structure PlainDigits (cs : List Char) (n : ℕ) : Prop where
  digits : DigitString cs n
  first : cs.head? = some '0' → cs = ['0']

/-- The text is the whole number `z`, with a sign only if it is negative. -/
def IntegerText (cs : List Char) (z : ℤ) : Prop :=
  ∃ ds, PlainDigits ds z.natAbs ∧ cs = if z < 0 then '-' :: ds else ds

/-- The digits before the point and the `k` digits after it stand for `n` units of the last place.
No zero is in front of another digit before the point, and there is one digit at least. -/
structure Placed (k n : ℕ) (whole places : List Char) : Prop where
  digits : DigitString (whole ++ places) n
  ne_nil : whole ≠ []
  first : whole.head? = some '0' → whole = ['0']
  length_eq : places.length = k

/-! ### Values -/

theorem digitsValue_eq_ofDigitChars (cs : List Char) :
    digitsValue cs = Nat.ofDigitChars 10 cs 0 := by
  induction cs with
  | nil => rfl
  | cons c cs ih =>
    rw [digitsValue_cons, Nat.ofDigitChars_cons, Nat.ofDigitChars_eq_ofDigitChars_zero, ih,
      Nat.mul_zero, Nat.zero_add, Nat.mul_comm]

theorem digitsValue_append (cs ds : List Char) :
    digitsValue (cs ++ ds) = digitsValue cs * 10 ^ ds.length + digitsValue ds := by
  simp only [digitsValue_eq_ofDigitChars]
  rw [Nat.ofDigitChars_append, Nat.ofDigitChars_eq_ofDigitChars_zero, Nat.mul_comm]

theorem toNat_sub_lt {c : Char} (h : c.isDigit = true) : c.toNat - '0'.toNat < 10 := by
  simp only [Char.isDigit, Bool.and_eq_true, decide_eq_true_eq] at h
  have hle : c.toNat ≤ '9'.toNat := h.2
  simp only [show '9'.toNat = 57 by decide, show '0'.toNat = 48 by decide] at hle ⊢
  omega

theorem digitChar_toNat_sub {c : Char} (h : c.isDigit = true) :
    (c.toNat - '0'.toNat).digitChar = c := by
  have hzero : '0'.toNat ≤ c.toNat := zero_le_digit h
  refine Char.toNat_inj.mp ?_
  rw [Nat.toNat_digitChar_of_lt_ten (toNat_sub_lt h)]
  exact Nat.add_sub_cancel' hzero

/-- The values of the digits, from the last one on. -/
def digitValues (cs : List Char) : List ℕ := cs.reverse.map fun c => c.toNat - '0'.toNat

theorem lt_ten_of_mem_digitValues (h : ∀ c ∈ cs, c.isDigit = true) :
    ∀ d ∈ digitValues cs, d < 10 := by
  intro d hd
  obtain ⟨c, hc, rfl⟩ := List.mem_map.mp hd
  exact toNat_sub_lt (h c (List.mem_reverse.mp hc))

/-- Digits are determined by their values. -/
theorem map_digitValues (h : ∀ c ∈ cs, c.isDigit = true) :
    (digitValues cs).map Nat.digitChar = cs.reverse := by
  rw [digitValues, List.map_map]
  refine (List.map_congr_left fun c hc => ?_).trans (List.map_id _)
  exact digitChar_toNat_sub (h c (List.mem_reverse.mp hc))

theorem digitsValue_lt (h : ∀ c ∈ cs, c.isDigit = true) : digitsValue cs < 10 ^ cs.length := by
  have hlt : digitsValue cs < 10 ^ (digitValues cs).length :=
    Nat.ofDigits_lt_base_pow_length (by decide) (lt_ten_of_mem_digitValues h)
  rwa [digitValues, List.length_map, List.length_reverse] at hlt

theorem eq_of_digitValues_eq (hcs : ∀ c ∈ cs, c.isDigit = true) (hds : ∀ c ∈ ds, c.isDigit = true)
    (h : digitValues cs = digitValues ds) : cs = ds := by
  have hmap := congrArg (List.map Nat.digitChar) h
  rw [map_digitValues hcs, map_digitValues hds] at hmap
  exact List.reverse_inj.mp hmap

/-- Digits that are equally many are determined by the number they stand for. -/
theorem eq_of_digitsValue_eq (hlength : cs.length = ds.length)
    (hcs : ∀ c ∈ cs, c.isDigit = true) (hds : ∀ c ∈ ds, c.isDigit = true)
    (h : digitsValue cs = digitsValue ds) : cs = ds := by
  refine eq_of_digitValues_eq hcs hds (Nat.ofDigits_inj_of_len_eq (by decide) ?_
    (lt_ten_of_mem_digitValues hcs) (lt_ten_of_mem_digitValues hds) h)
  simpa [digitValues] using hlength

/-! ### Only one text -/

/-- Without zeros in front, digits are those of the decimal system. -/
theorem PlainDigits.digitValues_eq (h : PlainDigits cs n) (hne : cs ≠ ['0']) :
    digitValues cs = Nat.digits 10 n := by
  rw [h.digits.value_eq]
  refine (Nat.digits_ofDigits 10 (by decide) _ (lt_ten_of_mem_digitValues h.digits.isDigit)
    fun hnil => ?_).symm
  obtain ⟨c, ds, rfl⟩ := List.exists_cons_of_ne_nil h.digits.ne_nil
  have hc : c.isDigit = true := h.digits.isDigit c List.mem_cons_self
  have hzero : c ≠ '0' := fun hc => hne (h.first (congrArg some hc))
  simp only [digitValues, List.reverse_cons, List.map_append, List.map_cons, List.map_nil,
    List.getLast_concat]
  intro heq
  have hchar := digitChar_toNat_sub hc
  rw [heq] at hchar
  exact hzero hchar.symm

theorem PlainDigits.unique (h : PlainDigits cs n) (h' : PlainDigits ds n) : cs = ds := by
  -- Zero has no digits in the decimal system, but one that is written.
  have hzero : ∀ {as bs : List Char}, PlainDigits as n → PlainDigits bs n → as = ['0'] →
      bs = ['0'] := by
    rintro as bs has hbs rfl
    by_contra hne
    have hvalues := hbs.digitValues_eq hne
    rw [has.digits.value_eq, show digitsValue ['0'] = 0 by decide, Nat.digits_zero] at hvalues
    exact hbs.digits.ne_nil (by simpa [digitValues] using hvalues)
  by_cases hcs : cs = ['0']
  · rw [hcs, hzero h h' hcs]
  by_cases hds : ds = ['0']
  · rw [hds, hzero h' h hds]
  exact eq_of_digitValues_eq h.digits.isDigit h'.digits.isDigit
    ((h.digitValues_eq hcs).trans (h'.digitValues_eq hds).symm)

theorem IntegerText.unique (h : IntegerText cs z) (h' : IntegerText ds z) : cs = ds := by
  obtain ⟨as, has, rfl⟩ := h
  obtain ⟨bs, hbs, rfl⟩ := h'
  rw [has.unique hbs]

theorem Placed.value_eq (h : Placed k n whole places) :
    n = digitsValue whole * 10 ^ k + digitsValue places := by
  rw [h.digits.value_eq, digitsValue_append, h.length_eq]

theorem Placed.digitsValue_places_lt (h : Placed k n whole places) :
    digitsValue places < 10 ^ k := by
  rw [← h.length_eq]
  exact digitsValue_lt fun c hc => h.digits.isDigit c (List.mem_append_right _ hc)

/-- The digits before the point are the whole part. -/
theorem Placed.plainDigits (h : Placed k n whole places) : PlainDigits whole (n / 10 ^ k) where
  digits := {
    ne_nil := h.ne_nil
    isDigit := fun c hc => h.digits.isDigit c (List.mem_append_left _ hc)
    value_eq := by
      rw [h.value_eq, Nat.mul_comm, Nat.mul_add_div (Nat.pow_pos (by decide)),
        Nat.div_eq_of_lt h.digitsValue_places_lt, Nat.add_zero] }
  first := h.first

/-- **Only one text** has so many places and stands for the number. -/
theorem Placed.unique {whole' places' : List Char} (h : Placed k n whole places)
    (h' : Placed k n whole' places') : whole = whole' ∧ places = places' := by
  have hwhole : whole = whole' := h.plainDigits.unique h'.plainDigits
  refine ⟨hwhole, eq_of_digitsValue_eq (h.length_eq.trans h'.length_eq.symm)
    (fun c hc => h.digits.isDigit c (List.mem_append_right _ hc))
    (fun c hc => h'.digits.isDigit c (List.mem_append_right _ hc)) ?_⟩
  have hvalue := h.value_eq.symm.trans h'.value_eq
  rw [hwhole] at hvalue
  exact Nat.add_left_cancel hvalue

/-! ### What is written -/

theorem digitString_toDigits (n : ℕ) : DigitString (Nat.toDigits 10 n) n where
  ne_nil := Nat.toDigits_ne_nil
  isDigit := fun _ => Nat.isDigit_of_mem_toDigits (by decide) (by decide)
  value_eq := by rw [digitsValue_eq_ofDigitChars, Nat.ofDigitChars_ten_toDigits]

/-- A number from ten on is written as its tens and one digit more. -/
theorem plainDigits_toDigits (n : ℕ) : PlainDigits (Nat.toDigits 10 n) n := by
  refine ⟨digitString_toDigits n, ?_⟩
  induction n using Nat.strongRecOn with
  | ind n ih =>
    intro hfirst
    rw [Nat.toDigits_eq_if (by decide)] at hfirst ⊢
    split at hfirst
    · rename_i hlt
      rw [if_pos hlt]
      exact congrArg (fun c => [c]) (Option.some.inj hfirst)
    · rename_i hle
      rw [List.head?_append, List.head?_eq_some_head Nat.toDigits_ne_nil, Option.some_or,
        ← List.head?_eq_some_head] at hfirst
      have hten := (digitString_toDigits (n / 10)).value_eq
      rw [ih (n / 10) (by omega) hfirst, show digitsValue ['0'] = 0 by decide] at hten
      omega

theorem integerText_toString (z : ℤ) : IntegerText (toString z).toList z := by
  refine ⟨Nat.toDigits 10 z.natAbs, plainDigits_toDigits _, ?_⟩
  cases z with
  | ofNat m =>
    rw [if_neg (show ¬Int.ofNat m < 0 from Int.not_lt.mpr (Int.natCast_nonneg m))]
    exact Nat.toList_repr
  | negSucc m =>
    rw [if_pos (Int.negSucc_lt_zero m)]
    show ("-" ++ Nat.repr (m + 1)).toList = _
    rw [String.toList_append, Nat.toList_repr]
    rfl

namespace Decimal

theorem toList_padded (k n : ℕ) :
    (padded k n).toList = List.replicate (k - length n) '0' ++ Nat.toDigits 10 n := by
  rw [padded, String.toList_append, String.toList_ofList, Nat.toString_eq_repr, Nat.toList_repr]

theorem length_padded (hk : 0 < k) (h : n < 10 ^ k) : (padded k n).toList.length = k := by
  have hlength : length n ≤ k := (Nat.length_toDigits_le_iff (by decide) hk).mpr h
  rw [toList_padded, List.length_append, List.length_replicate]
  exact Nat.sub_add_cancel hlength

/-- Zeros in front change nothing. -/
theorem digitString_padded (k n : ℕ) : DigitString (padded k n).toList n := by
  have hdigits := digitString_toDigits n
  rw [toList_padded]
  refine ⟨List.append_ne_nil_of_right_ne_nil _ hdigits.ne_nil, fun c hc => ?_, ?_⟩
  · rcases List.mem_append.mp hc with hc | hc
    · rw [List.eq_of_mem_replicate hc]
      rfl
    · exact hdigits.isDigit c hc
  · rw [digitsValue_eq_ofDigitChars, Nat.ofDigitChars_append, Nat.ofDigitChars_replicate_zero,
      Nat.mul_zero, Nat.ofDigitChars_ten_toDigits]

/-- **A number is written with its places.** -/
theorem placed_withPlaces (hk : 0 < k) (n : ℕ) : ∃ places,
    (withPlaces n k).toList = Nat.toDigits 10 (n / 10 ^ k) ++ '.' :: places ∧
      Placed k n (Nat.toDigits 10 (n / 10 ^ k)) places := by
  have hplain := plainDigits_toDigits (n / 10 ^ k)
  have hdigits := digitString_padded k (n % 10 ^ k)
  have hlength := length_padded hk (Nat.mod_lt n (Nat.pow_pos (by decide)))
  refine ⟨(padded k (n % 10 ^ k)).toList, ?_, ?_⟩
  · rw [withPlaces, if_neg hk.ne', String.toList_append, String.toList_append,
      Nat.toString_eq_repr, Nat.toList_repr]
    rfl
  · exact {
      digits := {
        ne_nil := List.append_ne_nil_of_left_ne_nil hplain.digits.ne_nil _
        isDigit := fun c hc =>
          (List.mem_append.mp hc).elim (hplain.digits.isDigit c) (hdigits.isDigit c)
        value_eq := by
          rw [digitsValue_append, hlength, ← hplain.digits.value_eq, ← hdigits.value_eq,
            Nat.div_add_mod'] }
      ne_nil := hplain.digits.ne_nil
      first := hplain.first
      length_eq := hlength }

end Decimal

end FriBound
