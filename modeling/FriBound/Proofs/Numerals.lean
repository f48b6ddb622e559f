import FriBound.Numeral
import Mathlib.Data.Nat.Digits.Defs
import Mathlib.Tactic.Ring

/-!
# The notation of whole numbers

What a reader of whole numbers accepts, said without the reader: an optional sign and one or more
decimal digits, with the value that the digits have in the decimal system. The reader goes from
digit to digit and stops where the value leaves the range. Digits only lead away from zero, so it
stops exactly when the whole value is out of the range, however many zeros stand in front.

## Main definitions

* `digitsValue`, `DigitString` — a text of digits and its value
* `Numeral`, `SignedNumeral` — with a sign before it, and with a sign of either kind

## Main results

* `WordRange.readDigits_eq_ok_iff` — the reader of digits, from any value on
* `WordRange.read_int32_eq_ok_iff`, `WordRange.read_uint64_eq_ok_iff` — the readers of words
-/

namespace FriBound

/-- What a text of decimal digits stands for. -/
def digitsValue (cs : List Char) : Nat :=
  Nat.ofDigits 10 (cs.reverse.map fun c => c.toNat - '0'.toNat)

/-- The text is one or more decimal digits that stand for `n`. -/
structure DigitString (cs : List Char) (n : Nat) : Prop where
  ne_nil : cs ≠ []
  isDigit : ∀ c ∈ cs, c.isDigit = true
  value_eq : n = digitsValue cs

/-- The text is an optional plus sign and digits that stand for `n`. -/
inductive Numeral : List Char → Nat → Prop
  | bare {cs : List Char} {n : Nat} : DigitString cs n → Numeral cs n
  | plus {cs : List Char} {n : Nat} : DigitString cs n → Numeral ('+' :: cs) n

/-- The text is an optional sign and digits, and it stands for `z`. -/
inductive SignedNumeral : List Char → Int → Prop
  | unsigned {cs : List Char} {n : Nat} : Numeral cs n → SignedNumeral cs n
  | minus {cs : List Char} {n : Nat} : DigitString cs n → SignedNumeral ('-' :: cs) (-n)

/-! ### Digits -/

@[simp] theorem digitsValue_nil : digitsValue [] = 0 := rfl

theorem digitsValue_cons (c : Char) (cs : List Char) :
    digitsValue (c :: cs) = (c.toNat - '0'.toNat) * 10 ^ cs.length + digitsValue cs := by
  rw [digitsValue, List.reverse_cons, List.map_append, Nat.ofDigits_append]
  simp [digitsValue, Nat.add_comm, Nat.mul_comm]

theorem zero_le_digit {c : Char} (h : c.isDigit = true) : '0'.toNat ≤ c.toNat := by
  simp only [Char.isDigit, Bool.and_eq_true, decide_eq_true_eq] at h
  exact h.1

theorem DigitString.not_sign {c : Char} {cs : List Char} {n : Nat} (h : DigitString (c :: cs) n) :
    c ≠ '+' ∧ c ≠ '-' := by
  have hc := h.isDigit c List.mem_cons_self
  constructor
  · rintro rfl
    simp at hc
  · rintro rfl
    simp at hc

theorem not_digitString_nil {n : Nat} : ¬DigitString [] n := fun h => h.ne_nil rfl

theorem not_numeral_nil {n : Nat} : ¬Numeral [] n := by
  rintro ⟨h⟩
  exact not_digitString_nil h

theorem numeral_plus_iff {cs : List Char} {n : Nat} : Numeral ('+' :: cs) n ↔ DigitString cs n := by
  constructor
  · intro h
    cases h with
    | bare h => exact absurd rfl h.not_sign.1
    | plus h => exact h
  · exact .plus

theorem not_numeral_minus {cs : List Char} {n : Nat} : ¬Numeral ('-' :: cs) n := by
  rintro ⟨h⟩
  exact h.not_sign.2 rfl

theorem numeral_bare_iff {c : Char} {cs : List Char} {n : Nat} (hc : c ≠ '+') :
    Numeral (c :: cs) n ↔ DigitString (c :: cs) n := by
  constructor
  · intro h
    cases h with
    | bare h => exact h
    | plus h => exact absurd rfl hc
  · exact .bare

theorem signedNumeral_iff {cs : List Char} {z : Int} : SignedNumeral cs z ↔
    (∃ n : Nat, Numeral cs n ∧ z = n) ∨ ∃ ds n, cs = '-' :: ds ∧ DigitString ds n ∧ z = -n := by
  constructor
  · intro h
    cases h with
    | unsigned h => exact .inl ⟨_, h, rfl⟩
    | minus h => exact .inr ⟨_, _, rfl, h, rfl⟩
  · rintro (⟨n, h, rfl⟩ | ⟨ds, n, rfl, h, rfl⟩)
    · exact .unsigned h
    · exact .minus h

/-- A whole number of the given sign. -/
def signedNat (neg : Bool) (n : Nat) : Int := if neg then -n else n

theorem signedNat_step (neg : Bool) (a d : Nat) :
    10 * signedNat neg a + (if neg then -(d : Int) else d) = signedNat neg (10 * a + d) := by
  cases neg with
  | false => simp [signedNat]
  | true =>
    simp only [signedNat, if_true]
    omega

namespace WordRange

instance : Membership Int WordRange := ⟨fun r z => r.least ≤ z ∧ z ≤ r.greatest⟩

theorem mem_iff {r : WordRange} {z : Int} : z ∈ r ↔ r.least ≤ z ∧ z ≤ r.greatest := Iff.rfl

variable {r : WordRange} {neg : Bool} {c : Char} {cs : List Char} {z : Int} {a b : Nat}

/-- Digits only lead away from zero, so what has left the range stays outside. -/
theorem signedNat_mem_of_le (h : 0 ∈ r) (hab : a ≤ b) (hb : signedNat neg b ∈ r) :
    signedNat neg a ∈ r := by
  rw [mem_iff] at h hb ⊢
  cases neg with
  | false =>
    simp only [signedNat, Bool.false_eq_true, if_false] at hb ⊢
    omega
  | true =>
    simp only [signedNat, if_true] at hb ⊢
    omega

/-! ### The reader, digit by digit -/

theorem readDigits_cons (hc : c.isDigit = true) :
    r.readDigits neg (signedNat neg a) (c :: cs) =
      if signedNat neg (10 * a + (c.toNat - '0'.toNat)) < r.least then .error .tooSmall
      else if r.greatest < signedNat neg (10 * a + (c.toNat - '0'.toNat)) then .error .tooLarge
      else r.readDigits neg (signedNat neg (10 * a + (c.toNat - '0'.toNat))) cs := by
  have hd : (c.toNat : Int) - '0'.toNat = ((c.toNat - '0'.toNat : Nat) : Int) :=
    (Int.ofNat_sub (zero_le_digit hc)).symm
  rw [readDigits, if_pos hc]
  simp only [hd, signedNat_step]

theorem readDigits_cons_of_mem (hc : c.isDigit = true)
    (h : signedNat neg (10 * a + (c.toNat - '0'.toNat)) ∈ r) :
    r.readDigits neg (signedNat neg a) (c :: cs)
      = r.readDigits neg (signedNat neg (10 * a + (c.toNat - '0'.toNat))) cs := by
  rw [readDigits_cons hc, if_neg (Int.not_lt.mpr h.1), if_neg (Int.not_lt.mpr h.2)]

theorem readDigits_cons_of_not_mem (hc : c.isDigit = true)
    (h : signedNat neg (10 * a + (c.toNat - '0'.toNat)) ∉ r) :
    r.readDigits neg (signedNat neg a) (c :: cs) ≠ .ok z := by
  rw [readDigits_cons hc]
  rw [mem_iff] at h
  split
  · simp
  · rw [if_pos (by omega)]
    simp

/-- **The reader of digits, from any value on.** It succeeds when all that follows are digits and
the value of the whole is in the range. -/
theorem readDigits_eq_ok_iff (h : 0 ∈ r) (ha : signedNat neg a ∈ r) :
    r.readDigits neg (signedNat neg a) cs = .ok z ↔
      (∀ c ∈ cs, c.isDigit = true) ∧ z = signedNat neg (a * 10 ^ cs.length + digitsValue cs) ∧
        z ∈ r := by
  induction cs generalizing a with
  | nil =>
    simp only [readDigits, List.not_mem_nil, List.length_nil, digitsValue_nil, Except.ok.injEq,
      Nat.pow_zero, Nat.mul_one, Nat.add_zero, false_implies, implies_true, true_and]
    exact ⟨fun hz => ⟨hz.symm, hz ▸ ha⟩, fun hz => hz.1.symm⟩
  | cons c cs ih =>
    by_cases hc : c.isDigit = true
    · have hvalue : a * 10 ^ (c :: cs).length + digitsValue (c :: cs)
          = (10 * a + (c.toNat - '0'.toNat)) * 10 ^ cs.length + digitsValue cs := by
        rw [digitsValue_cons, List.length_cons, Nat.pow_succ]
        ring
      rw [hvalue, List.forall_mem_cons]
      by_cases hb : signedNat neg (10 * a + (c.toNat - '0'.toNat)) ∈ r
      · rw [readDigits_cons_of_mem hc hb, ih hb]
        simp only [hc, true_and]
      · refine iff_of_false (readDigits_cons_of_not_mem hc hb) fun hz => hb ?_
        refine signedNat_mem_of_le h ?_ (hz.2.1 ▸ hz.2.2)
        exact Nat.le_add_right_of_le (Nat.le_mul_of_pos_right _ (Nat.pow_pos (by decide)))
    · rw [readDigits, if_neg hc]
      simp [hc]

/-- From nothing on, with the text in its notation. -/
theorem readDigits_zero_eq_ok_iff (h : 0 ∈ r) (hcs : cs ≠ []) :
    r.readDigits neg 0 cs = .ok z ↔ ∃ n, DigitString cs n ∧ z = signedNat neg n ∧ z ∈ r := by
  have hzero : signedNat neg 0 = 0 := by cases neg <;> rfl
  have hread : r.readDigits neg (signedNat neg 0) cs = .ok z ↔ _ :=
    readDigits_eq_ok_iff h (hzero ▸ h)
  rw [hzero, Nat.zero_mul, Nat.zero_add] at hread
  rw [hread]
  constructor
  · rintro ⟨hdigits, hz, hr⟩
    exact ⟨_, ⟨hcs, hdigits, rfl⟩, hz, hr⟩
  · rintro ⟨n, hn, hz, hr⟩
    exact ⟨hn.isDigit, hn.value_eq ▸ hz, hr⟩

/-! ### The reader, sign first -/

theorem read_plus (h : cs ≠ []) : r.read ('+' :: cs) = r.readDigits false 0 cs := by
  cases cs with
  | nil => exact absurd rfl h
  | cons c cs => rfl

theorem read_minus (h : cs ≠ []) :
    r.read ('-' :: cs) = if r.least < 0 then r.readDigits true 0 cs else .error .invalidDigit := by
  cases cs with
  | nil => exact absurd rfl h
  | cons c cs => rfl

theorem read_bare (hplus : c ≠ '+') (hminus : c ≠ '-') :
    r.read (c :: cs) = r.readDigits false 0 (c :: cs) := by
  rw [read]
  all_goals simp_all

/-- A text is empty, opens with a sign, or opens with neither. -/
theorem text_cases (cs : List Char) :
    cs = [] ∨ (∃ ds, cs = '+' :: ds) ∨ (∃ ds, cs = '-' :: ds) ∨
      ∃ c ds, cs = c :: ds ∧ c ≠ '+' ∧ c ≠ '-' := by
  cases cs with
  | nil => exact .inl rfl
  | cons c ds =>
    by_cases hplus : c = '+'
    · exact .inr (.inl ⟨ds, hplus ▸ rfl⟩)
    by_cases hminus : c = '-'
    · exact .inr (.inr (.inl ⟨ds, hminus ▸ rfl⟩))
    exact .inr (.inr (.inr ⟨c, ds, rfl, hplus, hminus⟩))

/-- **What the reader accepts.** A minus sign is taken only where the range has negative
numbers, even if digits of zero follow it. -/
theorem read_eq_ok_iff (h : 0 ∈ r) : r.read cs = .ok z ↔ z ∈ r ∧
    ((∃ n : Nat, Numeral cs n ∧ z = n) ∨
      (r.least < 0 ∧ ∃ ds n, cs = '-' :: ds ∧ DigitString ds n ∧ z = -n)) := by
  rcases text_cases cs with rfl | ⟨ds, rfl⟩ | ⟨ds, rfl⟩ | ⟨c, ds, rfl, hplus, hminus⟩
  · simp [read, not_numeral_nil]
  · by_cases hds : ds = []
    · subst hds
      simp [read, numeral_plus_iff, not_digitString_nil]
    · rw [read_plus hds, readDigits_zero_eq_ok_iff h hds]
      simp only [numeral_plus_iff, signedNat]
      grind
  · by_cases hds : ds = []
    · subst hds
      simp [read, not_numeral_minus, not_digitString_nil]
    · rw [read_minus hds]
      split
      · rw [readDigits_zero_eq_ok_iff h hds]
        simp only [not_numeral_minus, signedNat]
        grind
      · simp_all [not_numeral_minus]
  · rw [read_bare hplus hminus, readDigits_zero_eq_ok_iff h (List.cons_ne_nil c ds)]
    simp only [numeral_bare_iff hplus, signedNat]
    grind

theorem mem_int32 : z ∈ int32 ↔ -2 ^ 31 ≤ z ∧ z < 2 ^ 31 := by
  show -2 ^ 31 ≤ z ∧ z ≤ 2 ^ 31 - 1 ↔ _
  omega

theorem mem_uint64 : z ∈ uint64 ↔ 0 ≤ z ∧ z < 2 ^ 64 := by
  show 0 ≤ z ∧ z ≤ 2 ^ 64 - 1 ↔ _
  omega

/-- Signed words are written with a sign of either kind or none. -/
theorem read_int32_eq_ok_iff :
    int32.read cs = .ok z ↔ SignedNumeral cs z ∧ -2 ^ 31 ≤ z ∧ z < 2 ^ 31 := by
  rw [read_eq_ok_iff (mem_int32.mpr (by decide)), signedNumeral_iff, mem_int32, and_comm]
  simp only [show int32.least < 0 by decide, true_and]

/-- Unsigned words are written with a plus sign or none. -/
theorem read_uint64_eq_ok_iff :
    uint64.read cs = .ok z ↔ ∃ n : Nat, Numeral cs n ∧ z = n ∧ n < 2 ^ 64 := by
  rw [read_eq_ok_iff (mem_uint64.mpr (by decide)), mem_uint64]
  simp only [show ¬uint64.least < 0 by decide, false_and, or_false]
  constructor
  · rintro ⟨hz, n, hn, rfl⟩
    exact ⟨n, hn, rfl, by omega⟩
  · rintro ⟨n, hn, rfl, hlt⟩
    exact ⟨by omega, n, hn, rfl⟩

end WordRange

end FriBound
